import Hoglet.Wal.Open

/-! `reclaim_through`: which sealed segments a checkpoint covers, and their removal one by one. -/
namespace Hoglet.Wal

/-- The sealed segments a checkpoint covers, of which the checkpoint's own only when the checkpoint is
its validated end. -/
def covered (sealed : List Nat) (checkpoint : WalCursor) (validBytes : Nat) : List Nat :=
  (sealed.takeWhile (· ≤ checkpoint.segment)).filter fun s =>
    s < checkpoint.segment || s = checkpoint.segment && checkpoint.byteOffset = validBytes

/-- The removals in order, up to the first that fails; `removal s` is the error of removing segment `s`. -/
def removeAll (removal : Nat → Option IoKind) : List Nat → List Nat × Except WalError Unit
  | [] => ([], .ok ())
  | s :: rest =>
    match removal s with
    | some kind => ([], .error (.io kind))
    | none =>
      let (removed, result) := removeAll removal rest
      (s :: removed, result)

section reclaim
variable {β : Type} (C : Codec β) (config : WalConfig)

/-- The segments `reclaim_through_once` decides to remove. -/
def reclaimList (g : Glimpse) (checkpoint : WalCursor) : Except WalError (List Nat) :=
  match discoverSegmentLayout g.names with
  | .error error => .error error
  | .ok layout =>
    match validateCursor C config layout g.scanned g.bounded checkpoint with
    | .error error => .error error
    | .ok validBytes => .ok (covered layout.sealed checkpoint validBytes)

/-- What one attempt removes, and its result; `sync` is the error of syncing the directory. -/
def reclaimThroughOnce (g : Glimpse) (removal : Nat → Option IoKind) (sync : Option IoKind)
    (checkpoint : WalCursor) : List Nat × Except WalError (List Nat) :=
  match reclaimList C config g checkpoint with
  | .error error => ([], .error error)
  | .ok reclaim =>
    match removeAll removal reclaim with
    | (removed, .error error) => (removed, .error error)
    | (removed, .ok ()) =>
      match (if reclaim = [] then none else sync) with
      | some kind => (removed, .error (.io kind))
      | none => (removed, .ok reclaim)

/-- `reclaim_through`: everything its attempts removed, and the result of the last one. -/
def reclaimThrough (attempt : Nat → List Nat × Except WalError (List Nat)) :
    Nat → Nat → List Nat × Except WalError (List Nat)
  | 0, i => attempt i
  | left + 1, i =>
    match attempt i with
    | (removed, .error error) =>
      if isLayoutRace error then
        let (later, result) := reclaimThrough attempt left (i + 1)
        (removed ++ later, result)
      else (removed, .error error)
    | done => done

variable {C config}

/-- The result is the one `retry_layout_race` gives. -/
theorem reclaimThrough_result (attempt : Nat → List Nat × Except WalError (List Nat)) :
    (reclaimThrough attempt (layoutRaceAttempts - 1) 0).2 = retryLayoutRace fun i => (attempt i).2 := by
  suffices ∀ left i, (reclaimThrough attempt left i).2 = retryFrom (fun i => (attempt i).2) left i from this _ _
  intro left
  induction left with
  | zero => exact fun _ => rfl
  | succ left ih =>
    intro i
    rw [reclaimThrough, retryFrom]
    rcases h : attempt i with ⟨removed, error | value⟩
    · simp only
      split
      · exact ih (i + 1)
      · rfl
    · rfl

theorem mem_reclaimThrough {attempt : Nat → List Nat × Except WalError (List Nat)} {left i s : Nat}
    (h : s ∈ (reclaimThrough attempt left i).1) : ∃ j, i ≤ j ∧ j ≤ i + left ∧ s ∈ (attempt j).1 := by
  induction left generalizing i with
  | zero => exact ⟨i, le_refl _, by omega, h⟩
  | succ left ih =>
    rw [reclaimThrough] at h
    split at h
    · rename_i removed error ha
      split at h
      · rcases List.mem_append.mp h with hr | hl
        · exact ⟨i, le_refl _, by omega, by rw [ha]; exact hr⟩
        · obtain ⟨j, hij, hj, hm⟩ := ih hl
          exact ⟨j, by omega, by omega, hm⟩
      · exact ⟨i, le_refl _, by omega, by rw [ha]; exact h⟩
    · exact ⟨i, le_refl _, by omega, h⟩

private theorem removeAll_sublist (removal : Nat → Option IoKind) (l : List Nat) {s : Nat}
    (h : s ∈ (removeAll removal l).1) : s ∈ l := by
  induction l with
  | nil => simp [removeAll] at h
  | cons a l ih =>
    rw [removeAll] at h
    split at h
    · simp at h
    · rcases List.mem_cons.mp h with rfl | h
      · simp
      · exact List.mem_cons_of_mem _ (ih h)

theorem mem_reclaimThroughOnce {g : Glimpse} {removal : Nat → Option IoKind} {sync : Option IoKind}
    {checkpoint : WalCursor} {s : Nat} (h : s ∈ (reclaimThroughOnce C config g removal sync checkpoint).1) :
    ∃ reclaim, reclaimList C config g checkpoint = .ok reclaim ∧ s ∈ reclaim := by
  unfold reclaimThroughOnce at h
  cases hr : reclaimList C config g checkpoint with
  | error e => simp [hr] at h
  | ok reclaim =>
    have hmem := removeAll_sublist removal reclaim (s := s)
    simp only [hr] at h
    rcases ha : removeAll removal reclaim with ⟨removed, error | ⟨⟩⟩
    · simp only [ha] at h hmem
      exact ⟨reclaim, rfl, hmem h⟩
    · simp only [ha] at h hmem
      refine ⟨reclaim, rfl, hmem ?_⟩
      split at h <;> exact h

theorem mem_covered {sealed : List Nat} {checkpoint : WalCursor} {validBytes s : Nat}
    (h : s ∈ covered sealed checkpoint validBytes) :
    s ∈ sealed ∧ (s < checkpoint.segment ∨ s = checkpoint.segment ∧ checkpoint.byteOffset = validBytes) := by
  rw [covered, List.mem_filter] at h
  exact ⟨(List.takeWhile_sublist _).mem h.1, by simpa using h.2⟩

/-- A segment chosen for removal was listed as sealed, and it lies before the checkpoint or ends there. -/
theorem reclaimList_spec {g : Glimpse} {checkpoint : WalCursor} {reclaim : List Nat}
    (h : reclaimList C config g checkpoint = .ok reclaim) {s : Nat} (hs : s ∈ reclaim) :
    sealedPath s ∈ g.names ∧ (s < checkpoint.segment ∨ s = checkpoint.segment ∧
      FoundIn C config g.scanned g.bounded (sealedPath s) checkpoint checkpoint.byteOffset) := by
  unfold reclaimList at h
  cases hl : discoverSegmentLayout g.names with
  | error e => simp [hl] at h
  | ok layout =>
    simp only [hl] at h
    cases hv : validateCursor C config layout g.scanned g.bounded checkpoint with
    | error e => simp [hv] at h
    | ok valid =>
      simp only [hv, Except.ok.injEq] at h
      subst h
      obtain ⟨hmem, hcase⟩ := mem_covered hs
      obtain ⟨_, _, _, hm, _⟩ := discoverSegmentLayout_ok hl
      refine ⟨(hm s).mp hmem, hcase.imp_right fun ⟨hseg, hoff⟩ => ⟨hseg, ?_⟩⟩
      have hvok := validateCursor_ok hv
      rw [show cursorPath layout checkpoint.segment = some (sealedPath s) by simp [cursorPath, ← hseg, hmem]] at hvok
      rw [hoff]
      exact hvok

/-- On a quiet log, at a position. -/
theorem reclaimList_position (L : Log C config) (hq : L.Quiet) {c : WalCursor} (hc : L.Position c)
    {names : List Path} (hl : Lists L.dir names) :
    ∃ valid, reclaimList C config (.still names L.dir) c = .ok (covered L.layout.sealed c valid) := by
  obtain ⟨valid, hv, _⟩ := L.validateCursor_position hq hc
  exact ⟨valid, by simp only [reclaimList, Glimpse.still, L.discover hl, hv]⟩

end reclaim
end Hoglet.Wal
