import Hoglet.Wal.Reopen

/-! The publisher's calls at the committed checkpoint while the writer works: in which of the states a
run reaches they take the writer's progress for corruption. -/
namespace Hoglet.Wal
variable {β : Type} {C : Codec β} {config : WalConfig}
namespace Site

/-- No window and no removal at the committed checkpoint reports corruption, whatever order the attempts
list the directory in and whatever errors of its own the file system reports. -/
def NeverMistaken (s : Site C config) : Prop :=
  ∀ names : Nat → List Path, (∀ i, Lists s.log.dir (names i)) →
    (∀ maxBytes e, readWindow C config (fun i => .still (names i) s.log.dir) s.checkpoint maxBytes = .error e →
      ¬ e.IsCorruption) ∧
    ∀ (removal : Nat → Nat → Option IoKind) (sync : Nat → Option IoKind) (e : WalError), 
      (reclaimThrough (fun i => reclaimThroughOnce C config (.still (names i) s.log.dir) (removal i) (sync i) s.checkpoint)
        (layoutRaceAttempts - 1) 0).2 = .error e → ¬ e.IsCorruption

/-- The checkpoint lies in a sealed segment, or it names the active segment while no frame of it has
landed in part, or mid-seal the segment created next after a sealed one. -/
def Settled (s : Site C config) : Prop :=
  s.checkpoint.segment < s.log.next ∨ s.checkpoint.segment = s.log.next ∧
    ((∃ whole, s.log.active = some ⟨whole, []⟩) ∨ s.log.active = none ∧ s.log.sealed ≠ [])

private theorem validated_settled {s : Site C config} :
    (s.Settled → ∃ valid, s.log.validated s.checkpoint = .ok valid) ∧
    (¬ s.Settled → ∃ e, s.log.validated s.checkpoint = .error e ∧ e.IsCorruption) := by
  unfold Settled Log.validated
  by_cases hlt : s.checkpoint.segment < s.log.next
  · simp [hlt]
  by_cases hseg : s.checkpoint.segment = s.log.next
  · cases ha : s.log.active with
    | none => by_cases hnil : s.log.sealed = [] <;> simp [hseg, hnil, WalError.IsCorruption]
    | some t =>
      obtain ⟨whole, torn⟩ := t
      by_cases ht : torn = [] <;> simp [hseg, ht, WalError.IsCorruption]
  · simp [hlt, hseg, WalError.IsCorruption]

private theorem removeAll_io {removal : Nat → Option IoKind} {l removed : List Nat} {e : WalError}
    (h : removeAll removal l = (removed, .error e)) : ∃ kind, e = .io kind := by
  induction l generalizing removed with
  | nil => simp [removeAll] at h
  | cons n l ih =>
    rw [removeAll] at h
    cases hr : removal n with
    | some kind =>
      simp only [hr, Prod.mk.injEq, Except.error.injEq] at h
      exact ⟨kind, h.2.symm⟩
    | none =>
      simp only [hr] at h
      exact ih (Prod.ext rfl (Prod.mk.inj h).2)

/-- A removal reports an error of the file system or the error of its validation. -/
private theorem reclaimThroughOnce_error {g : Glimpse} {removal : Nat → Option IoKind} {sync : Option IoKind} {c : WalCursor}
    {e : WalError} (h : (reclaimThroughOnce C config g removal sync c).2 = .error e) :
    (∃ kind, e = .io kind) ∨ reclaimList C config g c = .error e := by
  unfold reclaimThroughOnce at h
  cases hr : reclaimList C config g c with
  | error e' => exact .inr (by simpa [hr] using h)
  | ok l =>
    simp only [hr] at h
    rcases ha : removeAll removal l with ⟨removed, e' | ⟨⟩⟩
    · simp only [ha, Except.error.injEq] at h
      exact .inl (h ▸ removeAll_io ha)
    · simp only [ha] at h
      split at h
      · exact .inl ⟨_, (Except.error.inj h).symm⟩
      · cases h

private theorem Inv.neverMistaken_iff {s : Site C config} (h : s.Inv) : s.NeverMistaken ↔ s.Settled := by
  have hvalid := h.checkpoint.validate h.wellFormed
  constructor
  · intro hn
    by_contra hs
    obtain ⟨e, he, hc⟩ := validated_settled.2 hs
    refine (hn (fun _ => s.log.names) fun _ => s.log.lists_names).1 1 e ?_ hc
    rw [readWindow_still s.log (fun _ => s.log.lists_names) _ Nat.one_ne_zero, hvalid, he]
    rfl
  · intro hs names hl
    obtain ⟨valid, hok⟩ := validated_settled.1 hs
    constructor
    · intro maxBytes e he
      by_cases hm : maxBytes = 0
      · simp only [readWindow, hm, if_true, Except.error.injEq] at he
        subst he
        exact id
      · rw [readWindow_still s.log hl _ hm, hvalid, hok] at he
        cases he
    · intro removal sync e he
      rw [reclaimThrough_result] at he
      obtain ⟨i, _, hi⟩ := retryLayoutRace_eq_attempt fun i => (reclaimThroughOnce C config
        (.still (names i) s.log.dir) (removal i) (sync i) s.checkpoint).2
      rw [hi] at he
      rcases reclaimThroughOnce_error he with ⟨kind, rfl⟩ | hr
      · exact id
      · rw [reclaimList_still s.log (hl i), hvalid, hok] at hr
        cases hr

/-- In every state a run reaches, the publisher's calls never report corruption exactly when the state
is settled. -/
theorem never_mistaken_iff (s : Site C config) (h : System.Reached fresh Step System.anyStep s) :
    s.NeverMistaken ↔ s.Settled :=
  (inv_reached h).neverMistaken_iff

/-- The next segment created, and the first byte of a frame landed in it. -/
def midWrite (k : Nat) : Site (Capture.batchCodec Capture.Crates.small) .standard :=
  ⟨⟨1, Nat.one_pos, [[flatRec]], some ⟨[], flatRec.frame.take k⟩⟩, 0, false, ⟨2, 0⟩, none, []⟩

private theorem midWrite_reached {k : Nat} (hk : k < flatRec.frame.length) :
    System.Reached fresh Step System.anyStep (midWrite k) := by
  refine .step (a := .write) ?_ trivial (.write (midWrite 0) _ (.land _ [] flatRec 0 k (Nat.zero_le k) hk rfl) rfl rfl)
  exact .step (a := .create) publishedMidSeal_reached.any trivial (.create publishedMidSeal _ (.create _ rfl) rfl rfl)

theorem published_never_mistaken : (midWrite 0).NeverMistaken :=
  (never_mistaken_iff _ (midWrite_reached flatRec.framedBytes_pos)).mpr (.inr ⟨rfl, .inl ⟨[], rfl⟩⟩)

/-- One landed byte of the next frame. -/
theorem mid_write_mistaken : System.Reached fresh Step System.anyStep (midWrite 1) ∧ ¬ (midWrite 1).NeverMistaken := by
  have hk : 1 < flatRec.frame.length := by simp [Rec.frame, recordHeaderBytes]; omega
  refine ⟨midWrite_reached hk, fun h => ?_⟩
  rcases (inv_reached (midWrite_reached hk)).neverMistaken_iff.mp h with hlt | ⟨_, ⟨whole, ha⟩ | ⟨ha, _⟩⟩
  · exact absurd hlt (by decide)
  · simp [midWrite, Rec.frame, encodeFrame, recordMagic] at ha
  · cases ha

end Site
end Hoglet.Wal
