import Hoglet.Wal.Segment
import Mathlib.Data.List.Sort

/-! Segment discovery from a directory listing, cursor validation, and the retry of listings that
raced the writer. A listing and the two opens of the cursor's file may each see the directory at a
different moment. -/
namespace Hoglet.Wal

inductive Suffix where
  | open_ | wal
  deriving DecidableEq, Repr

/-- A segment file name: its sequence number and `.open` or `.wal`. -/
structure Path where
  sequence : Nat
  suffix : Suffix
  deriving DecidableEq, Repr

def activePath (sequence : Nat) : Path := ⟨sequence, .open_⟩
def sealedPath (sequence : Nat) : Path := ⟨sequence, .wal⟩

/-- The segment files of the directory at one moment. -/
abbrev Dir := Path → Option Bytes

def openFile (dir : Dir) (path : Path) : Except WalError Bytes :=
  match dir path with
  | some bytes => .ok bytes
  | none => .error (.io .notFound)

/-- `read_dir` at one moment yields every name once, in any order. -/
def Lists (dir : Dir) (names : List Path) : Prop :=
  names.Nodup ∧ ∀ p, p ∈ names ↔ (dir p).isSome

/-- The next byte a consumer has not incorporated yet. -/
structure WalCursor where
  segment : Nat
  byteOffset : Nat
  deriving DecidableEq, Repr

def WalCursor.origin : WalCursor := ⟨1, 0⟩

/-- The derived `PartialOrd` of `WalCursor`. -/
def WalCursor.Before (a b : WalCursor) : Prop :=
  a.segment < b.segment ∨ a.segment = b.segment ∧ a.byteOffset ≤ b.byteOffset

structure SegmentLayout where
  sealed : List Nat
  active : Option Nat
  deriving DecidableEq, Repr

/-- Start of the segment the writer creates next while it is mid-seal. -/
def SegmentLayout.nextSegmentCursor (layout : SegmentLayout) : Option WalCursor :=
  if layout.active.isSome then none
  else layout.sealed.getLast?.map fun last => ⟨last + 1, 0⟩

def sequencesOf (suffix : Suffix) (names : List Path) : List Nat :=
  ((names.filter (·.suffix = suffix)).map Path.sequence).insertionSort (· ≤ ·)

def listSegments (names : List Path) : List Nat × List Nat :=
  (sequencesOf .wal names, sequencesOf .open_ names)

/-- The `windows(2)` loop of `discover_segment_layout`. -/
def checkSequences : List Nat → Except WalError Unit
  | previous :: current :: rest =>
    if current = previous then .error (.corruption current 0 .duplicateSequence)
    else if current ≠ previous + 1 then .error (.corruption current 0 .missingSegment)
    else checkSequences (current :: rest)
  | _ => .ok ()

/-- The listed sequences, the active one included, in order. -/
def sequencesSeen (sealed activeSegments : List Nat) : List Nat :=
  (sealed ++ activeSegments.head?.toList).insertionSort (· ≤ ·)

def checkLayout (sealed activeSegments : List Nat) : Except WalError SegmentLayout :=
  if 1 < activeSegments.length then .error (.corruption 0 0 .multipleActive)
  else if (sequencesSeen sealed activeSegments).head? = some 0 then .error (.corruption 0 0 .sequenceZero)
  else match checkSequences (sequencesSeen sealed activeSegments) with
    | .error error => .error error
    | .ok () =>
      match activeSegments.head? with
      | none => .ok ⟨sealed, none⟩
      | some active =>
        if (sequencesSeen sealed activeSegments).getLast? ≠ some active then
          .error (.corruption active 0 .activeNotNewest)
        else .ok ⟨sealed, some active⟩

def discoverSegmentLayout (names : List Path) : Except WalError SegmentLayout :=
  checkLayout (listSegments names).1 (listSegments names).2

/-- The file `validate_cursor` looks the cursor up in: sealed segments first, then the active one. -/
def cursorPath (layout : SegmentLayout) (segment : Nat) : Option Path :=
  if segment ∈ layout.sealed then some (sealedPath segment)
  else if layout.active = some segment then some (activePath segment)
  else none

/-- What one attempt of a reader sees: a listing, and the directory when the cursor's file is
opened for the scan and again for the boundary pass. -/
structure Glimpse where
  names : List Path
  scanned : Dir
  bounded : Dir

def Glimpse.still (names : List Path) (dir : Dir) : Glimpse := ⟨names, dir, dir⟩

section validate
variable {β : Type} (C : Codec β) (config : WalConfig)

/-- `validate_cursor`; the result is the segment's `valid_bytes`. -/
def validateCursor (layout : SegmentLayout) (scanned bounded : Dir) (cursor : WalCursor) :
    Except WalError Nat :=
  match cursorPath layout cursor.segment with
  | none =>
    if cursor.byteOffset = 0 ∧ layout.nextSegmentCursor = some cursor then .ok 0
    else .error (.corruption cursor.segment cursor.byteOffset .cursorSegmentMissing)
  | some path => do
    let file ← openFile scanned path
    let scan ← scanSegment C config file cursor.segment false
    if scan.validBytes < cursor.byteOffset then
      throw (.corruption cursor.segment cursor.byteOffset .cursorBeyondEof)
    if cursor.byteOffset = 0 then return scan.validBytes
    let file ← openFile bounded path
    if ← isRecordBoundary config file cursor.segment cursor.byteOffset then return scan.validBytes
    else throw (.corruption cursor.segment cursor.byteOffset .cursorNotBoundary)

end validate

def isLayoutRace : WalError → Bool
  | .io kind => kind = .notFound
  | .corruption _ _ reason =>
    reason ∈ [.missingSegment, .activeNotNewest, .duplicateSequence, .multipleActive, .cursorSegmentMissing]
  | _ => false

def layoutRaceAttempts : Nat := 50

def retryFrom {α : Type} (attempt : Nat → Except WalError α) : Nat → Nat → Except WalError α
  | 0, i => attempt i
  | left + 1, i =>
    match attempt i with
    | .error error => if isLayoutRace error then retryFrom attempt left (i + 1) else .error error
    | .ok value => .ok value

/-- `retry_layout_race`, with the attempts numbered. -/
def retryLayoutRace {α : Type} (attempt : Nat → Except WalError α) : Except WalError α :=
  retryFrom attempt (layoutRaceAttempts - 1) 0

private theorem retryFrom_eq_attempt {α : Type} (attempt : Nat → Except WalError α) (left i : Nat) :
    ∃ j, i ≤ j ∧ j ≤ i + left ∧ retryFrom attempt left i = attempt j := by
  induction left generalizing i with
  | zero => exact ⟨i, le_refl _, by omega, rfl⟩
  | succ left ih =>
    rw [retryFrom]
    cases h : attempt i with
    | ok value => exact ⟨i, le_refl _, by omega, h.symm⟩
    | error error =>
      dsimp only
      split
      · obtain ⟨j, hi, hj, he⟩ := ih (i + 1)
        exact ⟨j, by omega, by omega, he⟩
      · exact ⟨i, le_refl _, by omega, h.symm⟩

/-- The retried call answers what one of its attempts answered. -/
theorem retryLayoutRace_eq_attempt {α : Type} (attempt : Nat → Except WalError α) :
    ∃ i < layoutRaceAttempts, retryLayoutRace attempt = attempt i := by
  obtain ⟨j, _, hj, he⟩ := retryFrom_eq_attempt attempt (layoutRaceAttempts - 1) 0
  exact ⟨j, by simp only [layoutRaceAttempts] at *; omega, he⟩

theorem retryLayoutRace_const {α : Type} (result : Except WalError α) :
    retryLayoutRace (fun _ => result) = result := by
  obtain ⟨_, _, h⟩ := retryLayoutRace_eq_attempt (fun _ => result)
  exact h

theorem mem_sequencesOf (suffix : Suffix) (names : List Path) (s : Nat) :
    s ∈ sequencesOf suffix names ↔ Path.mk s suffix ∈ names := by
  simp only [sequencesOf, List.mem_insertionSort, List.mem_map, List.mem_filter, decide_eq_true_eq]
  constructor
  · rintro ⟨⟨_, _⟩, ⟨hm, rfl⟩, rfl⟩
    exact hm
  · intro h
    exact ⟨_, ⟨h, rfl⟩, rfl⟩

theorem sequencesOf_sorted (suffix : Suffix) (names : List Path) :
    (sequencesOf suffix names).Pairwise (· ≤ ·) := List.pairwise_insertionSort _ _

theorem sequencesOf_nodup (suffix : Suffix) {names : List Path} (h : names.Nodup) :
    (sequencesOf suffix names).Nodup := by
  rw [sequencesOf, (List.perm_insertionSort _ _).nodup_iff]
  apply List.Nodup.map_on
  · rintro ⟨a, x⟩ ha ⟨b, y⟩ hb hab
    simp only [List.mem_filter, decide_eq_true_eq] at ha hb
    obtain ⟨_, rfl⟩ := ha
    obtain ⟨_, rfl⟩ := hb
    cases hab
    rfl
  · exact h.filter _

/-- A sorted, duplicate-free listing is determined by its members. -/
theorem sequencesOf_eq (suffix : Suffix) {names : List Path} (h : names.Nodup) {l : List Nat}
    (hs : l.Pairwise (· < ·)) (hm : ∀ s, Path.mk s suffix ∈ names ↔ s ∈ l) :
    sequencesOf suffix names = l := by
  apply List.Perm.eq_of_pairwise' (r := (· ≤ ·)) (sequencesOf_sorted suffix names)
    (hs.imp Nat.le_of_lt)
  apply (List.perm_ext_iff_of_nodup (sequencesOf_nodup suffix h) (hs.imp Nat.ne_of_lt)).mpr
  intro s
  rw [mem_sequencesOf, hm]

theorem checkSequences_range' (first n : Nat) : checkSequences (List.range' first n) = .ok () := by
  induction n generalizing first with
  | zero => rfl
  | succ n ih =>
    cases n with
    | zero => rfl
    | succ n =>
      have := ih (first + 1)
      simp only [List.range'_succ] at *
      simp [checkSequences, this]

theorem range'_of_checkSequences {l : List Nat} (h : checkSequences l = .ok ()) :
    l = List.range' (l.headD 0) l.length := by
  induction l with
  | nil => rfl
  | cons a l ih =>
    cases l with
    | nil => simp
    | cons b l =>
      rw [checkSequences] at h
      split at h
      · cases h
      split at h
      · cases h
      rename_i hb
      have hb : b = a + 1 := by simpa using hb
      have hi := ih h
      subst hb
      rw [List.length_cons, List.range'_succ]
      simp only [List.headD_cons] at *
      rw [← hi]

/-- What an accepted listing satisfies: at most one `.open`, positive contiguous sequences, and the
active segment the newest of them. -/
theorem checkLayout_eq_ok {sealed opened : List Nat} {layout : SegmentLayout} :
    checkLayout sealed opened = .ok layout ↔
      layout = ⟨sealed, opened.head?⟩ ∧ opened.length ≤ 1 ∧ (sequencesSeen sealed opened).head? ≠ some 0 ∧
      checkSequences (sequencesSeen sealed opened) = .ok () ∧
      ∀ s, opened.head? = some s → (sequencesSeen sealed opened).getLast? = some s := by
  unfold checkLayout
  by_cases hone : 1 < opened.length
  · simp only [hone, if_true, reduceCtorEq, false_iff]
    omega
  by_cases hpos : (sequencesSeen sealed opened).head? = some 0
  · simp [hone, hpos]
  rw [if_neg hone, if_neg hpos]
  cases hcheck : checkSequences (sequencesSeen sealed opened) with
  | error e => simp
  | ok u =>
    cases ha : opened.head? with
    | none =>
      simp only [Except.ok.injEq]
      exact ⟨fun h => ⟨h.symm, by omega, hpos, trivial, by simp⟩, fun h => h.1.symm⟩
    | some a =>
      by_cases hl : (sequencesSeen sealed opened).getLast? = some a
      · simp only [hl, ne_eq, not_true_eq_false, if_false, Except.ok.injEq]
        exact ⟨fun h => ⟨h.symm, by omega, hpos, trivial, by simp⟩, fun h => h.1.symm⟩
      · simp only [ne_eq, hl, not_false_eq_true, if_true, reduceCtorEq, false_iff]
        rintro ⟨_, _, _, _, h⟩
        exact hl (h a rfl)

/-- A layout that is accepted has contiguous sealed segments, directly followed by the active one,
and names only files that the listing named. -/
theorem discoverSegmentLayout_ok {names : List Path} {layout : SegmentLayout}
    (h : discoverSegmentLayout names = .ok layout) :
    ∃ first, 0 < first ∧ layout.sealed = List.range' first layout.sealed.length ∧
      (∀ s, s ∈ layout.sealed ↔ sealedPath s ∈ names) ∧
      (∀ s, layout.active = some s → s = first + layout.sealed.length ∧ activePath s ∈ names) ∧
      (layout.active = none → ∀ s, activePath s ∉ names) := by
  obtain ⟨rfl, _, hpos, hcheck, hlast⟩ := checkLayout_eq_ok.mp h
  simp only [listSegments] at *
  set S := sequencesSeen (sequencesOf .wal names) (sequencesOf .open_ names) with hS
  have hr := range'_of_checkSequences hcheck
  have hfirst : S ≠ [] → 0 < S.headD 0 := by
    intro hne
    obtain ⟨a, l, hc⟩ := List.exists_cons_of_ne_nil hne
    simp only [hc, List.head?_cons, ne_eq, Option.some.injEq] at hpos
    rw [hc]
    exact Nat.pos_of_ne_zero hpos
  have hperm : S.Perm (sequencesOf .wal names ++ (sequencesOf .open_ names).head?.toList) :=
    List.perm_insertionSort _ _
  have hsorted : S.Pairwise (· ≤ ·) := List.pairwise_insertionSort _ _
  cases ho : sequencesOf .open_ names with
  | nil =>
    have heq : S = sequencesOf .wal names := by
      apply List.Perm.eq_of_pairwise' (r := (· ≤ ·)) hsorted (sequencesOf_sorted .wal names)
      simpa [ho] using hperm
    have hnone : ∀ s, activePath s ∉ names := by
      intro s hs
      have := (mem_sequencesOf .open_ names s).mpr hs
      simp [ho] at this
    by_cases hne : S = []
    · exact ⟨1, one_pos, by simp [← heq, hne], fun s => mem_sequencesOf _ _ _, by simp, fun _ => hnone⟩
    · refine ⟨S.headD 0, hfirst hne, ?_, fun s => mem_sequencesOf _ _ _, by simp, fun _ => hnone⟩
      rw [heq] at hr ⊢
      exact hr
  | cons a l =>
    simp only [ho, List.head?_cons, Option.some.injEq, forall_eq', Option.toList_some] at hlast hperm
    obtain ⟨pre, hpre⟩ := List.getLast?_eq_some_iff.mp hlast
    have heq : pre = sequencesOf .wal names := by
      apply List.Perm.eq_of_pairwise' (r := (· ≤ ·)) ?_ (sequencesOf_sorted .wal names)
      · exact (List.perm_append_right_iff [a]).mp (hpre ▸ hperm)
      · rw [hpre] at hsorted
        exact (List.pairwise_append.mp hsorted).1
    have hlen : S.length = (sequencesOf .wal names).length + 1 := by simp [hpre, heq]
    have hne : S ≠ [] := by simp [hpre]
    -- the last of the contiguous run is the active sequence, the rest are the sealed ones
    have hsplit : pre ++ [a] = List.range' (S.headD 0) (sequencesOf .wal names).length ++
        [S.headD 0 + (sequencesOf .wal names).length] := by
      rw [hlen, List.range'_concat, one_mul] at hr
      exact hpre.symm.trans hr
    obtain ⟨hw, ha⟩ := List.append_inj' hsplit rfl
    refine ⟨S.headD 0, hfirst hne, heq ▸ hw, fun s => mem_sequencesOf _ _ _, ?_, by simp⟩
    intro s hs
    simp only [List.head?_cons, Option.some.injEq] at hs
    subst hs
    exact ⟨by simpa using ha, (mem_sequencesOf .open_ names a).mp (by simp [ho])⟩

end Hoglet.Wal
