import Hoglet.Wal.Open

/-! Runs of the log: the writer's steps on the active segment, and the removal of the oldest one. -/
namespace Hoglet.Wal
variable {β : Type} {C : Codec β} {config : WalConfig}

/-- One step of the writer. A frame's bytes land in any number of pieces. -/
inductive WriterStep : Log C config → Log C config → Prop
  | land (L : Log C config) (whole : List (Rec C config)) (r : Rec C config) (j k : Nat) (hjk : j ≤ k)
      (hk : k < r.frame.length) (ha : L.active = some ⟨whole, r.frame.take j⟩) :
      WriterStep L { L with active := some ⟨whole, r.frame.take k⟩ }
  | finish (L : Log C config) (whole : List (Rec C config)) (r : Rec C config) (j : Nat)
      (ha : L.active = some ⟨whole, r.frame.take j⟩) :
      WriterStep L { L with active := some ⟨whole ++ [r], []⟩ }
  | rename (L : Log C config) (whole : List (Rec C config)) (hne : whole ≠ []) (ha : L.active = some ⟨whole, []⟩) :
      WriterStep L { L with sealed := L.sealed ++ [whole], active := none }
  | create (L : Log C config) (ha : L.active = none) : WriterStep L { L with active := some ⟨[], []⟩ }

/-- The publisher removes the oldest sealed segment. -/
inductive RemoveStep : Log C config → Log C config → Prop
  | oldest (L : Log C config) (rs : List (Rec C config)) (later : List (List (Rec C config)))
      (hs : L.sealed = rs :: later) :
      RemoveStep L { L with first := L.first + 1, first_pos := Nat.succ_pos _, sealed := later }

/-- What no step undoes: segments go from the front only, and a sealed segment keeps its records. -/
structure Log.Grows (L L' : Log C config) : Prop where
  first_le : L.first ≤ L'.first
  next_le : L.next ≤ L'.next
  content : ∀ s, L'.first ≤ s → s < L.next → L'.content s = L.content s

namespace Log

theorem Grows.refl (L : Log C config) : L.Grows L := ⟨le_refl _, le_refl _, fun _ _ _ => rfl⟩

theorem Grows.trans {L M N : Log C config} (h : L.Grows M) (h' : M.Grows N) : L.Grows N :=
  ⟨h.first_le.trans h'.first_le, h.next_le.trans h'.next_le, fun s h1 h2 =>
    (h'.content s h1 (h2.trans_le h.next_le)).trans (h.content s (h'.first_le.trans h1) h2)⟩

theorem content_eq (L : Log C config) {s : Nat} (h : L.first ≤ s) : L.content s = (L.sealed[s - L.first]?).getD [] := by
  simp [content, segment, h]

theorem grows_of_writer {L L' : Log C config} (h : WriterStep L L') : L.Grows L' ∧ L'.first = L.first := by
  cases h with
  | land | finish | create => exact ⟨⟨le_refl _, le_refl _, fun _ _ _ => rfl⟩, rfl⟩
  | rename whole _ _ =>
    refine ⟨⟨le_refl _, by simp [next], fun s h1 h2 => ?_⟩, rfl⟩
    simp only [next] at h2
    rw [content_eq _ h1, L.content_eq h1, List.getElem?_append_left]
    simp only at h1 ⊢
    omega

theorem grows_of_remove {L L' : Log C config} (h : RemoveStep L L') : L.Grows L' := by
  cases h with
  | oldest rs later hs =>
    refine ⟨Nat.le_succ _, by simp [next, hs]; omega, fun s h1 _ => ?_⟩
    simp only at h1
    rw [content_eq _ h1, L.content_eq (by omega), hs]
    simp only
    obtain ⟨d, rfl⟩ := Nat.exists_eq_add_of_le h1
    rw [show L.first + 1 + d - (L.first + 1) = d by omega, show L.first + 1 + d - L.first = d + 1 by omega,
      List.getElem?_cons_succ]

end Log

/-- The log over time, while the writer works and the publisher removes segments or not. -/
def Runs (run : Nat → Log C config) : Prop :=
  ∀ t, run (t + 1) = run t ∨ WriterStep (run t) (run (t + 1)) ∨ RemoveStep (run t) (run (t + 1))

/-- The log over time while the publisher is busy elsewhere. -/
def WriterRuns (run : Nat → Log C config) : Prop := ∀ t, run (t + 1) = run t ∨ WriterStep (run t) (run (t + 1))

theorem WriterRuns.runs {run : Nat → Log C config} (h : WriterRuns run) : Runs run := fun t =>
  (h t).imp_right .inl

theorem Runs.grows {run : Nat → Log C config} (h : Runs run) {t u : Nat} (htu : t ≤ u) : (run t).Grows (run u) := by
  induction u, htu using Nat.le_induction with
  | base => exact .refl _
  | succ u _ ih =>
    rcases h u with he | hw | hr
    · exact he ▸ ih
    · exact ih.trans (Log.grows_of_writer hw).1
    · exact ih.trans (Log.grows_of_remove hr)

theorem WriterRuns.first_eq {run : Nat → Log C config} (h : WriterRuns run) {t u : Nat} (htu : t ≤ u) :
    (run u).first = (run t).first := by
  induction u, htu using Nat.le_induction with
  | base => rfl
  | succ u _ ih =>
    rcases h u with he | hw
    · rw [he, ih]
    · rw [(Log.grows_of_writer hw).2, ih]

/-- A listing made between two moments: each name is seen or not as of some moment in between. -/
def SeenDuring (run : Nat → Log C config) (start stop : Nat) (names : List Path) : Prop :=
  ∀ p, ∃ t, start ≤ t ∧ t ≤ stop ∧ (p ∈ names ↔ ((run t).dir p).isSome)

/-- What one attempt sees of a run that it has finished with by `last`. -/
def Watches (run : Nat → Log C config) (last : Nat) (g : Glimpse) : Prop :=
  ∃ start stop scan bound, stop ≤ scan ∧ scan ≤ bound ∧ bound ≤ last ∧ SeenDuring run start stop g.names ∧
    g.scanned = (run scan).dir ∧ g.bounded = (run bound).dir

theorem Log.dir_sealed_some (L : Log C config) {s : Nat} {file : Bytes} (h : L.dir (sealedPath s) = some file) :
    L.first ≤ s ∧ s < L.next ∧ file = segBytes C config (L.content s) := by
  obtain ⟨hf, hs⟩ := (L.mem_dir_sealed s).mp (by simp [h])
  rw [L.dir_sealed hf hs] at h
  exact ⟨hf, hs, (Option.some.inj h).symm⟩

/-- A sealed file seen at one moment of a run holds what a later moment has on record for it. -/
theorem Runs.sealed_file {run : Nat → Log C config} (h : Runs run) {t u : Nat} (htu : t ≤ u) {s : Nat} {file : Bytes}
    (hfile : (run t).dir (sealedPath s) = some file) (hf : (run u).first ≤ s) :
    file = segBytes C config ((run u).content s) := by
  obtain ⟨_, hs, rfl⟩ := (run t).dir_sealed_some hfile
  rw [(h.grows htu).content s hf hs]

end Hoglet.Wal
