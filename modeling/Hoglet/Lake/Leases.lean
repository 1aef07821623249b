import Hoglet.Lake.Versions

/-! Readers against the graveyard: snapshots and leases that readers take, clone and drop, activations that
retire files, and sweeps that unlink what nobody holds, in any interleaving. -/
namespace Hoglet.Lake
open Capture Projections

/-- A sweep under the graveyard's lock. `doomed` was found to be held by nobody and is not unlinked yet. -/
structure Sweep where
  rest : List LakeFile
  doomed : Option LakeFile
  kept : List LakeFile

/-- What the threads share. `burying` are the files that an activation has taken out of the snapshot and not
yet put into the graveyard; `retired` and `unlinked` record what happened. -/
structure Shared where
  current : Snapshot
  held : List Snapshot
  leases : List Lease
  burying : List LakeFile
  graveyard : List LakeFile
  sweeping : Option Sweep
  retired : List LakeFile
  unlinked : List LakeFile

inductive Move where
  | take
  | cloneSnapshot
  | dropSnapshot
  | lease
  | cloneLease
  | dropLease
  | swap
  | bury
  | beginSweep
  | keep
  | doom
  | unlink
  | fail (file : LakeFile)
  | finish

namespace Shared

def opened (snapshot : Snapshot) : Shared := ⟨snapshot, [], [], [], [], none, [], []⟩

/-- A snapshot or a lease names the file. -/
def Named (s : Shared) (file : LakeFile) : Prop :=
  s.current.Has file ∨ (∃ t ∈ s.held, t.Has file) ∨ ∃ l ∈ s.leases, file ∈ l.files

/-- `strong_count` of a buried file is above one. -/
def Counted (s : Shared) (file : LakeFile) : Prop := s.Named file ∨ file ∈ s.burying

/-- The files in the graveyard, also while it is swept. -/
def buried (s : Shared) : List LakeFile :=
  s.graveyard ++ match s.sweeping with
    | some sweep => sweep.rest ++ sweep.doomed.toList ++ sweep.kept
    | none => []

end Shared

/-- An activation swaps the snapshot and buries the files afterwards; a sweep looks at one file after
another, and what it finds held by nobody it unlinks in a step of its own. -/
inductive Shared.Step : Move → Shared → Shared → Prop
  | take {s : Shared} : Step .take s { s with held := s.current :: s.held }
  | cloneSnapshot {s : Shared} (t : Snapshot) (h : t ∈ s.held) : Step .cloneSnapshot s { s with held := t :: s.held }
  | dropSnapshot {s : Shared} (before after : List Snapshot) (t : Snapshot) (h : s.held = before ++ t :: after) :
      Step .dropSnapshot s { s with held := before ++ after }
  | lease {s : Shared} (t : Snapshot) (h : t ∈ s.held) (p : String) (first toExclusive : NaiveDate) :
      Step .lease s { s with leases := t.lease p first toExclusive :: s.leases }
  | cloneLease {s : Shared} (l : Lease) (h : l ∈ s.leases) : Step .cloneLease s { s with leases := l :: s.leases }
  | dropLease {s : Shared} (before after : List Lease) (l : Lease) (h : s.leases = before ++ l :: after) :
      Step .dropLease s { s with leases := before ++ after }
  | swap {s : Shared} (generation : Nat) (added : List LakeFile) (ids : List Nat) (hb : s.burying = [])
      (hg : s.current.generation < generation) (hn : ∀ file ∈ added, file.path.name.generation = generation)
      (hp : (added.map LakeFile.path).Nodup) :
      Step .swap s { s with
        current := (s.current.activate generation added ids).1, burying := (s.current.activate generation added ids).2,
        retired := s.retired ++ (s.current.activate generation added ids).2 }
  | bury {s : Shared} (hs : s.sweeping = none) : Step .bury s { s with graveyard := s.graveyard ++ s.burying, burying := [] }
  | beginSweep {s : Shared} (hs : s.sweeping = none) :
      Step .beginSweep s { s with graveyard := [], sweeping := some ⟨s.graveyard, none, []⟩ }
  | keep {s : Shared} (file : LakeFile) (rest kept : List LakeFile) (hs : s.sweeping = some ⟨file :: rest, none, kept⟩)
      (hc : s.Counted file) : Step .keep s { s with sweeping := some ⟨rest, none, kept ++ [file]⟩ }
  | doom {s : Shared} (file : LakeFile) (rest kept : List LakeFile) (hs : s.sweeping = some ⟨file :: rest, none, kept⟩)
      (hc : ¬ s.Counted file) : Step .doom s { s with sweeping := some ⟨rest, some file, kept⟩ }
  | unlink {s : Shared} (file : LakeFile) (rest kept : List LakeFile) (hs : s.sweeping = some ⟨rest, some file, kept⟩) :
      Step .unlink s { s with sweeping := some ⟨rest, none, kept⟩, unlinked := s.unlinked ++ [file] }
  | fail {s : Shared} (file : LakeFile) (rest kept : List LakeFile) (hs : s.sweeping = some ⟨rest, some file, kept⟩) :
      Step (.fail file) s { s with sweeping := some ⟨rest, none, kept ++ [file]⟩ }
  | finish {s : Shared} (kept : List LakeFile) (hs : s.sweeping = some ⟨[], none, kept⟩) :
      Step .finish s { s with graveyard := s.graveyard ++ kept, sweeping := none }

namespace Shared

/-- What every interleaving keeps. -/
structure Inv (s : Shared) : Prop where
  distinct : s.current.Distinct
  paths : ∀ file file', s.current.Has file → s.current.Has file' → file.path = file'.path → file = file'
  named : ∀ file, s.current.Has file ∨ file ∈ s.retired → file.path.name.generation ≤ s.current.generation
  apart : ∀ file, s.current.Has file → ∀ old ∈ s.retired, old.path ≠ file.path
  once : (s.retired.map LakeFile.path).Nodup
  placed : s.retired.Perm (s.burying ++ (s.buried ++ s.unlinked))
  known : ∀ file, s.Named file → s.current.Has file ∨ file ∈ s.retired
  doomed : ∀ sweep, s.sweeping = some sweep → ∀ file, sweep.doomed = some file → ¬ s.Named file
  gone : ∀ file ∈ s.unlinked, ¬ s.Named file

/-- A step lets readers name no file but those that were named and those that an activation adds. -/
theorem Step.named {s s' : Shared} {a : Move} (hs : Step a s s') {file : LakeFile} (h : s'.Named file) :
    s.Named file ∨ s'.current.Has file ∧ s.current.generation < file.path.name.generation := by
  cases hs with
  | take =>
    rcases h with hc | ⟨t, ht, hf⟩ | hl
    · exact .inl (.inl hc)
    · rcases List.mem_cons.mp ht with rfl | ht
      · exact .inl (.inl hf)
      · exact .inl (.inr (.inl ⟨t, ht, hf⟩))
    · exact .inl (.inr (.inr hl))
  | cloneSnapshot t hin =>
    rcases h with hc | ⟨t', ht, hf⟩ | hl
    · exact .inl (.inl hc)
    · rcases List.mem_cons.mp ht with rfl | ht
      · exact .inl (.inr (.inl ⟨t', hin, hf⟩))
      · exact .inl (.inr (.inl ⟨t', ht, hf⟩))
    · exact .inl (.inr (.inr hl))
  | dropSnapshot before after t heq =>
    rcases h with hc | ⟨t', ht, hf⟩ | hl
    · exact .inl (.inl hc)
    · refine .inl (.inr (.inl ⟨t', ?_, hf⟩))
      rw [heq]
      exact List.mem_append.mpr ((List.mem_append.mp ht).imp_right (List.mem_cons_of_mem t))
    · exact .inl (.inr (.inr hl))
  | lease t hin p first toExclusive =>
    rcases h with hc | hh | ⟨l, hl, hf⟩
    · exact .inl (.inl hc)
    · exact .inl (.inr (.inl hh))
    · rcases List.mem_cons.mp hl with rfl | hl
      · exact .inl (.inr (.inl ⟨t, hin, Snapshot.lease_has hf⟩))
      · exact .inl (.inr (.inr ⟨l, hl, hf⟩))
  | cloneLease l hin =>
    rcases h with hc | hh | ⟨l', hl, hf⟩
    · exact .inl (.inl hc)
    · exact .inl (.inr (.inl hh))
    · rcases List.mem_cons.mp hl with rfl | hl
      · exact .inl (.inr (.inr ⟨l', hin, hf⟩))
      · exact .inl (.inr (.inr ⟨l', hl, hf⟩))
  | dropLease before after l heq =>
    rcases h with hc | hh | ⟨l', hl, hf⟩
    · exact .inl (.inl hc)
    · exact .inl (.inr (.inl hh))
    · refine .inl (.inr (.inr ⟨l', ?_, hf⟩))
      rw [heq]
      exact List.mem_append.mpr ((List.mem_append.mp hl).imp_right (List.mem_cons_of_mem l))
  | swap generation added ids hb hg hn =>
    rcases h with hc | hh | hl
    · rcases (Snapshot.activate_has generation added ids).mp hc with ⟨hc, -⟩ | hadded
      · exact .inl (.inl hc)
      · exact .inr ⟨hc, (hn file hadded).symm ▸ hg⟩
    · exact .inl (.inr (.inl hh))
    · exact .inl (.inr (.inr hl))
  | bury | beginSweep | keep | doom | unlink | fail | finish => exact .inl h

/-- A retired file that nobody holds stays that way. -/
theorem Inv.unnamed {s s' : Shared} {a : Move} (h : s.Inv) {file : LakeFile} (hr : file ∈ s.retired) (hn : ¬ s.Named file)
    (hs : Step a s s') : ¬ s'.Named file := fun hnamed => by
  rcases hs.named hnamed with hold | ⟨-, hnew⟩
  · exact hn hold
  · exact Nat.not_lt.mpr (h.named file (.inr hr)) hnew

theorem Inv.mem_retired {s : Shared} (h : s.Inv) {file : LakeFile} :
    file ∈ s.retired ↔ file ∈ s.burying ∨ file ∈ s.buried ∨ file ∈ s.unlinked := by
  rw [h.placed.mem_iff, List.mem_append, List.mem_append]

/-- A step that neither swaps the snapshot nor loses a retired file keeps the invariant, if what it dooms
and unlinks is held by nobody. -/
private theorem inv_same {s s' : Shared} {a : Move} (h : s.Inv) (hs : Step a s s') (hc : s'.current = s.current)
    (hr : s'.retired = s.retired)
    (hplaced : (s'.burying ++ (s'.buried ++ s'.unlinked)).Perm (s.burying ++ (s.buried ++ s.unlinked)))
    (hdoomed : ∀ sweep, s'.sweeping = some sweep → ∀ file, sweep.doomed = some file → file ∈ s.retired ∧ ¬ s.Named file)
    (hgone : ∀ file ∈ s'.unlinked, file ∈ s.retired ∧ ¬ s.Named file) : s'.Inv := by
  refine ⟨hc ▸ h.distinct, hc ▸ h.paths, hc ▸ hr ▸ h.named, hc ▸ hr ▸ h.apart, hr ▸ h.once, ?_, fun file hn => ?_,
    fun sweep hsweep file hf => ?_, fun file hf => ?_⟩
  · rw [hr]
    exact h.placed.trans hplaced.symm
  · rw [hc, hr]
    rcases hs.named hn with hold | ⟨hnew, -⟩
    · exact h.known file hold
    · exact .inl (hc ▸ hnew)
  · exact h.unnamed (hdoomed sweep hsweep file hf).1 (hdoomed sweep hsweep file hf).2 hs
  · exact h.unnamed (hgone file hf).1 (hgone file hf).2 hs

/-- An activation leaves nothing to chance: its files are new. -/
private theorem inv_swap {s : Shared} (h : s.Inv) {generation : Nat} {added : List LakeFile} {ids : List Nat}
    (hb : s.burying = []) (hg : s.current.generation < generation)
    (hn : ∀ file ∈ added, file.path.name.generation = generation) (hp : (added.map LakeFile.path).Nodup) :
    Inv { s with
      current := (s.current.activate generation added ids).1, burying := (s.current.activate generation added ids).2,
      retired := s.retired ++ (s.current.activate generation added ids).2 } := by
  have hs : Step .swap s _ := .swap generation added ids hb hg hn hp
  have hold : ∀ file, s.current.Has file ∨ file ∈ s.retired → file.path.name.generation < generation := fun file hf =>
    (h.named file hf).trans_lt hg
  have hburied : ∀ file, file ∈ (s.current.activate generation added ids).2 ↔ s.current.Has file ∧ file.id ∈ ids :=
    fun file => h.distinct.mem_activate_buried generation added ids
  have hhas : ∀ file, (s.current.activate generation added ids).1.Has file ↔ s.current.Has file ∧ file.id ∉ ids ∨ file ∈ added :=
    fun file => Snapshot.activate_has generation added ids
  have hne : ∀ file file', s.current.Has file ∨ file ∈ s.retired → file' ∈ added → file.path ≠ file'.path := fun file file' hf hf' heq =>
    absurd (hold file hf) (by rw [heq, hn file' hf']; exact lt_irrefl _)
  refine ⟨⟨fun p d file hf => ?_, fun p d => ?_⟩, fun file file' hf hf' heq => ?_, fun file hf => ?_, fun file hf old hr => ?_, ?_, ?_,
    fun file hf => ?_, fun sweep hsweep file hf => ?_, fun file hf => ?_⟩
  · change file ∈ (s.current.activate generation added ids).1.files p d at hf
    rw [Snapshot.activate_files, List.mem_append, List.mem_filter, List.mem_filter] at hf
    rcases hf with ⟨hf, -⟩ | ⟨-, hf⟩
    · exact h.distinct.placed p d file hf
    · exact of_decide_eq_true hf
  · change ((s.current.activate generation added ids).1.files p d).Nodup
    rw [Snapshot.activate_files, List.nodup_append]
    refine ⟨(h.distinct.nodup p d).filter _, (List.Nodup.of_map _ hp).filter _, fun file hf file' hf' heq => ?_⟩
    exact hne file file' (.inl ⟨p, d, List.mem_of_mem_filter hf⟩) (List.mem_of_mem_filter hf') (congrArg _ heq)
  · rcases (hhas file).mp hf with ⟨hf, -⟩ | hf <;> rcases (hhas file').mp hf' with ⟨hf', -⟩ | hf'
    · exact h.paths file file' hf hf' heq
    · exact absurd heq (hne file file' (.inl hf) hf')
    · exact absurd heq.symm (hne file' file (.inl hf') hf)
    · exact List.inj_on_of_nodup_map hp hf hf' heq
  · change file.path.name.generation ≤ generation
    rcases hf with hf | hf
    · rcases (hhas file).mp hf with ⟨hf, -⟩ | hf
      · exact (hold file (.inl hf)).le
      · exact (hn file hf).le
    · rcases List.mem_append.mp hf with hf | hf
      · exact (hold file (.inr hf)).le
      · exact (hold file (.inl ((hburied file).mp hf).1)).le
  · rcases (hhas file).mp hf with ⟨hf, hnot⟩ | hf <;> rcases List.mem_append.mp hr with hr | hr
    · exact h.apart file hf old hr
    · obtain ⟨hold', hid⟩ := (hburied old).mp hr
      exact fun heq => hnot (h.paths old file hold' hf heq ▸ hid)
    · exact hne old file (.inr hr) hf
    · exact hne old file (.inl ((hburied old).mp hr).1) hf
  · rw [List.map_append, List.nodup_append]
    refine ⟨h.once, List.Nodup.map_on (fun file hf file' hf' => ?_) (h.distinct.nodup_activate_buried generation added ids),
      fun path hpath path' hpath' heq => ?_⟩
    · exact h.paths file file' ((hburied file).mp hf).1 ((hburied file').mp hf').1
    · obtain ⟨old, hr, rfl⟩ := List.mem_map.mp hpath
      obtain ⟨file, hf, rfl⟩ := List.mem_map.mp hpath'
      exact h.apart file ((hburied file).mp hf).1 old hr heq
  · have hplaced := h.placed
    rw [hb, List.nil_append] at hplaced
    exact (List.perm_append_comm.trans (hplaced.append_left _))
  · rcases hs.named hf with hnamed | ⟨hnew, -⟩
    · rcases h.known file hnamed with hcurrent | hr
      · by_cases hid : file.id ∈ ids
        · exact .inr (List.mem_append_right _ ((hburied file).mpr ⟨hcurrent, hid⟩))
        · exact .inl ((hhas file).mpr (.inl ⟨hcurrent, hid⟩))
      · exact .inr (List.mem_append_left _ hr)
    · exact .inl hnew
  · refine h.unnamed (h.mem_retired.mpr (.inr (.inl ?_))) (h.doomed sweep hsweep file hf) hs
    simp [buried, show s.sweeping = some sweep from hsweep, hf]
  · exact h.unnamed (h.mem_retired.mpr (.inr (.inr hf))) (h.gone file hf) hs

theorem inv_step {s s' : Shared} {a : Move} (h : s.Inv) (hs : Step a s s') : s'.Inv := by
  have hdoomed : ∀ sweep, s.sweeping = some sweep → ∀ file, sweep.doomed = some file → file ∈ s.retired ∧ ¬ s.Named file := by
    intro sweep hsweep file hf
    refine ⟨h.mem_retired.mpr (.inr (.inl ?_)), h.doomed sweep hsweep file hf⟩
    simp [buried, hsweep, hf]
  have hgone : ∀ file ∈ s.unlinked, file ∈ s.retired ∧ ¬ s.Named file := fun file hf =>
    ⟨h.mem_retired.mpr (.inr (.inr hf)), h.gone file hf⟩
  cases hs with
  | swap generation added ids hb hg hn hp => exact inv_swap h hb hg hn hp
  | take => exact inv_same h .take rfl rfl (.refl _) hdoomed hgone
  | cloneSnapshot t hin => exact inv_same h (.cloneSnapshot t hin) rfl rfl (.refl _) hdoomed hgone
  | dropSnapshot before after t heq => exact inv_same h (.dropSnapshot before after t heq) rfl rfl (.refl _) hdoomed hgone
  | lease t hin p first toExclusive => exact inv_same h (.lease t hin p first toExclusive) rfl rfl (.refl _) hdoomed hgone
  | cloneLease l hin => exact inv_same h (.cloneLease l hin) rfl rfl (.refl _) hdoomed hgone
  | dropLease before after l heq => exact inv_same h (.dropLease before after l heq) rfl rfl (.refl _) hdoomed hgone
  | bury hnone =>
    refine inv_same h (.bury hnone) rfl rfl ?_ hdoomed hgone
    refine List.perm_iff_count.mpr fun file => ?_
    simp only [buried, hnone, List.count_append, List.count_nil]
    omega
  | beginSweep hnone =>
    refine inv_same h (.beginSweep hnone) rfl rfl ?_ (fun sweep hsweep file hf => ?_) hgone
    · refine List.perm_iff_count.mpr fun file => ?_
      simp only [buried, hnone, List.count_append, List.count_nil, Option.toList_none]
      omega
    · cases hsweep
      cases hf
  | keep file rest kept hsweep hc =>
    refine inv_same h (.keep file rest kept hsweep hc) rfl rfl ?_ (fun sweep hsweep' file hf => ?_) hgone
    · refine List.perm_iff_count.mpr fun f => ?_
      simp only [buried, hsweep, List.count_append, List.count_cons, List.count_nil, Option.toList_none]
      omega
    · cases hsweep'
      cases hf
  | doom file rest kept hsweep hc =>
    refine inv_same h (.doom file rest kept hsweep hc) rfl rfl ?_ (fun sweep hsweep' file' hf => ?_) hgone
    · refine List.perm_iff_count.mpr fun f => ?_
      simp only [buried, hsweep, List.count_append, List.count_cons, List.count_nil, Option.toList_none, Option.toList_some]
      omega
    · cases hsweep'
      cases hf
      refine ⟨h.mem_retired.mpr (.inr (.inl ?_)), fun hn => hc (.inl hn)⟩
      simp [buried, hsweep]
  | unlink file rest kept hsweep =>
    refine inv_same h (.unlink file rest kept hsweep) rfl rfl ?_ (fun sweep hsweep' file' hf => ?_) fun file' hf => ?_
    · refine List.perm_iff_count.mpr fun f => ?_
      simp only [buried, hsweep, List.count_append, List.count_cons, List.count_nil, Option.toList_none, Option.toList_some]
      omega
    · cases hsweep'
      cases hf
    · rcases List.mem_append.mp hf with hf | hf
      · exact hgone file' hf
      · rw [List.mem_singleton.mp hf]
        exact hdoomed _ hsweep file rfl
  | fail file rest kept hsweep =>
    refine inv_same h (.fail file rest kept hsweep) rfl rfl ?_ (fun sweep hsweep' file' hf => ?_) hgone
    · refine List.perm_iff_count.mpr fun f => ?_
      simp only [buried, hsweep, List.count_append, List.count_cons, List.count_nil, Option.toList_none, Option.toList_some]
      omega
    · cases hsweep'
      cases hf
  | finish kept hsweep =>
    refine inv_same h (.finish kept hsweep) rfl rfl ?_ (fun sweep hsweep' => by cases hsweep') hgone
    refine List.perm_iff_count.mpr fun f => ?_
    simp only [buried, hsweep, List.count_append, List.count_nil, Option.toList_none]
    omega

theorem inv_opened {ν U : Type} {w : World ν U} (hw : w.Opened) : (opened w.snapshot).Inv := by
  have hlive : ∀ file, w.snapshot.Has file → file ∈ w.db.liveFiles := fun file => hw.running.has_iff.mp
  refine ⟨hw.running.distinct, fun file file' hf hf' heq => ?_, fun file hf => ?_, fun _ _ _ h => (by cases h), .nil, .refl _,
    fun file hn => ?_, fun _ h => (by cases h), fun _ h => (by cases h)⟩
  · obtain ⟨row, hrow, -, hfile⟩ := hw.running.db.mem_liveFiles.mp (hlive file hf)
    obtain ⟨row', hrow', -, hfile'⟩ := hw.running.db.mem_liveFiles.mp (hlive file' hf')
    refine World.Running.eq_of_id hw.running.db (hlive file hf) (hlive file' hf') ?_
    exact hw.running.db.unique _ _ _ _ hrow hrow' (by rw [← hfile, ← hfile'] at heq; exact heq)
  · rcases hf with hf | hf
    · exact ((hw.running.toSound.live_path (hlive file hf)).2).trans hw.running.generation.ge
    · cases hf
  · rcases hn with hc | ⟨t, ht, -⟩ | ⟨l, hl, -⟩
    · exact .inl hc
    · cases ht
    · cases hl

theorem inv_reached {ν U : Type} {w : World ν U} (hw : w.Opened) {ok : Move → Shared → Prop} {s : Shared}
    (h : System.Reached (opened w.snapshot) Step ok s) : s.Inv :=
  h.invariant (inv_opened hw) fun _ _ _ hs _ hstep => inv_step hs hstep

/-- A sweep does not pass over a file that nobody holds. -/
private theorem sweep_step {s s' : Shared} {a : Move} {file : LakeFile} (h : s.Inv) (hr : file ∈ s.retired) (hn : ¬ s.Named file)
    (hb : file ∉ s.burying) (ha : a ≠ .finish ∧ a ≠ .fail file)
    (hp : file ∈ s.unlinked ∨ ∃ sweep, s.sweeping = some sweep ∧ (file ∈ sweep.rest ∨ sweep.doomed = some file)) (hs : Step a s s') :
    file ∈ s'.retired ∧ file ∉ s'.burying ∧
      (file ∈ s'.unlinked ∨ ∃ sweep, s'.sweeping = some sweep ∧ (file ∈ sweep.rest ∨ sweep.doomed = some file)) := by
  cases hs with
  | take | cloneSnapshot | dropSnapshot | lease | cloneLease | dropLease => exact ⟨hr, hb, hp⟩
  | swap generation added ids =>
    refine ⟨List.mem_append_left _ hr, fun hmem => ?_, hp⟩
    exact hn (.inl ((h.distinct.mem_activate_buried generation added ids).mp hmem).1)
  | bury hnone => exact ⟨hr, by simp, hp⟩
  | beginSweep hnone =>
    refine ⟨hr, hb, hp.imp_right ?_⟩
    rintro ⟨sweep, hsweep, -⟩
    rw [hnone] at hsweep
    cases hsweep
  | keep file' rest kept hsweep hc =>
    refine ⟨hr, hb, hp.imp_right ?_⟩
    rintro ⟨sweep, heq, hin⟩
    rw [hsweep] at heq
    cases heq
    rcases hin with hin | hin
    · rcases List.mem_cons.mp hin with rfl | hin
      · exact absurd hc (not_or.mpr ⟨hn, hb⟩)
      · exact ⟨_, rfl, .inl hin⟩
    · cases hin
  | doom file' rest kept hsweep hc =>
    refine ⟨hr, hb, hp.imp_right ?_⟩
    rintro ⟨sweep, heq, hin⟩
    rw [hsweep] at heq
    cases heq
    rcases hin with hin | hin
    · rcases List.mem_cons.mp hin with rfl | hin
      · exact ⟨_, rfl, .inr rfl⟩
      · exact ⟨_, rfl, .inl hin⟩
    · cases hin
  | unlink file' rest kept hsweep =>
    refine ⟨hr, hb, ?_⟩
    rcases hp with hp | ⟨sweep, heq, hin⟩
    · exact .inl (List.mem_append_left _ hp)
    · rw [hsweep] at heq
      cases heq
      rcases hin with hin | hin
      · exact .inr ⟨_, rfl, .inl hin⟩
      · cases hin
        exact .inl (List.mem_append_right _ (List.mem_singleton_self _))
  | fail file' rest kept hsweep =>
    refine ⟨hr, hb, hp.imp_right ?_⟩
    rintro ⟨sweep, heq, hin⟩
    rw [hsweep] at heq
    cases heq
    rcases hin with hin | hin
    · exact ⟨_, rfl, .inl hin⟩
    · cases hin
      exact absurd rfl ha.2
  | finish => exact absurd rfl ha.1

/-- The sweep that runs when the last holder of a retired file is gone unlinks it, unless its removal fails. -/
theorem Inv.swept {s s₁ s₂ s₃ : Shared} (h : s.Inv) {file : LakeFile} (hr : file ∈ s.retired) (hb : file ∉ s.burying)
    (hn : ¬ s.Named file) (hbegin : Step .beginSweep s s₁)
    (hsweep : System.Reached s₁ Step (fun a _ => a ≠ .finish ∧ a ≠ .fail file) s₂) (hfinish : Step .finish s₂ s₃) :
    file ∈ s₃.unlinked := by
  have hinv : s₂.Inv ∧ ¬ s₂.Named file ∧ file ∈ s₂.retired ∧ file ∉ s₂.burying ∧
      (file ∈ s₂.unlinked ∨ ∃ sweep, s₂.sweeping = some sweep ∧ (file ∈ sweep.rest ∨ sweep.doomed = some file)) := by
    refine hsweep.invariant (P := fun s => s.Inv ∧ ¬ s.Named file ∧ file ∈ s.retired ∧ file ∉ s.burying ∧
      (file ∈ s.unlinked ∨ ∃ sweep, s.sweeping = some sweep ∧ (file ∈ sweep.rest ∨ sweep.doomed = some file))) ?_ ?_
    · refine ⟨inv_step h hbegin, h.unnamed hr hn hbegin, ?_⟩
      cases hbegin with
      | beginSweep hnone =>
        refine ⟨hr, hb, ?_⟩
        rcases h.mem_retired.mp hr with hin | hin | hin
        · exact absurd hin hb
        · refine .inr ⟨_, rfl, .inl ?_⟩
          simpa [buried, hnone] using hin
        · exact .inl hin
    · rintro a s s' ⟨hs, hn, hr, hb, hp⟩ ha hstep
      exact ⟨inv_step hs hstep, hs.unnamed hr hn hstep, sweep_step hs hr hn hb ha hp hstep⟩
  obtain ⟨-, -, -, -, hp⟩ := hinv
  cases hfinish with
  | finish kept hdone =>
    rcases hp with hp | ⟨sweep, heq, hin⟩
    · exact hp
    · rw [hdone] at heq
      cases heq
      rcases hin with hin | hin <;> cases hin

end Shared

section activation
variable {ν U : Type} [DecidableEq U] {K : Crates ν U} {duck : Duck ν U} {w : World ν U}

/-- The activations of the lake are such swaps: the files of a commit are new, and what it takes out of the
snapshot is what the graveyard gets. -/
theorem World.Commits.swap {c : Commit ν U} {tx : Database} {added : List LakeFile} {retired : List Nat} (hw : w.Running)
    (h : w.Commits K duck c tx added retired) {s : Shared} (hs : s.current = w.snapshot) (hb : s.burying = []) :
    ∃ buried, (w.install tx added retired).graveyard = w.graveyard ++ buried ∧
      Shared.Step .swap s { s with
        current := (w.install tx added retired).snapshot, burying := buried, retired := s.retired ++ buried } := by
  refine ⟨(w.snapshot.activate tx.state.generation added retired).2, rfl, ?_⟩
  have hpaths : (added.map LakeFile.path).Nodup := by
    have hnodup := World.Running.nodup_liveFiles (w := { w with db := tx }) h.sound
    have hlive : ∀ file ∈ added, file ∈ tx.liveFiles := fun file hf => by
      rw [h.live]
      exact List.mem_append_right _ hf
    change (tx.liveFiles.map LakeFile.id).Nodup at hnodup
    rw [h.live, List.map_append, List.nodup_append] at hnodup
    refine List.Nodup.map_on (fun file hf file' hf' heq => ?_) (List.Nodup.of_map _ hnodup.2.1)
    obtain ⟨row, hrow, -, hfile⟩ := h.sound.mem_liveFiles.mp (hlive file hf)
    obtain ⟨row', hrow', -, hfile'⟩ := h.sound.mem_liveFiles.mp (hlive file' hf')
    refine List.inj_on_of_nodup_map hnodup.2.1 hf hf' ?_
    exact h.sound.unique _ _ _ _ hrow hrow' (by rw [← hfile, ← hfile'] at heq; exact heq)
  have hstep := Shared.Step.swap (s := s) tx.state.generation added retired hb ?_ h.named hpaths
  · rw [hs] at hstep
    exact hstep
  · rw [hs, hw.generation, h.generation]
    exact Nat.lt_succ_self _

end activation

section safety
variable {ν U : Type}

/-- From an opened lake, in every interleaving: no file that a snapshot or a lease names has been unlinked,
none is unlinked twice, and a retired file that nobody holds any more goes with the next sweep that does
not fail to remove it. -/
theorem leases_are_safe {w : World ν U} (hw : w.Opened) {s : Shared}
    (h : System.Reached (.opened w.snapshot) Shared.Step System.anyStep s) :
    (∀ file ∈ s.unlinked, ∀ file', s.Named file' → file'.path ≠ file.path) ∧ (s.unlinked.map LakeFile.path).Nodup ∧
    ∀ file ∈ s.retired, file ∉ s.burying → ¬ s.Named file → ∀ s₁ s₂ s₃, Shared.Step .beginSweep s s₁ →
      System.Reached s₁ Shared.Step (fun a _ => a ≠ .finish ∧ a ≠ .fail file) s₂ → Shared.Step .finish s₂ s₃ →
      file ∈ s₃.unlinked := by
  have hinv := Shared.inv_reached hw h
  have hretired : ∀ file ∈ s.unlinked, file ∈ s.retired := fun file hf => hinv.mem_retired.mpr (.inr (.inr hf))
  refine ⟨fun file hf file' hn heq => ?_, ?_, fun file hr hb hn s₁ s₂ s₃ hbegin hsweep hfinish => ?_⟩
  · rcases hinv.known file' hn with hcurrent | hr
    · exact hinv.apart file' hcurrent file (hretired file hf) heq.symm
    · obtain rfl := List.inj_on_of_nodup_map hinv.once hr (hretired file hf) heq
      exact hinv.gone file' hf hn
  · have hnodup := (hinv.placed.map LakeFile.path).nodup_iff.mp hinv.once
    simp only [List.map_append, List.nodup_append] at hnodup
    exact hnodup.2.1.2.1
  · exact hinv.swept hr hb hn hbegin hsweep hfinish

end safety

/-- A file that is retired and held by nobody, swept away. -/
theorem swept_file_is_unlinked : ∃ (w : World Int Small.Uuid) (s : Shared), w.Opened ∧
    System.Reached (.opened w.snapshot) Shared.Step System.anyStep s ∧ ∃ file ∈ s.retired, ¬ s.Named file ∧
    ∃ s₁ s₂ s₃, Shared.Step .beginSweep s s₁ ∧ System.Reached s₁ Shared.Step (fun a _ => a ≠ .finish ∧ a ≠ .fail file) s₂ ∧
      Shared.Step .finish s₂ s₃ ∧ file ∈ s₃.unlinked := by
  have h : (openLake .reliable).returns World.initial (fun w => (samplePublication.steps Crates.small .plain .reliable).returns w
      fun w => (openLake .reliable).returns w.forget fun w => (w.snapshot.activate 2 [] [1]).2.map LakeFile.id = [1]) = true := by
    decide +kernel
  obtain ⟨w₁, h₁, h⟩ := Steps.of_returns h
  obtain ⟨w₂, h₂, h⟩ := Steps.of_returns h
  obtain ⟨w₃, h₃, h⟩ := Steps.of_returns h
  have hup : System.Reached (.down World.initial) (Process.Step Crates.small .plain) System.anyStep (.up w₂) :=
    .step (.step .start trivial (.opened h₁)) trivial (.returned h₂)
  have hrun : w₂.Running := Process.kept hup
  have hopen : Process.Step Crates.small .plain (.openLake .reliable) (.down w₂.forget) (.up w₃) := .opened h₃
  have hw : w₃.Opened := hopen.opened_world ⟨hrun.toSound.forget, rfl⟩
  obtain ⟨file, hburied, hid⟩ := List.map_eq_singleton_iff.mp (of_decide_eq_true h)
  have hgeneration : w₃.snapshot.generation < w₃.snapshot.generation + 1 := Nat.lt_succ_self _
  -- which files an activation takes out does not depend on its generation
  have hburied' : (w₃.snapshot.activate (w₃.snapshot.generation + 1) [] [1]).2 = [file] := hburied
  set c := (w₃.snapshot.activate (w₃.snapshot.generation + 1) [] [1]).1 with hc
  have hswap := Shared.Step.swap (s := .opened w₃.snapshot) _ [] [1] rfl hgeneration (by simp) .nil
  rw [show (Shared.opened w₃.snapshot).current = w₃.snapshot from rfl, hburied'] at hswap
  have hbury : Shared.Step .bury ⟨c, [], [], [file], [], none, [file], []⟩ ⟨c, [], [], [], [file], none, [file], []⟩ := .bury rfl
  have hreached : System.Reached (.opened w₃.snapshot) Shared.Step System.anyStep ⟨c, [], [], [], [file], none, [file], []⟩ :=
    .step (.step .start trivial hswap) trivial hbury
  have hnamed : ∀ burying graveyard sweeping, ¬ Shared.Named ⟨c, [], [], burying, graveyard, sweeping, [file], []⟩ file := by
    rintro burying graveyard sweeping (hhas | ⟨t, ht, -⟩ | ⟨l, hl, -⟩)
    · rcases (Snapshot.activate_has _ _ _).mp hhas with ⟨-, hnot⟩ | hin
      · exact hnot (by rw [hid]; exact List.mem_singleton_self 1)
      · cases hin
    · cases ht
    · cases hl
  have hbegin : Shared.Step .beginSweep ⟨c, [], [], [], [file], none, [file], []⟩
      ⟨c, [], [], [], [], some ⟨[file], none, []⟩, [file], []⟩ := .beginSweep rfl
  have hdoom : Shared.Step .doom ⟨c, [], [], [], [], some ⟨[file], none, []⟩, [file], []⟩
      ⟨c, [], [], [], [], some ⟨[], some file, []⟩, [file], []⟩ :=
    .doom file [] [] rfl fun h => h.elim (hnamed _ _ _) (by simp)
  have hunlink : Shared.Step .unlink ⟨c, [], [], [], [], some ⟨[], some file, []⟩, [file], []⟩
      ⟨c, [], [], [], [], some ⟨[], none, []⟩, [file], [file]⟩ := .unlink file [] [] rfl
  have hfinish : Shared.Step .finish ⟨c, [], [], [], [], some ⟨[], none, []⟩, [file], [file]⟩
      ⟨c, [], [], [], [], none, [file], [file]⟩ := .finish [] rfl
  have hsweep : System.Reached ⟨c, [], [], [], [], some ⟨[file], none, []⟩, [file], []⟩ Shared.Step
      (fun a _ => a ≠ .finish ∧ a ≠ .fail file) ⟨c, [], [], [], [], some ⟨[], none, []⟩, [file], [file]⟩ :=
    .step (.step .start (by simp) hdoom) (by simp) hunlink
  refine ⟨w₃, _, hw, hreached, file, List.mem_singleton_self file, hnamed _ _ _, _, _, _, hbegin, hsweep, hfinish, ?_⟩
  exact (leases_are_safe hw hreached).2.2 file (List.mem_singleton_self file) (by simp) (hnamed _ _ _) _ _ _ hbegin hsweep hfinish

end Hoglet.Lake
