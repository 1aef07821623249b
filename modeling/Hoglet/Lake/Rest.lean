import Hoglet.Lake.Process
import Mathlib.Order.Antichain
import Mathlib.Order.OrderIsoNat

/-! Steps of the compactor by themselves: no event is lost, and the steps come to rest. -/
namespace Hoglet.Lake
open Capture

/-- One call of `Compactor::step` without retention, and the machine it runs on. -/
structure Compaction where
  machine : Machine
  today : NaiveDate
  now : Int

section steps
variable {ν U : Type} (duck : Duck ν U)

def Compaction.run (a : Compaction) : Steps ν U (Option Compacted) := compactStep a.machine duck none a.today a.now

/-- The call returned, or failed and the process went on. -/
def Compaction.Step (a : Compaction) (w w' : World ν U) : Prop :=
  (∃ r, a.run duck w = .ok r w') ∨ ∃ e, e ≠ .crashed ∧ a.run duck w = .error e w'

/-- The lake has an event of this uuid on that day of the project. -/
def World.Stores (w : World ν U) (projectId : String) (day : NaiveDate) (uuid : U) : Prop :=
  ∃ file ∈ w.snapshot.files projectId day, ∃ e ∈ w.content file, e.uuid = uuid

/-- The live files and their rows are the same. -/
structure World.Still (w w' : World ν U) : Prop where
  db : w'.db = w.db
  content : ∀ file ∈ w.db.liveFiles, w'.content file = w.content file

end steps

section rest
variable {ν U : Type} {duck : Duck ν U} {w w' : World ν U} {partition : Partition} {inputs : List LakeFile} {file : LakeFile}

private theorem mostInputs_none {l : List (Partition × List LakeFile)} (h : mostInputs l = none) : l = [] := by
  have hsome : ∀ (l : List (Partition × List LakeFile)) x, l.foldl moreInputs (some x) ≠ none := by
    intro l
    induction l with
    | nil => intro x h; cases h
    | cons y l ih =>
      intro x
      rw [List.foldl_cons, moreInputs]
      split
      · exact ih y
      · exact ih x
  cases l with
  | nil => rfl
  | cons x l => exact absurd h (hsome l x)

/-- Without work no partition has two files to merge. -/
theorem mergeWork_none {s : Snapshot} {today : NaiveDate} (h : mergeWork s today = none) :
    ∀ partition ∈ s.partitions, (mergeInputs partition today).length < 2 := by
  intro partition hp
  have hnone := List.filterMap_eq_nil_iff.mp (mostInputs_none h) partition hp
  simp only at hnone
  split at hnone
  · cases hnone
  · omega

theorem mergeWork_nodup {today : NaiveDate} (hw : w.Running) (h : mergeWork w.snapshot today = some (partition, inputs)) :
    inputs.Nodup := by
  obtain ⟨hp, rfl, -⟩ := mergeWork_some h
  have hnodup : partition.files.Nodup := by
    rw [Snapshot.mem_partitions hp]
    exact hw.nodup_files _ _
  rw [mergeInputs]
  split
  · exact List.nodup_nil
  · have hsorted := (List.mergeSort_perm (partition.files.filter (·.bytes < smallFileBytes)) fun a b => a.id ≤ b.id).nodup_iff.mpr
      (hnodup.filter _)
    exact hsorted.sublist ((List.take_sublist _ _).trans (takeWithin_sublist _ _ _))

theorem World.Merged.stores (h : w.Merged duck w' partition inputs file) (hw : w.Running) (hw' : w'.Running)
    (hin : inputs ⊆ w.snapshot.files partition.projectId partition.day) (p : String) (d : NaiveDate) (u : U) :
    w'.Stores p d u ↔ w.Stores p d u := by
  have hlive : ∀ f, f ∈ w'.snapshot.files p d ↔
      (f ∈ w.snapshot.files p d ∧ f ∉ inputs) ∨ f = file ∧ partition.projectId = p ∧ partition.day = d := by
    intro f
    have hkeep : f ∈ w.db.liveFiles → (f.id ∉ inputs.map LakeFile.id ↔ f ∉ inputs) := fun hf => by
      rw [List.mem_map, not_iff_not]
      refine ⟨fun ⟨f', hf', hid⟩ => ?_, fun hf' => ⟨f, hf', rfl⟩⟩
      rwa [← World.Running.eq_of_id hw.db (hw.mem_files.mp (hin hf')).1 hf hid]
    rw [hw'.mem_files, hw.mem_files, h.live, List.mem_append, List.mem_filter, List.mem_singleton, decide_eq_true_iff]
    constructor
    · rintro ⟨⟨hf, hnot⟩ | rfl, hp, hd⟩
      · exact .inl ⟨⟨hf, hp, hd⟩, (hkeep hf).mp hnot⟩
      · exact .inr ⟨rfl, h.placed.1.symm.trans hp, h.placed.2.symm.trans hd⟩
    · rintro (⟨⟨hf, hp, hd⟩, hnot⟩ | ⟨rfl, hp, hd⟩)
      · exact ⟨.inl ⟨hf, (hkeep hf).mpr hnot⟩, hp, hd⟩
      · exact ⟨.inr rfl, h.placed.1.trans hp, h.placed.2.trans hd⟩
  constructor
  · rintro ⟨f, hf, e, he, rfl⟩
    rcases (hlive f).mp hf with ⟨hf, -⟩ | ⟨rfl, rfl, rfl⟩
    · rw [h.others f (hw.mem_files.mp hf).1] at he
      exact ⟨f, hf, e, he, rfl⟩
    · rw [h.rows] at he
      obtain ⟨input, hinput, he⟩ := List.mem_flatMap.mp (duck.mem _ e he)
      exact ⟨input, hin hinput, e, he, rfl⟩
  · rintro ⟨f, hf, e, he, rfl⟩
    by_cases hinput : f ∈ inputs
    · obtain ⟨e', he', huuid⟩ := duck.covers (inputs.flatMap w.content) e (List.mem_flatMap.mpr ⟨f, hinput, he⟩)
      obtain ⟨-, hp, hd⟩ := hw.mem_files.mp hf
      obtain ⟨-, hp', hd'⟩ := hw.mem_files.mp (hin hinput)
      refine ⟨file, (hlive file).mpr (.inr ⟨rfl, hp'.symm.trans hp, hd'.symm.trans hd⟩), e', ?_, huuid⟩
      rw [h.rows]
      exact he'
    · refine ⟨f, (hlive f).mpr (.inl ⟨hf, hinput⟩), e, ?_, rfl⟩
      rw [h.others f (hw.mem_files.mp hf).1]
      exact he

/-- The new file takes the place of its inputs. -/
theorem World.Merged.length (h : w.Merged duck w' partition inputs file) (hw : w.Running) (hnodup : inputs.Nodup)
    (hin : inputs ⊆ w.snapshot.files partition.projectId partition.day) :
    w'.db.liveFiles.length + inputs.length = w.db.liveFiles.length + 1 := by
  have hlive : ∀ f ∈ inputs, f ∈ w.db.liveFiles := fun f hf => (hw.mem_files.mp (hin hf)).1
  have hperm : (w.db.liveFiles.filter (·.id ∈ inputs.map LakeFile.id)).Perm inputs := by
    refine (List.perm_ext_iff_of_nodup ((List.Nodup.of_map _ (World.Running.nodup_liveFiles hw.db)).filter _) hnodup).mpr fun f => ?_
    rw [List.mem_filter, decide_eq_true_iff, List.mem_map]
    refine ⟨fun ⟨hf, f', hf', hid⟩ => ?_, fun hf => ⟨hlive f hf, f, hf, rfl⟩⟩
    rwa [← World.Running.eq_of_id hw.db (hlive f' hf') hf hid]
  have hsplit := List.length_eq_length_filter_add (l := w.db.liveFiles) fun f => decide (f.id ∈ inputs.map LakeFile.id)
  rw [hperm.length_eq] at hsplit
  rw [h.live, List.length_append, List.length_singleton, hsplit]
  simp only [decide_not]
  omega

end rest

section runs
variable {ν U : Type} [DecidableEq U] {K : Crates ν U} {duck : Duck ν U} {w w' : World ν U}

/-- A call merges the inputs of its work, finds no work, or leaves the live files as they were. -/
theorem compaction_ends (K : Crates ν U) (duck : Duck ν U) (a : Compaction) (hw : w.Running) :
    Ends (a.run duck) w
      (fun r w' => w'.Running ∧ match r with
        | some _ => ∃ partition inputs file, mergeWork w.snapshot a.today = some (partition, inputs) ∧
            w.Merged duck w' partition inputs file
        | none => mergeWork w.snapshot a.today = none ∧ w' = w)
      fun _ w' => w'.Running ∧ w.Still w' := by
  refine Ends.bind (Ends.get ?_)
  cases hwork : mergeWork w.snapshot a.today with
  | none => exact Ends.pure ⟨hw, rfl, rfl⟩
  | some work =>
    obtain ⟨partition, inputs⟩ := work
    have hmerge : Ends (merge a.machine duck partition inputs a.now) w
        (fun _ w' => Changes K duck (fun _ => True) w w' ∧ ∃ file, w.Merged duck w' partition inputs file) _ :=
      merge_ends trivial (mergeWork_subset hwork) hw
    refine Ends.bind (hmerge.mono (fun c w' ⟨hc, file, hmerged⟩ => ?_) fun e w' ⟨S, ht, hs⟩ => ?_)
    · exact Ends.pure ⟨hc.running hw, partition, inputs, file, rfl, hmerged⟩
    · have hc : Changes K duck (fun _ => True) w w' := ht.changes hw.toSound hs
      refine ⟨hc.running hw, ht.db, fun file hf => ?_⟩
      rw [World.content, World.content, ht.disk _ (hs file hf)]

omit [DecidableEq U] in
theorem World.Still.stores (h : w.Still w') (hw : w.Running) (hw' : w'.Running) (p : String) (d : NaiveDate) (u : U) :
    w'.Stores p d u ↔ w.Stores p d u := by
  have hlive : ∀ f, f ∈ w'.snapshot.files p d ↔ f ∈ w.snapshot.files p d := fun f => by
    rw [hw'.mem_files, hw.mem_files, h.db]
  constructor
  · rintro ⟨f, hf, e, he, heq⟩
    rw [hlive] at hf
    rw [h.content f (hw.mem_files.mp hf).1] at he
    exact ⟨f, hf, e, he, heq⟩
  · rintro ⟨f, hf, e, he, heq⟩
    refine ⟨f, (hlive f).mpr hf, e, ?_, heq⟩
    rw [h.content f (hw.mem_files.mp hf).1]
    exact he

/-- A call keeps the stored events, and adds no live file. -/
theorem compaction_step (K : Crates ν U) {a : Compaction} (hw : w.Running) (h : a.Step duck w w') :
    w'.Running ∧ (∀ p d u, w'.Stores p d u ↔ w.Stores p d u) ∧ w'.db.liveFiles.length ≤ w.db.liveFiles.length := by
  have hends := compaction_ends K duck a hw
  rcases h with ⟨r, hr⟩ | ⟨e, -, he⟩
  · obtain ⟨hw', hr⟩ := hends.ok hr
    refine ⟨hw', ?_⟩
    cases r with
    | none =>
      obtain ⟨-, rfl⟩ := hr
      exact ⟨fun _ _ _ => Iff.rfl, le_refl _⟩
    | some c =>
      obtain ⟨partition, inputs, file, hwork, hmerged⟩ := hr
      have hlength := hmerged.length hw (mergeWork_nodup hw hwork) (mergeWork_subset hwork)
      have htwo := (mergeWork_some hwork).2.2
      exact ⟨hmerged.stores hw hw' (mergeWork_subset hwork), by omega⟩
  · obtain ⟨hw', hstill⟩ := hends.error he
    exact ⟨hw', hstill.stores hw hw', by rw [hstill.db]⟩

/-- What a call that returns work has done. -/
theorem compaction_works (K : Crates ν U) {a : Compaction} {c : Compacted} (hw : w.Running) (h : a.run duck w = .ok (some c) w') :
    w'.db.liveFiles.length < w.db.liveFiles.length ∧
      ∀ file ∈ w'.db.liveFiles, file ∉ w.db.liveFiles → ∀ e ∈ w'.content file, ∃ input ∈ w.db.liveFiles,
        input ∉ w'.db.liveFiles ∧ input.projectId = file.projectId ∧ input.day = file.day ∧ e ∈ w.content input := by
  obtain ⟨hw', partition, inputs, new, hwork, hmerged⟩ := (compaction_ends K duck a hw).ok h
  have hlength := hmerged.length hw (mergeWork_nodup hw hwork) (mergeWork_subset hwork)
  have htwo := (mergeWork_some hwork).2.2
  refine ⟨by omega, fun file hf hnew e he => ?_⟩
  rw [hmerged.live, List.mem_append, List.mem_filter, List.mem_singleton] at hf
  rcases hf with ⟨hf, -⟩ | rfl
  · exact absurd hf hnew
  rw [hmerged.rows] at he
  obtain ⟨input, hinput, he⟩ := List.mem_flatMap.mp (duck.mem _ e he)
  obtain ⟨hlive, hp, hd⟩ := hw.mem_files.mp (mergeWork_subset hwork hinput)
  refine ⟨input, hlive, fun hin => ?_, hp.trans hmerged.placed.1.symm, hd.trans hmerged.placed.2.symm, he⟩
  rw [hmerged.live, List.mem_append, List.mem_filter, List.mem_singleton, decide_eq_true_iff] at hin
  rcases hin with ⟨-, hnot⟩ | rfl
  · exact hnot (List.mem_map_of_mem hinput)
  · exact hnew hlive

/-- Numbers that never grow stay what they are from some point on. -/
private theorem settles (f : Nat → Nat) (h : ∀ i, f (i + 1) ≤ f i) : ∃ n, ∀ i, n ≤ i → f i = f n :=
  ⟨Function.argmin f, fun i hi => le_antisymm (antitone_nat_of_succ_le h hi) (Function.argmin_le f i)⟩

/-- From any state of the lake, steps of the compactor alone never change which events are stored on which
day of which project; the file that a step puts in the place of others holds rows of these only, and there
are fewer files after it; and in every sequence of steps there is a point from which none returns work,
and one that returns nothing has found no partition to merge. -/
theorem compaction_rests (h : System.Reached (.down World.initial) (Process.Step K duck) System.anyStep (.up w)) :
    (∀ w', System.Reached w (Compaction.Step duck) System.anyStep w' →
      (∀ p d u, w'.Stores p d u ↔ w.Stores p d u) ∧
      ∀ (a : Compaction) c w'', a.run duck w' = .ok (some c) w'' → w''.db.liveFiles.length < w'.db.liveFiles.length ∧
        ∀ file ∈ w''.db.liveFiles, file ∉ w'.db.liveFiles → ∀ e ∈ w''.content file, ∃ input ∈ w'.db.liveFiles,
          input ∉ w''.db.liveFiles ∧ input.projectId = file.projectId ∧ input.day = file.day ∧ e ∈ w'.content input) ∧
    ∀ (world : Nat → World ν U) (call : Nat → Compaction), world 0 = w →
      (∀ i, (call i).Step duck (world i) (world (i + 1))) →
      (∃ n, ∀ i, n ≤ i → ∀ c w', (call i).run duck (world i) ≠ .ok (some c) w') ∧
      ∀ i w', (call i).run duck (world i) = .ok none w' → w' = world i ∧
        ∀ partition ∈ (world i).snapshot.partitions, (mergeInputs partition (call i).today).length < 2 := by
  have hw : w.Running := Process.kept h
  refine ⟨fun w' hreached => ?_, fun world call hstart hstep => ?_⟩
  · have hinv : w'.Running ∧ ∀ p d u, w'.Stores p d u ↔ w.Stores p d u :=
      hreached.invariant (P := fun w' => w'.Running ∧ ∀ p d u, w'.Stores p d u ↔ w.Stores p d u) ⟨hw, fun _ _ _ => Iff.rfl⟩
        fun a v v' ⟨hv, hstores⟩ _ hs => by
          obtain ⟨hv', hsame, -⟩ := compaction_step K hv hs
          exact ⟨hv', fun p d u => (hsame p d u).trans (hstores p d u)⟩
    exact ⟨hinv.2, fun a c w'' hr => compaction_works K hinv.1 hr⟩
  · have hrunning : ∀ i, (world i).Running := by
      intro i
      induction i with
      | zero => exact hstart ▸ hw
      | succ i ih => exact (compaction_step K ih (hstep i)).1
    refine ⟨?_, fun i w' hr => ?_⟩
    · obtain ⟨n, hn⟩ := settles (fun i => (world i).db.liveFiles.length) fun i => (compaction_step K (hrunning i) (hstep i)).2.2
      refine ⟨n, fun i hi c w' hr => ?_⟩
      have hfewer := (compaction_works K (hrunning i) hr).1
      have hnext : world (i + 1) = w' := by
        rcases hstep i with ⟨r, hr'⟩ | ⟨e, -, he⟩
        · rw [hr] at hr'
          cases hr'
          rfl
        · rw [hr] at he
          cases he
      have hsame : (world (i + 1)).db.liveFiles.length = (world i).db.liveFiles.length := (hn (i + 1) (by omega)).trans (hn i hi).symm
      rw [hnext] at hsame
      omega
    · obtain ⟨-, hnone, rfl⟩ := (compaction_ends K duck (call i) (hrunning i)).ok hr
      exact ⟨rfl, mergeWork_none hnone⟩

end runs

/-- With one published event, whatever steps follow. -/
theorem published_event_stays : ∃ w : World Int Small.Uuid, w.db.liveFiles.map LakeFile.rows = [1] ∧
    ∀ w', System.Reached w (Compaction.Step .plain) System.anyStep w' → ∀ p d u, w'.Stores p d u ↔ w.Stores p d u := by
  obtain ⟨w, hreached, hrows⟩ := @sample_reached System.anyStep fun _ _ => trivial
  exact ⟨w, hrows, fun w' h => ((compaction_rests hreached).1 w' h).1⟩

end Hoglet.Lake
