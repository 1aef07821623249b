import Hoglet.Lake.Compactor
import Hoglet.Lake.Publisher
import Mathlib.Data.List.Forall2
import Mathlib.Logic.Relation

/-! The ways the lake changes: work on files nobody knows of, a committed generation, an identity
transaction, and the removal of what is buried; and what each of them keeps. -/
namespace Hoglet.Lake
open Capture Projections

/-- A committed transaction. -/
inductive Commit (ν U : Type) where
  | published (records : List (CapturedBatch ν U)) (checkpoint : Wal.WalCursor)
  | merged
  | expired (cutoff : NaiveDate)
  | erased (projectId : String) (distinctIds : List String)
  | recorded (tables : Tables)

section changes
variable {ν U : Type}

namespace World

def content (w : World ν U) (file : LakeFile) : Content ν U := (w.disk.get file.path).getD []

/-- What no crash breaks: the catalogue is sound, its generation counts the commits, and the files of the
live rows are on the disk for good. -/
structure Sound (w : World ν U) : Prop where
  db : w.db.Sound
  counted : w.db.state.generation = w.commits
  there : ∀ file ∈ w.db.liveFiles, ∃ content, w.disk.get file.path = some content ∧ w.stored file.path = some content

/-- What holds while the process runs: the snapshot shows the catalogue's live files, and what is buried
is retired. -/
structure Running (w : World ν U) : Prop extends w.Sound where
  generation : w.snapshot.generation = w.db.state.generation
  files : ∀ p d, w.snapshot.files p d = w.db.liveFiles.filter fun file => file.projectId = p ∧ file.day = d
  trim : w.snapshot.Trim
  buried : ∀ file ∈ w.graveyard, ∃ row, w.db.files.get file.id = some row ∧ row.live = false ∧ row.path = file.path
  buriedOnce : (w.graveyard.map LakeFile.id).Nodup

/-- The state after a commit and its activation. -/
def install (w : World ν U) (tx : Database) (added : List LakeFile) (retired : List Nat) : World ν U :=
  let (snapshot, buried) := w.snapshot.activate tx.state.generation added retired
  { w with db := tx, commits := w.commits + 1, snapshot, replaced := w.snapshot :: w.replaced,
           graveyard := w.graveyard ++ buried }

end World

namespace World.Running

theorem mem_files {w : World ν U} (h : w.Running) {p : String} {d : NaiveDate} {file : LakeFile} :
    file ∈ w.snapshot.files p d ↔ file ∈ w.db.liveFiles ∧ file.projectId = p ∧ file.day = d := by
  rw [h.files, List.mem_filter, decide_eq_true_iff]

theorem nodup_liveFiles {w : World ν U} (h : w.db.Sound) : (w.db.liveFiles.map LakeFile.id).Nodup := by
  rw [h.liveFiles, List.map_map]
  exact (h.sorted.imp fun hlt => hlt.ne).sublist (List.filter_sublist.map _)

theorem eq_of_id {w : World ν U} (h : w.db.Sound) {file file' : LakeFile} (hf : file ∈ w.db.liveFiles) (hf' : file' ∈ w.db.liveFiles)
    (hid : file.id = file'.id) : file = file' := List.inj_on_of_nodup_map (nodup_liveFiles h) hf hf' hid

theorem nodup_files {w : World ν U} (h : w.Running) (p : String) (d : NaiveDate) : (w.snapshot.files p d).Nodup := by
  rw [h.files]
  exact (List.Nodup.of_map _ (nodup_liveFiles h.db)).filter _

theorem distinct {w : World ν U} (h : w.Running) : w.snapshot.Distinct :=
  ⟨fun _ _ _ hf => (h.mem_files.mp hf).2, h.nodup_files⟩

theorem has_iff {w : World ν U} (h : w.Running) {file : LakeFile} : w.snapshot.Has file ↔ file ∈ w.db.liveFiles := by
  refine ⟨fun ⟨p, d, hf⟩ => (h.mem_files.mp hf).1, fun hf => ⟨_, _, h.mem_files.mpr ⟨hf, rfl, rfl⟩⟩⟩

/-- What an activation buries was live, and is retired now; nothing is buried twice. -/
private theorem activate_buried {w : World ν U} (h : w.Running) (generation : Nat) (added : List LakeFile) (retired : List Nat) :
    (∀ file ∈ (w.snapshot.activate generation added retired).2, file ∈ w.db.liveFiles ∧ file.id ∈ retired) ∧
      (((w.snapshot.activate generation added retired).2).map LakeFile.id).Nodup := by
  have hmem : ∀ file ∈ (w.snapshot.activate generation added retired).2, file ∈ w.db.liveFiles ∧ file.id ∈ retired := by
    intro file hf
    obtain ⟨hhas, hr⟩ := (h.distinct.mem_activate_buried generation added retired).mp hf
    exact ⟨h.has_iff.mp hhas, hr⟩
  refine ⟨hmem, List.Nodup.map_on (fun file hf file' hf' hid => ?_) (h.distinct.nodup_activate_buried generation added retired)⟩
  exact eq_of_id h.db (hmem file hf).1 (hmem file' hf').1 hid

end World.Running

variable [DecidableEq U]

/-- What a commit puts into the files it adds and takes out with those it retires. -/
inductive Commit.Writes (K : Crates ν U) (duck : Duck ν U) (w : World ν U) (tx : Database) :
    Commit ν U → List LakeFile → List Nat → Prop
  | published {records : List (CapturedBatch ν U)} {kept : List (String × CapturedEvent ν U)} {added : List LakeFile}
      (hrun : publishRecords K records [] w.db.tables = .ok kept tx.tables)
      (hfiles : List.Forall₂ (fun file part => (file.projectId, file.day) = part.1 ∧ w.disk.get file.path = some part.2)
        added (partitionsOf kept)) : Writes K duck w tx (.published records tx.state.checkpoint) added []
  | merged {inputs : List LakeFile} {file : LakeFile} (hinputs : inputs ⊆ w.snapshot.files file.projectId file.day)
      (hrows : w.disk.get file.path = some (duck.distinct (inputs.flatMap w.content)))
      (htables : tx.tables = w.db.tables) (hcheckpoint : tx.state.checkpoint = w.db.state.checkpoint) :
      Writes K duck w tx .merged [file] (inputs.map LakeFile.id)
  | expired {cutoff : NaiveDate} {retired : List Nat}
      (hretired : ∀ file ∈ w.db.liveFiles, file.id ∈ retired ↔ file.day < cutoff)
      (htables : tx.tables = w.db.tables) (hcheckpoint : tx.state.checkpoint = w.db.state.checkpoint) :
      Writes K duck w tx (.expired cutoff) [] retired
  | erased {projectId : String} {day : NaiveDate} {distinctIds : List String} {added : Option LakeFile}
      (hrows : ∀ rows, rows = ((w.snapshot.files projectId day).flatMap w.content).filter (·.distinctId ∉ distinctIds) →
        match added with
        | some file => file.projectId = projectId ∧ file.day = day ∧ w.disk.get file.path = some (duck.distinct rows)
        | none => rows = [])
      (htables : tx.tables = w.db.tables) (hcheckpoint : tx.state.checkpoint = w.db.state.checkpoint) :
      Writes K duck w tx (.erased projectId distinctIds) added.toList ((w.snapshot.files projectId day).map LakeFile.id)

/-- A transaction that is ready to commit. -/
structure World.Commits (K : Crates ν U) (duck : Duck ν U) (w : World ν U) (c : Commit ν U) (tx : Database)
    (added : List LakeFile) (retired : List Nat) : Prop where
  generation : tx.state.generation = w.db.state.generation + 1
  sound : tx.Sound
  live : tx.liveFiles = w.db.liveFiles.filter (·.id ∉ retired) ++ added
  rows : ∀ id row, w.db.files.get id = some row → ∃ row', tx.files.get id = some row' ∧ row'.path = row.path ∧
    (row.live = false ∨ id ∈ retired → row'.live = false)
  there : ∀ file ∈ added, ∃ content, w.disk.get file.path = some content ∧ w.stored file.path = some content
  named : ∀ file ∈ added, file.path.name.generation = tx.state.generation
  writes : c.Writes K duck w tx added retired

inductive Change (K : Crates ν U) (duck : Duck ν U) : World ν U → Option (Commit ν U) → World ν U → Prop
  | quiet {w : World ν U} {disk : Table Path (Content ν U)} {stored : Path → Option (Content ν U)} {ops : Nat}
      (h : ∀ file ∈ w.db.liveFiles, disk.get file.path = w.disk.get file.path ∧ stored file.path = w.stored file.path) :
      Change K duck w none { w with disk, stored, ops }
  | committed {w : World ν U} {c : Commit ν U} {tx : Database} {added : List LakeFile} {retired : List Nat}
      (h : w.Commits K duck c tx added retired) : Change K duck w (some c) (w.install tx added retired)
  | recorded {w : World ν U} (tables : Tables) :
      Change K duck w (some (.recorded tables)) { w with db := { w.db with tables } }
  | unburied {w : World ν U} {graveyard : List LakeFile} (h : graveyard.Sublist w.graveyard) :
      Change K duck w none { w with graveyard }
  | purged {w : World ν U} {gone : Nat → FileRow → Bool}
      (h : ∀ id row, w.db.files.get id = some row → gone id row → row.live = false)
      (hburied : ∀ file ∈ w.graveyard, ∀ row, gone file.id row = false) :
      Change K duck w none { w with db := { w.db with files := w.db.files.delete gone } }

/-- A run of changes whose commits are among those allowed. -/
def Changes (K : Crates ν U) (duck : Duck ν U) (ok : Commit ν U → Prop) : World ν U → World ν U → Prop :=
  Relation.ReflTransGen fun w w' => ∃ c, (∀ c', c = some c' → ok c') ∧ Change K duck w c w'

variable {K : Crates ν U} {duck : Duck ν U} {w w' : World ν U}

theorem Database.Sound.purge {db : Database} (h : db.Sound) {gone : Nat → FileRow → Bool}
    (hgone : ∀ id row, db.files.get id = some row → gone id row → row.live = false) :
    ({ db with files := db.files.delete gone } : Database).Sound ∧
      ({ db with files := db.files.delete gone } : Database).liveFiles = db.liveFiles := by
  have hrow : ∀ id row, (db.files.delete gone).get id = some row → db.files.get id = some row :=
    fun _ _ hr => (Table.get_delete_eq_some.mp hr).1
  have hs : ({ db with files := db.files.delete gone } : Database).Sound :=
    ⟨h.sorted.sublist (List.filter_sublist.map _), fun id row hr => h.named id row (hrow id row hr),
      fun i j r r' hi hj => h.unique i j r r' (hrow i r hi) (hrow j r' hj)⟩
  refine ⟨hs, ?_⟩
  rw [hs.liveFiles, h.liveFiles]
  congr 1
  change (db.files.rows.filter _).filter _ = _
  rw [List.filter_filter]
  refine List.filter_congr fun m hm => ?_
  cases hl : m.2.live with
  | false => rfl
  | true =>
    cases hg : gone m.1 m.2 with
    | false => rfl
    | true =>
      rw [hgone m.1 m.2 (Table.get_eq_some.mpr hm) hg] at hl
      cases hl

theorem Change.sound {c : Option (Commit ν U)} (hs : w.Sound) (h : Change K duck w c w') : w'.Sound := by
  cases h with
  | quiet h =>
    refine ⟨hs.db, hs.counted, fun file hf => ?_⟩
    obtain ⟨content, hd, hst⟩ := hs.there file hf
    exact ⟨content, (h file hf).1.trans hd, (h file hf).2.trans hst⟩
  | @committed c tx added retired h =>
    refine ⟨h.sound, h.generation.trans (congrArg (· + 1) hs.counted), fun file hf => ?_⟩
    change file ∈ tx.liveFiles at hf
    rw [h.live, List.mem_append, List.mem_filter] at hf
    rcases hf with ⟨hf, -⟩ | hf
    · exact hs.there file hf
    · exact h.there file hf
  | recorded => exact ⟨⟨hs.db.sorted, hs.db.named, hs.db.unique⟩, hs.counted, hs.there⟩
  | unburied => exact ⟨hs.db, hs.counted, hs.there⟩
  | purged h =>
    obtain ⟨hdb, hlive⟩ := hs.db.purge h
    exact ⟨hdb, hs.counted, fun file hf => hs.there file (hlive ▸ hf)⟩

theorem Change.running {c : Option (Commit ν U)} (hw : w.Running) (h : Change K duck w c w') : w'.Running := by
  have hsound := h.sound hw.toSound
  cases h with
  | quiet h => exact ⟨hsound, hw.generation, hw.files, hw.trim, hw.buried, hw.buriedOnce⟩
  | recorded => exact ⟨hsound, hw.generation, hw.files, hw.trim, hw.buried, hw.buriedOnce⟩
  | unburied h =>
    exact ⟨hsound, hw.generation, hw.files, hw.trim, fun file hf => hw.buried file (h.subset hf),
      hw.buriedOnce.sublist (h.map _)⟩
  | @purged gone h hburied =>
    refine ⟨hsound, hw.generation, fun p d => ?_, hw.trim, fun file hf => ?_, hw.buriedOnce⟩
    · rw [hw.files]
      exact congrArg (List.filter _) (hw.db.purge h).2.symm
    · obtain ⟨row, hrow, hl, hp⟩ := hw.buried file hf
      exact ⟨row, Table.get_delete_eq_some.mpr ⟨hrow, hburied file hf row⟩, hl, hp⟩
  | @committed c tx added retired h =>
    obtain ⟨hmem, hnodup⟩ := hw.activate_buried tx.state.generation added retired
    refine ⟨hsound, rfl, fun p d => ?_, Snapshot.activate_trim _ _ _ _ hw.trim, fun file hf => ?_, ?_⟩
    · change (w.snapshot.activate tx.state.generation added retired).1.files p d = tx.liveFiles.filter _
      rw [Snapshot.activate_files, hw.files, h.live, List.filter_append, List.filter_comm]
    · rcases List.mem_append.mp hf with hf | hf
      · obtain ⟨row, hrow, hl, hp⟩ := hw.buried file hf
        obtain ⟨row', hrow', hp', hl'⟩ := h.rows _ _ hrow
        exact ⟨row', hrow', hl' (.inl hl), hp'.trans hp⟩
      · obtain ⟨hlive, hr⟩ := hmem file hf
        obtain ⟨row, hrow, -, hfile⟩ := hw.db.mem_liveFiles.mp hlive
        obtain ⟨row', hrow', hp', hl'⟩ := h.rows _ _ hrow
        exact ⟨row', hrow', hl' (.inr hr), hp'.trans (congrArg LakeFile.path hfile)⟩
    · change (List.map LakeFile.id (w.graveyard ++ (w.snapshot.activate tx.state.generation added retired).2)).Nodup
      rw [List.map_append, List.nodup_append]
      refine ⟨hw.buriedOnce, hnodup, fun id hid id' hid' heq => ?_⟩
      obtain ⟨file, hf, rfl⟩ := List.mem_map.mp hid
      obtain ⟨file', hf', rfl⟩ := List.mem_map.mp hid'
      obtain ⟨row, hrow, hl, -⟩ := hw.buried file hf
      obtain ⟨row', hrow', hl', -⟩ := hw.db.mem_liveFiles.mp (hmem file' hf').1
      rw [heq, hrow', Option.some.injEq] at hrow
      rw [hrow, hl] at hl'
      cases hl'

section runs
variable {ok : Commit ν U → Prop}

theorem Changes.running (hw : w.Running) (h : Changes K duck ok w w') : w'.Running := by
  induction h with
  | refl => exact hw
  | tail _ hc ih =>
    obtain ⟨c, -, hc⟩ := hc
    exact hc.running ih

theorem Changes.sound (hw : w.Sound) (h : Changes K duck ok w w') : w'.Sound := by
  induction h with
  | refl => exact hw
  | tail _ hc ih =>
    obtain ⟨c, -, hc⟩ := hc
    exact hc.sound ih

theorem Changes.single {c : Option (Commit ν U)} (hok : ∀ c', c = some c' → ok c') (h : Change K duck w c w') :
    Changes K duck ok w w' := Relation.ReflTransGen.single ⟨c, hok, h⟩

theorem Changes.quiet {disk : Table Path (Content ν U)} {stored : Path → Option (Content ν U)} {ops : Nat}
    (h : ∀ file ∈ w.db.liveFiles, disk.get file.path = w.disk.get file.path ∧ stored file.path = w.stored file.path) :
    Changes K duck ok w { w with disk, stored, ops } := .single (by simp) (.quiet h)

theorem Changes.generation_le (h : Changes K duck ok w w') : w.db.state.generation ≤ w'.db.state.generation := by
  induction h with
  | refl => exact le_refl _
  | tail _ hc ih =>
    obtain ⟨c, -, hc⟩ := hc
    refine ih.trans ?_
    cases hc with
    | committed h => exact (Nat.le_succ _).trans h.generation.ge
    | _ => exact le_refl _

/-- A file that is not newer than the start and is live at the end was live all the time, with the same rows. -/
theorem Changes.kept (hw : w.Running) (h : Changes K duck ok w w') {file : LakeFile} (hf : file ∈ w'.db.liveFiles)
    (hold : file.path.name.generation ≤ w.db.state.generation) :
    file ∈ w.db.liveFiles ∧ w'.content file = w.content file := by
  induction h with
  | refl => exact ⟨hf, rfl⟩
  | @tail v w' hv hc ih =>
    have hrun : v.Running := Changes.running hw hv
    obtain ⟨c, -, hc⟩ := hc
    cases hc with
    | quiet h =>
      obtain ⟨hlive, hcontent⟩ := ih hf
      refine ⟨hlive, ?_⟩
      rw [← hcontent, World.content, World.content]
      exact congrArg (Option.getD · []) (h file hf).1
    | recorded => exact ih hf
    | unburied => exact ih hf
    | purged h => exact ih ((hrun.db.purge h).2 ▸ hf)
    | @committed _ tx added retired h =>
      change file ∈ tx.liveFiles at hf
      rw [h.live, List.mem_append, List.mem_filter] at hf
      rcases hf with ⟨hf, -⟩ | hf
      · exact ih hf
      · have := h.named file hf
        rw [h.generation] at this
        have := Changes.generation_le hv
        omega

end runs

end changes
end Hoglet.Lake
