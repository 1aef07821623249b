import Hoglet.Capture.Time
import Hoglet.Table

/-! The lake in memory: which files each project has on each day, and how a committed generation
replaces the view that readers take their leases from. -/
namespace Hoglet.Lake
open Capture

/-- A UTC day, counted from the epoch. -/
abbrev NaiveDate := Int

/-- The name of an event file tells what wrote it, and in which generation. -/
inductive FileName where
  | published (generation index : Nat)
  | compacted (generation : Nat)
  | erased (generation : Nat)
  deriving DecidableEq, Repr

def FileName.generation : FileName → Nat
  | .published generation _ | .compacted generation | .erased generation => generation

/-- A path under the lake's root; a temporary file has `.tmp` behind its name. -/
structure Path where
  project : String
  day : String
  name : FileName
  temporary : Bool
  deriving DecidableEq, Repr

def FileName.text : FileName → String
  | .published generation index => String.ofList ('g' :: padded 12 generation ++ '-' :: padded 4 index)
  | .compacted generation => String.ofList ('c' :: padded 12 generation)
  | .erased generation => String.ofList ('e' :: padded 12 generation)

def Path.text (path : Path) : String :=
  path.project ++ "/" ++ path.day ++ "/" ++ path.name.text ++ (if path.temporary then ".parquet.tmp" else ".parquet")

structure LakeFile where
  id : Nat
  projectId : String
  day : NaiveDate
  path : Path
  rows : Nat
  bytes : Nat
  level : Nat
  createdAt : Int
  deriving DecidableEq, Repr

structure ProjectFiles where
  version : Nat
  days : Table NaiveDate (List LakeFile)

def ProjectFiles.none : ProjectFiles := ⟨0, .empty⟩

/-- The days in order, as a `BTreeMap` walks them. -/
def ProjectFiles.byDay (project : ProjectFiles) : List (NaiveDate × List LakeFile) :=
  project.days.rows.mergeSort fun a b => a.1 ≤ b.1

structure Snapshot where
  generation : Nat
  projects : Table String ProjectFiles

structure Lease where
  files : List LakeFile
  version : Nat

namespace Snapshot

def project (s : Snapshot) (projectId : String) : ProjectFiles := (s.projects.get projectId).getD .none

/-- The files of one partition. -/
def files (s : Snapshot) (projectId : String) (day : NaiveDate) : List LakeFile :=
  ((s.project projectId).days.get day).getD []

def version (s : Snapshot) (projectId : String) : Nat := (s.project projectId).version

def lease (s : Snapshot) (projectId : String) (first toExclusive : NaiveDate) : Lease :=
  match s.projects.get projectId with
  | some project =>
    ⟨(project.byDay.filter fun m => first ≤ m.1 ∧ m.1 < toExclusive).flatMap Prod.snd, project.version⟩
  | .none => ⟨[], 0⟩

end Snapshot

namespace ProjectFiles

/-- The days without the retired files, and then the added files behind those of their day. -/
def rebuild (old : ProjectFiles) (generation : Nat) (added : List LakeFile) (retired : List Nat) : ProjectFiles :=
  let kept := (old.days.update fun _ files => files.filter (·.id ∉ retired)).delete fun _ files => files.isEmpty
  ⟨generation, added.foldl (fun days file => days.upsert file.day [file] (· ++ [file])) kept⟩

def buried (old : ProjectFiles) (retired : List Nat) : List LakeFile :=
  (old.days.rows.flatMap Prod.snd).filter (·.id ∈ retired)

end ProjectFiles

namespace Snapshot

/-- The projects that get a file or lose one. -/
def touched (s : Snapshot) (added : List LakeFile) (retired : List Nat) : List String :=
  (added.map LakeFile.projectId ++ (s.projects.select fun _ project =>
    project.days.rows.any fun m => m.2.any (·.id ∈ retired)).map Prod.fst).dedup

/-- The snapshot of a committed generation, and the files that go to the graveyard. -/
def activate (s : Snapshot) (generation : Nat) (added : List LakeFile) (retired : List Nat) : Snapshot × List LakeFile :=
  let touched := s.touched added retired
  let rebuilt (projectId : String) :=
    (s.project projectId).rebuild generation (added.filter (·.projectId = projectId)) retired
  let projects := touched.foldl (fun projects p => projects.upsert p (rebuilt p) fun _ => rebuilt p) s.projects
  (⟨generation, projects.delete fun _ project => project.days.rows.isEmpty⟩,
    touched.flatMap fun p => (s.project p).buried retired)

end Snapshot

namespace ProjectFiles

private theorem get_pushed (added : List LakeFile) (days : Table NaiveDate (List LakeFile)) (d : NaiveDate) :
    (added.foldl (fun days file => days.upsert file.day [file] (· ++ [file])) days).get d =
      if added.filter (·.day = d) = [] then days.get d
      else some ((days.get d).getD [] ++ added.filter (·.day = d)) := by
  induction added generalizing days with
  | nil => simp
  | cons file added ih =>
    rw [List.foldl_cons, ih, Table.get_upsert]
    by_cases hd : file.day = d
    · subst hd
      cases hg : days.get file.day <;> by_cases hnil : added.filter (·.day = file.day) = [] <;> simp [hnil]
    · simp [hd, Ne.symm hd]

variable (old : ProjectFiles) (generation : Nat) (added : List LakeFile) (retired : List Nat)

theorem rebuild_files (d : NaiveDate) : ((old.rebuild generation added retired).days.get d).getD [] =
    ((old.days.get d).getD []).filter (·.id ∉ retired) ++ added.filter (·.day = d) := by
  have hkept : (((old.days.update fun _ files => files.filter (·.id ∉ retired)).delete
      fun _ files => files.isEmpty).get d).getD [] = ((old.days.get d).getD []).filter (·.id ∉ retired) := by
    rw [Table.get_delete, Table.get_update]
    cases old.days.get d with
    | none => simp
    | some files =>
      simp only [Option.map_some, Option.getD_some]
      cases files.filter (·.id ∉ retired) <;> rfl
  rw [← hkept, rebuild, get_pushed]
  by_cases hnil : added.filter (·.day = d) = [] <;> simp [hnil]

theorem rebuild_nonempty {d : NaiveDate} {files : List LakeFile}
    (h : (old.rebuild generation added retired).days.get d = some files) : files ≠ [] := by
  rw [rebuild, get_pushed] at h
  by_cases hnil : added.filter (·.day = d) = []
  · rw [if_pos hnil, Table.get_delete, Option.filter_eq_some_iff] at h
    simpa using h.2
  · rw [if_neg hnil, Option.some.injEq] at h
    rw [← h]
    exact List.append_ne_nil_of_right_ne_nil _ hnil

end ProjectFiles

namespace Snapshot

/-- No day is without files, and no project without days. -/
structure Trim (s : Snapshot) : Prop where
  days : ∀ p project, s.projects.get p = some project → project.days.rows.isEmpty = false
  files : ∀ p project d files, s.projects.get p = some project → project.days.get d = some files → files ≠ []

variable (s : Snapshot) (generation : Nat) (added : List LakeFile) (retired : List Nat)

theorem mem_touched {p : String} : p ∈ s.touched added retired ↔
    (∃ file ∈ added, file.projectId = p) ∨ ∃ d, ∃ file ∈ s.files p d, file.id ∈ retired := by
  rw [touched, List.mem_dedup, List.mem_append, Table.mem_select, List.mem_map]
  refine or_congr Iff.rfl ⟨fun ⟨project, hp, hany⟩ => ?_, fun ⟨d, file, hf, hr⟩ => ?_⟩
  · simp only [List.any_eq_true, decide_eq_true_eq] at hany
    obtain ⟨⟨d, files⟩, hm, file, hf, hr⟩ := hany
    exact ⟨d, file, by simpa [Snapshot.files, Snapshot.project, hp, Table.get_eq_some.mpr hm] using hf, hr⟩
  · cases hp : s.projects.get p with
    | none => simp [files, Snapshot.project, hp, ProjectFiles.none] at hf
    | some project =>
      refine ⟨project, rfl, ?_⟩
      cases hd : project.days.get d with
      | none => simp [files, Snapshot.project, hp, hd] at hf
      | some files =>
        simp only [List.any_eq_true, decide_eq_true_eq]
        exact ⟨(d, files), Table.get_eq_some.mp hd, file, by simpa [Snapshot.files, Snapshot.project, hp, hd] using hf, hr⟩

private theorem projects_activate (p : String) : (s.activate generation added retired).1.projects.get p =
    (if p ∈ s.touched added retired then
      some ((s.project p).rebuild generation (added.filter (·.projectId = p)) retired)
    else s.projects.get p).filter fun project => !project.days.rows.isEmpty := by
  simp only [activate, Table.get_delete, Table.get_upserts]

/-- A project keeps its files and its version, loses its last file, or moves to the new generation. -/
theorem activate_project (h : ∀ p project, s.projects.get p = some project → project.days.rows.isEmpty = false) (p : String) :
    (s.activate generation added retired).1.projects.get p = s.projects.get p ∨
      (s.activate generation added retired).1.projects.get p = .none ∨
      ∃ project, (s.activate generation added retired).1.projects.get p = some project ∧ project.version = generation := by
  rw [projects_activate]
  by_cases ht : p ∈ s.touched added retired
  · rw [if_pos ht, Option.filter_some]
    split
    · exact .inr (.inr ⟨_, rfl, rfl⟩)
    · exact .inr (.inl rfl)
  · rw [if_neg ht]
    left
    cases hp : s.projects.get p with
    | none => rfl
    | some project => rw [Option.filter_some_pos (by simp [h p project hp])]

/-- The files of a partition are those it had and keeps, and the added ones. -/
theorem activate_files (p : String) (d : NaiveDate) : (s.activate generation added retired).1.files p d =
    (s.files p d).filter (·.id ∉ retired) ++ added.filter fun file => file.projectId = p ∧ file.day = d := by
  have hempty : ∀ o : Option ProjectFiles, (((o.filter fun project => !project.days.rows.isEmpty).getD .none).days.get d).getD [] =
      ((o.getD .none).days.get d).getD [] := by
    intro o
    cases o with
    | none => rfl
    | some project =>
      cases hr : project.days.rows.isEmpty with
      | false => simp [Option.filter, hr]
      | true =>
        have hnone : project.days.get d = .none := by
          by_contra hne
          obtain ⟨files, hf⟩ := Option.ne_none_iff_exists'.mp hne
          rw [Table.rows_isEmpty.mpr ⟨d, files, hf⟩] at hr
          cases hr
        simp [Option.filter, hr, hnone, ProjectFiles.none]
  rw [files, project, projects_activate, hempty]
  by_cases ht : p ∈ s.touched added retired
  · rw [if_pos ht, Option.getD_some, ProjectFiles.rebuild_files, List.filter_filter]
    simp [files, Bool.and_comm]
  · rw [if_neg ht]
    rw [mem_touched, not_or] at ht
    have hadded : added.filter (fun file => file.projectId = p ∧ file.day = d) = [] :=
      List.filter_eq_nil_iff.mpr fun file hf => by simpa using fun hp => absurd ⟨file, hf, hp⟩ ht.1
    have hkept : (s.files p d).filter (·.id ∉ retired) = s.files p d :=
      List.filter_eq_self.mpr fun file hf => by simpa using fun hr => ht.2 ⟨d, file, hf, hr⟩
    rw [hadded, hkept, List.append_nil]
    rfl

theorem activate_trim (h : s.Trim) : (s.activate generation added retired).1.Trim := by
  constructor
  · intro p project hp
    rw [projects_activate, Option.filter_eq_some_iff] at hp
    simpa using hp.2
  · intro p project d files hp hd
    rw [projects_activate, Option.filter_eq_some_iff] at hp
    by_cases ht : p ∈ s.touched added retired
    · rw [if_pos ht, Option.some.injEq] at hp
      rw [← hp.1] at hd
      exact ProjectFiles.rebuild_nonempty _ _ _ _ hd
    · rw [if_neg ht] at hp
      exact h.files p project d files hp.1 hd

/-- A project without files is gone from the snapshot. -/
theorem Trim.project_none {s : Snapshot} (h : s.Trim) {p : String} (hf : ∀ d, s.files p d = []) : s.projects.get p = .none := by
  by_contra hne
  obtain ⟨project, hp⟩ := Option.ne_none_iff_exists'.mp hne
  obtain ⟨d, files, hd⟩ := Table.rows_isEmpty.mp (h.days p project hp)
  have := hf d
  rw [Snapshot.files, Snapshot.project, hp, Option.getD_some, hd, Option.getD_some] at this
  exact h.files p project d files hp hd this

/-- A touched project moves to the new generation, unless it has lost its last file. -/
theorem activate_version {p : String} (hf : ¬ ∀ d, (s.activate generation added retired).1.files p d = []) :
    (s.activate generation added retired).1.version p =
      if p ∈ s.touched added retired then generation else s.version p := by
  have hsome : (s.activate generation added retired).1.projects.get p ≠ .none := fun hnone => hf fun d => by
    rw [files, project, hnone]
    rfl
  obtain ⟨project, hp⟩ := Option.ne_none_iff_exists'.mp hsome
  rw [version, Snapshot.project, hp, Option.getD_some]
  rw [projects_activate, Option.filter_eq_some_iff] at hp
  by_cases ht : p ∈ s.touched added retired
  · rw [if_pos ht, Option.some.injEq] at hp
    rw [if_pos ht, ← hp.1]
    rfl
  · rw [if_neg ht] at hp
    rw [if_neg ht, version, Snapshot.project, hp.1]
    rfl

/-- A file is in the partition of its project and day, and there once. -/
structure Distinct (s : Snapshot) : Prop where
  placed : ∀ p d, ∀ file ∈ s.files p d, file.projectId = p ∧ file.day = d
  nodup : ∀ p d, (s.files p d).Nodup

/-- A file of the snapshot. -/
def Has (s : Snapshot) (file : LakeFile) : Prop := ∃ p d, file ∈ s.files p d

variable {s}

private theorem files_of_mem {p : String} {m : NaiveDate × List LakeFile} (hm : m ∈ (s.project p).days.rows) :
    s.files p m.1 = m.2 := by
  rw [files, Table.get_eq_some.mpr hm, Option.getD_some]

private theorem mem_buried (h : s.Distinct) {p : String} {file : LakeFile} :
    file ∈ (s.project p).buried retired ↔ s.Has file ∧ file.projectId = p ∧ file.id ∈ retired := by
  rw [ProjectFiles.buried, List.mem_filter, List.mem_flatMap, decide_eq_true_iff]
  constructor
  · rintro ⟨⟨m, hm, hf⟩, hr⟩
    rw [← files_of_mem hm] at hf
    exact ⟨⟨p, m.1, hf⟩, (h.placed p m.1 file hf).1, hr⟩
  · rintro ⟨⟨p', d, hf⟩, hp, hr⟩
    refine ⟨?_, hr⟩
    obtain rfl : p' = p := (h.placed p' d file hf).1.symm.trans hp
    rw [files] at hf
    cases hg : (s.project p').days.get d with
    | none => simp [hg] at hf
    | some files =>
      rw [hg, Option.getD_some] at hf
      exact ⟨(d, files), Table.get_eq_some.mp hg, hf⟩

/-- The files of an activated snapshot are those it keeps and those that come. -/
theorem activate_has {file : LakeFile} : (s.activate generation added retired).1.Has file ↔
    s.Has file ∧ file.id ∉ retired ∨ file ∈ added := by
  simp only [Has, activate_files, List.mem_append, List.mem_filter, decide_eq_true_iff]
  constructor
  · rintro ⟨p, d, ⟨hf, hr⟩ | ⟨hf, -⟩⟩
    · exact .inl ⟨⟨p, d, hf⟩, hr⟩
    · exact .inr hf
  · rintro (⟨⟨p, d, hf⟩, hr⟩ | hf)
    · exact ⟨p, d, .inl ⟨hf, hr⟩⟩
    · exact ⟨file.projectId, file.day, .inr ⟨hf, rfl, rfl⟩⟩

/-- A lease shows the files of its days. -/
theorem mem_lease {p : String} {first toExclusive : NaiveDate} {file : LakeFile} :
    file ∈ (s.lease p first toExclusive).files ↔ ∃ d, first ≤ d ∧ d < toExclusive ∧ file ∈ s.files p d := by
  rw [lease]
  cases hp : s.projects.get p with
  | none => simp [files, Snapshot.project, hp, ProjectFiles.none]
  | some project =>
    have hfiles : ∀ d, s.files p d = (project.days.get d).getD [] := fun d => by
      rw [files, Snapshot.project, hp, Option.getD_some]
    simp only [ProjectFiles.byDay, List.mem_flatMap, List.mem_filter, List.mem_mergeSort, decide_eq_true_iff, hfiles]
    constructor
    · rintro ⟨m, ⟨hm, hfirst, hlast⟩, hf⟩
      exact ⟨m.1, hfirst, hlast, by rwa [Table.get_eq_some.mpr hm, Option.getD_some]⟩
    · rintro ⟨d, hfirst, hlast, hf⟩
      cases hd : project.days.get d with
      | none => simp [hd] at hf
      | some files => exact ⟨(d, files), ⟨Table.get_eq_some.mp hd, hfirst, hlast⟩, by rwa [hd, Option.getD_some] at hf⟩

theorem lease_has {p : String} {first toExclusive : NaiveDate} {file : LakeFile}
    (h : file ∈ (s.lease p first toExclusive).files) : s.Has file := by
  obtain ⟨d, -, -, hf⟩ := mem_lease.mp h
  exact ⟨p, d, hf⟩

/-- An activation buries the retired files, each once. -/
theorem Distinct.mem_activate_buried (h : s.Distinct) {file : LakeFile} :
    file ∈ (s.activate generation added retired).2 ↔ s.Has file ∧ file.id ∈ retired := by
  simp only [activate, List.mem_flatMap, mem_buried retired h]
  constructor
  · rintro ⟨p, -, hf, -, hr⟩
    exact ⟨hf, hr⟩
  · rintro ⟨⟨p, d, hf⟩, hr⟩
    exact ⟨p, (mem_touched s added retired).mpr (.inr ⟨d, file, hf, hr⟩), ⟨p, d, hf⟩, (h.placed p d file hf).1, hr⟩

theorem Distinct.nodup_activate_buried (h : s.Distinct) : ((s.activate generation added retired).2).Nodup := by
  refine List.nodup_flatMap.mpr ⟨fun p _ => List.Nodup.filter _ (List.nodup_flatMap.mpr ⟨fun m hm => ?_, ?_⟩), ?_⟩
  · rw [← files_of_mem hm]
    exact h.nodup p m.1
  · have hkeys := (s.project p).days.unique
    rw [List.Nodup, List.pairwise_map] at hkeys
    refine hkeys.imp_of_mem fun {m m'} hm hm' hne file hf hf' => hne ?_
    rw [← files_of_mem hm] at hf
    rw [← files_of_mem hm'] at hf'
    exact (h.placed p m.1 file hf).2.symm.trans (h.placed p m'.1 file hf').2
  · refine (List.nodup_dedup _).imp fun {p p'} hne file hf hf' => hne ?_
    exact ((mem_buried retired h).mp hf).2.1.symm.trans ((mem_buried retired h).mp hf').2.1

end Snapshot
end Hoglet.Lake
