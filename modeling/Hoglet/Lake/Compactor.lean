import Hoglet.Lake.World

/-! Compaction, retention and erasure: which files of a partition are merged, and how files are replaced
by a new one in a new generation. -/
namespace Hoglet.Lake
open Capture

def activePartitionMergeThreshold : Nat := 12
def smallFileBytes : Nat := 64 * 1024 * 1024
def maxMergeFiles : Nat := 64
def maxMergeBytes : Nat := 1024 * 1024 * 1024

/-- The timestamp column counts microseconds. -/
def timestampMicros {ν U : Type} (e : CapturedEvent ν U) : Int := e.timestamp.ns / 1000

/-- What the merging statements ask of DuckDB: of the rows that share a uuid the earliest one stays. Which
one that is among the earliest, and the order of equal rows, is up to DuckDB. -/
structure Duck (ν U : Type) where
  distinct : Content ν U → Content ν U
  mem : ∀ content, ∀ e ∈ distinct content, e ∈ content
  nodup : ∀ content, ((distinct content).map CapturedEvent.uuid).Nodup
  covers : ∀ content, ∀ e ∈ content, ∃ e' ∈ distinct content, e'.uuid = e.uuid
  earliest : ∀ content, ∀ e ∈ distinct content, ∀ e' ∈ content, e'.uuid = e.uuid → timestampMicros e ≤ timestampMicros e'

section earliest
variable {ν U : Type} [DecidableEq U]

/-- One way to keep the earliest row of each uuid: from the back, a row replaces a later one. -/
def keepEarliest : Content ν U → Content ν U
  | [] => []
  | e :: rest =>
    let kept := keepEarliest rest
    if kept.any fun e' => e'.uuid = e.uuid ∧ timestampMicros e' < timestampMicros e then kept
    else e :: kept.filter (·.uuid ≠ e.uuid)

private theorem keepEarliest_spec (content : Content ν U) :
    (∀ e ∈ keepEarliest content, e ∈ content) ∧ ((keepEarliest content).map CapturedEvent.uuid).Nodup ∧
      ∀ e ∈ content, ∃ e' ∈ keepEarliest content, e'.uuid = e.uuid ∧ timestampMicros e' ≤ timestampMicros e := by
  induction content with
  | nil => exact ⟨by simp [keepEarliest], .nil, by simp⟩
  | cons e rest ih =>
    obtain ⟨hmem, hnodup, hcovers⟩ := ih
    rw [keepEarliest]
    split
    · rename_i hany
      obtain ⟨e', he', hcond⟩ := List.any_eq_true.mp hany
      obtain ⟨huuid, hlt⟩ := of_decide_eq_true hcond
      refine ⟨fun a ha => List.mem_cons_of_mem _ (hmem a ha), hnodup, fun a ha => ?_⟩
      rcases List.mem_cons.mp ha with rfl | ha
      · exact ⟨e', he', huuid, hlt.le⟩
      · exact hcovers a ha
    · rename_i hany
      refine ⟨fun a ha => ?_, ?_, fun a ha => ?_⟩
      · rcases List.mem_cons.mp ha with rfl | ha
        · exact List.mem_cons_self
        · exact List.mem_cons_of_mem _ (hmem a (List.mem_of_mem_filter ha))
      · rw [List.map_cons, List.nodup_cons]
        refine ⟨fun hin => ?_, hnodup.sublist (List.filter_sublist.map _)⟩
        obtain ⟨a, ha, huuid⟩ := List.mem_map.mp hin
        exact of_decide_eq_true (List.mem_filter.mp ha).2 huuid
      · rcases List.mem_cons.mp ha with rfl | ha
        · exact ⟨a, List.mem_cons_self, rfl, le_refl _⟩
        · obtain ⟨a', ha', huuid, hle⟩ := hcovers a ha
          by_cases heq : a'.uuid = e.uuid
          · refine ⟨e, List.mem_cons_self, heq ▸ huuid, (not_lt.mp fun hlt => hany ?_).trans hle⟩
            exact List.any_eq_true.mpr ⟨a', ha', decide_eq_true ⟨heq, hlt⟩⟩
          · exact ⟨a', List.mem_cons_of_mem _ (List.mem_filter.mpr ⟨ha', decide_eq_true heq⟩), huuid, hle⟩

/-- A database that keeps rows so, to evaluate the model on. -/
def Duck.plain : Duck ν U where
  distinct := keepEarliest
  mem content := (keepEarliest_spec content).1
  nodup content := (keepEarliest_spec content).2.1
  covers content e he := by
    obtain ⟨e', he', huuid, -⟩ := (keepEarliest_spec content).2.2 e he
    exact ⟨e', he', huuid⟩
  earliest content e he e' he' huuid := by
    obtain ⟨e'', he'', huuid', hle⟩ := (keepEarliest_spec content).2.2 e' he'
    have heq := List.inj_on_of_nodup_map (keepEarliest_spec content).2.1 he'' he (huuid'.trans huuid)
    exact heq ▸ hle

end earliest

structure Partition where
  projectId : String
  day : NaiveDate
  files : List LakeFile

/-- Every live partition, by project and day. -/
def Snapshot.partitions (s : Snapshot) : List Partition :=
  (s.projects.rows.flatMap fun (projectId, project) => project.days.rows.map fun (day, files) =>
    (⟨projectId, day, files⟩ : Partition)).mergeSort
      fun a b => a.projectId < b.projectId ∨ a.projectId = b.projectId ∧ a.day ≤ b.day

/-- The first files whose sizes add up to at most the limit. -/
def takeWithin (limit : Nat) : Nat → List LakeFile → List LakeFile
  | _, [] => []
  | bytes, file :: rest =>
    let bytes := min (bytes + file.bytes) (2^64 - 1)
    if bytes ≤ limit then file :: takeWithin limit bytes rest else []

/-- Whether a partition's small files are worth merging. -/
def mergeDue (partition : Partition) (today : NaiveDate) (small : List LakeFile) : Bool :=
  let fresh := (small.filter (·.level = 0)).length
  if today ≤ partition.day then activePartitionMergeThreshold ≤ fresh else 1 ≤ fresh ∧ 2 ≤ small.length

/-- Files of one partition worth merging now, bounded. -/
def mergeInputs (partition : Partition) (today : NaiveDate) : List LakeFile :=
  let small := partition.files.filter (·.bytes < smallFileBytes)
  if !mergeDue partition today small then []
  else (takeWithin maxMergeBytes 0 (small.mergeSort fun a b => a.id ≤ b.id)).take maxMergeFiles

structure Compacted where
  projectId : String
  day : NaiveDate
  inputFiles : Nat
  inputRows : Nat
  outputRows : Nat
  deriving DecidableEq, Repr

/-- `max_by_key` keeps the last of several maxima. -/
def moreInputs : Option (Partition × List LakeFile) → Partition × List LakeFile → Option (Partition × List LakeFile)
  | none, x => some x
  | some best, x => if best.2.length ≤ x.2.length then some x else some best

def mostInputs : List (Partition × List LakeFile) → Option (Partition × List LakeFile) := List.foldl moreInputs none

section compactor
variable {ν U : Type} (m : Machine) (duck : Duck ν U)

/-- The partition that a step merges, and its inputs. -/
def mergeWork (s : Snapshot) (today : NaiveDate) : Option (Partition × List LakeFile) :=
  mostInputs (s.partitions.filterMap fun partition =>
    let inputs := mergeInputs partition today
    if 2 ≤ inputs.length then some (partition, inputs) else none)

/-- The row of the new file, if there is one. -/
def insertAny (generation : Nat) (now : Int) (db : Database) : Option NewFile → Steps ν U (Database × Option LakeFile)
  | some file => do
    let (tx, added) ← statement m (db.insertFile file generation now)
    return (tx, some added)
  | none => return (db, none)

/-- The transaction that replaces files by the one written at `path`, if there is one. -/
def replaceFiles (generation : Nat) (message : String) (file : Option NewFile) (retired : List Nat) (now : Int) :
    Steps ν U (Option LakeFile) := do
  let db := (← get).db
  statement m (.ok ())
  let state := db.state
  if state.generation + 1 ≠ generation then throw (.corrupt message)
  let (tx, added) ← insertAny m generation now db file
  let tx ← statement m (Database.retire generation retired tx)
  let tx ← statement m (Database.advanceState state none tx)
  commit m tx
  return added

def merge (partition : Partition) (inputs : List LakeFile) (now : Int) : Steps ν U Compacted := do
  let generation := (← get).snapshot.generation + 1
  let path := filePath partition.projectId partition.day (.compacted generation)
  let copied := duck.distinct (← readParquet m inputs)
  let bytes ← writeFile m (.corrupt "duckdb") path copied
  let retired := inputs.map LakeFile.id
  let file : NewFile := ⟨partition.projectId, partition.day, path, copied.length, bytes, 1⟩
  let added ← cleaningUp (replaceFiles m generation "lake generation moved during compaction" (some file) retired now)
    (ignoringErrors (removeFile m path))
  activate generation added.toList retired
  return ⟨partition.projectId, partition.day, inputs.length, (inputs.map LakeFile.rows).sum, copied.length⟩

/-- Retires every partition older than `days` in one generation. -/
def enforceRetention (days : Nat) (today : NaiveDate) : Steps ν U Nat := do
  let cutoff := today - days
  let retired := (((← get).snapshot.partitions.filter (·.day < cutoff)).flatMap (·.files)).map LakeFile.id
  if retired.isEmpty then return 0
  let db := (← get).db
  statement m (.ok ())
  let state := db.state
  let generation := state.generation + 1
  let tx ← statement m (Database.retire generation retired db)
  let tx ← statement m (Database.advanceState state none tx)
  commit m tx
  activate generation [] retired
  return retired.length

/-- The merging half of a step. -/
def mergeStep (today : NaiveDate) (now : Int) : Steps ν U (Option Compacted) := do
  match mergeWork (← get).snapshot today with
  | none => return none
  | some (partition, inputs) => return some (← merge m duck partition inputs now)

/-- One bounded unit of work; `none` when nothing needs doing. -/
def compactStep (retentionDays : Option Nat) (today : NaiveDate) (now : Int) : Steps ν U (Option Compacted) := do
  match retentionDays with
  | some days =>
    if 0 < (← enforceRetention m days today) then return none
    mergeStep m duck today now
  | none => mergeStep m duck today now

/-- Rewrites one partition without the events of some distinct ids. -/
def erasePartition (distinctIds : List String) (now : Int) (partition : Partition) : Steps ν U Nat := do
  let rows ← readParquet m partition.files
  let matching := (rows.filter (·.distinctId ∈ distinctIds)).length
  if matching = 0 then return 0
  let generation := (← get).snapshot.generation + 1
  let path := filePath partition.projectId partition.day (.erased generation)
  let kept := duck.distinct (rows.filter (·.distinctId ∉ distinctIds))
  let bytes ← writeFile m (.corrupt "duckdb") path kept
  let retired := partition.files.map LakeFile.id
  let file : NewFile := ⟨partition.projectId, partition.day, path, kept.length, bytes, 1⟩
  let added ← replaceFiles m generation "lake generation moved during erasure"
    (if 0 < kept.length then some file else none) retired now
  if added.isNone then ignoringErrors (removeFile m path)
  activate generation added.toList retired
  return matching

def erasePartitions (distinctIds : List String) (now : Int) : List Partition → Steps ν U Nat
  | [] => return 0
  | partition :: rest => do
    let removed ← erasePartition m duck distinctIds now partition
    return removed + (← erasePartitions distinctIds now rest)

/-- `Compactor::erase`: every affected partition of the project, one generation each. -/
def erase (projectId : String) (distinctIds : List String) (now : Int) : Steps ν U Nat := do
  if distinctIds.isEmpty then return 0
  erasePartitions m duck distinctIds now ((← get).snapshot.partitions.filter (·.projectId = projectId))

end compactor

theorem Snapshot.mem_partitions {s : Snapshot} {partition : Partition} (h : partition ∈ s.partitions) :
    partition.files = s.files partition.projectId partition.day := by
  rw [partitions, List.mem_mergeSort, List.mem_flatMap] at h
  obtain ⟨m, hp, hd⟩ := h
  simp only [List.mem_map] at hd
  obtain ⟨d, hd, rfl⟩ := hd
  simp only [Snapshot.files, Snapshot.project, Table.get_eq_some.mpr hp, Option.getD_some, Table.get_eq_some.mpr hd]

theorem Snapshot.exists_partition {s : Snapshot} {p : String} {d : NaiveDate} {file : LakeFile} (h : file ∈ s.files p d) :
    ∃ partition ∈ s.partitions, partition.projectId = p ∧ partition.day = d ∧ file ∈ partition.files := by
  cases hp : s.projects.get p with
  | none => simp [files, project, hp, ProjectFiles.none] at h
  | some project =>
    cases hd : project.days.get d with
    | none => simp [files, Snapshot.project, hp, hd] at h
    | some files =>
      rw [Snapshot.files, Snapshot.project, hp, Option.getD_some, hd, Option.getD_some] at h
      refine ⟨⟨p, d, files⟩, ?_, rfl, rfl, h⟩
      rw [partitions, List.mem_mergeSort, List.mem_flatMap]
      exact ⟨(p, project), Table.get_eq_some.mp hp, List.mem_map.mpr ⟨(d, files), Table.get_eq_some.mp hd, rfl⟩⟩

/-- The partitions of a snapshot have different keys. -/
theorem Snapshot.nodup_partitions (s : Snapshot) (projectId : String) :
    ((s.partitions.filter (·.projectId = projectId)).map Partition.day).Nodup := by
  have hkeys : (s.partitions.map fun partition => (partition.projectId, partition.day)).Nodup := by
    rw [partitions, ((List.mergeSort_perm _ _).map _).nodup_iff, List.map_flatMap, List.nodup_flatMap]
    refine ⟨fun m _ => ?_, ?_⟩
    · rw [List.map_map]
      refine List.Nodup.of_map Prod.snd ?_
      rw [List.map_map]
      exact m.2.days.unique
    · have hunique := s.projects.unique
      rw [List.Nodup, List.pairwise_map] at hunique
      refine hunique.imp fun {m m'} hne => List.disjoint_left.mpr fun key hk hk' => hne ?_
      simp only [List.mem_map] at hk hk'
      obtain ⟨_, ⟨_, _, rfl⟩, rfl⟩ := hk
      obtain ⟨_, ⟨_, _, rfl⟩, heq⟩ := hk'
      exact (Prod.mk.inj heq).1.symm
  refine List.Nodup.of_map (fun day => (projectId, day)) ?_
  have heq : ∀ partition ∈ s.partitions.filter (·.projectId = projectId),
      (partition.projectId, partition.day) = (projectId, partition.day) := fun partition hp =>
    Prod.ext (of_decide_eq_true (List.mem_filter.mp hp).2) rfl
  have hmap := List.map_congr_left heq
  rw [List.map_map]
  exact hmap ▸ hkeys.sublist (List.filter_sublist.map _)

theorem takeWithin_sublist (limit bytes : Nat) (files : List LakeFile) : (takeWithin limit bytes files).Sublist files := by
  induction files generalizing bytes with
  | nil => exact .slnil
  | cons file files ih =>
    rw [takeWithin]
    split
    · exact (ih _).cons_cons file
    · exact List.nil_sublist _

theorem mergeInputs_subset (partition : Partition) (today : NaiveDate) : mergeInputs partition today ⊆ partition.files := by
  intro file hf
  simp only [mergeInputs] at hf
  split at hf
  · cases hf
  · have hsorted := (takeWithin_sublist _ _ _).subset ((List.take_sublist _ _).subset hf)
    exact List.mem_of_mem_filter (List.mem_mergeSort.mp hsorted)

private theorem mostInputs_go {l : List (Partition × List LakeFile)} {best : Option (Partition × List LakeFile)}
    {x : Partition × List LakeFile} (h : l.foldl moreInputs best = some x) : x ∈ l ∨ best = some x := by
  induction l generalizing best with
  | nil => exact .inr h
  | cons y l ih =>
    rcases ih h with hmem | heq
    · exact .inl (List.mem_cons_of_mem _ hmem)
    · cases best with
      | none =>
        cases heq
        exact .inl List.mem_cons_self
      | some best =>
        rw [moreInputs] at heq
        split at heq
        · cases heq
          exact .inl List.mem_cons_self
        · exact .inr heq

/-- The work of a step is a partition of the snapshot with at least two inputs. -/
theorem mergeWork_some {s : Snapshot} {today : NaiveDate} {partition : Partition} {inputs : List LakeFile}
    (h : mergeWork s today = some (partition, inputs)) :
    partition ∈ s.partitions ∧ inputs = mergeInputs partition today ∧ 2 ≤ inputs.length := by
  rcases mostInputs_go h with hmem | heq
  · obtain ⟨partition', hp, heq⟩ := List.mem_filterMap.mp hmem
    simp only at heq
    split at heq
    · cases heq
      exact ⟨hp, rfl, ‹_›⟩
    · cases heq
  · cases heq

end Hoglet.Lake
