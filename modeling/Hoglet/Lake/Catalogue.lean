import Hoglet.Json.Utf8
import Hoglet.Lake.Snapshot
import Hoglet.Projections.Catalog
import Hoglet.Projections.Identity
import Hoglet.Wal.Layout

/-! The catalogue in `projections.db`: one row for each event file, the generation, the WAL checkpoint,
and the statements that publication and compaction run on them inside a transaction. -/
namespace Hoglet.Lake
open Json Capture

/-- What the pipeline's calls fail with. `crashed` is no error value: the process has ended. -/
inductive PipelineError where
  | database
  | io
  | corrupt (message : String)
  | projection (error : Projections.ProjectionError)
  | missingProjectBinding
  | wal (error : Wal.WalError)
  | crashed
  deriving DecidableEq, Repr

/-- A row of `lake_files` under its id. The day column holds the day's text. -/
structure FileRow where
  projectId : String
  day : NaiveDate
  path : Path
  rows : Nat
  bytes : Nat
  level : Nat
  createdGeneration : Nat
  retiredGeneration : Option Nat
  createdAt : Int
  deriving DecidableEq, Repr

def FileRow.live (row : FileRow) : Bool := row.retiredGeneration.isNone

/-- The file that a row describes. -/
def FileRow.toFile (id : Nat) (row : FileRow) : LakeFile :=
  ⟨id, row.projectId, row.day, row.path, row.rows, row.bytes, row.level, row.createdAt⟩

def FileRow.retire (generation : Nat) (row : FileRow) : FileRow := { row with retiredGeneration := some generation }

/-- The row of a new file. -/
def LakeFile.toRow (generation : Nat) (file : LakeFile) : FileRow :=
  ⟨file.projectId, file.day, file.path, file.rows, file.bytes, file.level, generation, none, file.createdAt⟩

structure ProjectionState where
  generation : Nat
  checkpoint : Wal.WalCursor
  deriving DecidableEq, Repr

structure Database where
  files : Table Nat FileRow
  state : ProjectionState
  tables : Projections.Tables
  catalog : Projections.Catalog

/-- The tables as the schema creates them. -/
def Database.initial : Database := ⟨.empty, ⟨0, ⟨1, 0⟩⟩, .empty, .empty⟩

/-- Every file of a project is in a directory of its own. -/
def projectDirName (projectId : String) : String :=
  if projectId ≠ "" ∧ projectId.toList.all fun c => c.isAlphanum || c = '-' || c = '_' then projectId
  else String.ofList ('x' :: (utf8 projectId.toList).flatMap fun b => [hexDigit (b.toNat / 16), hexDigit (b.toNat % 16)])

def dayText (day : NaiveDate) : String := (civil day).text

def filePath (projectId : String) (day : NaiveDate) (name : FileName) : Path :=
  ⟨projectDirName projectId, dayText day, name, false⟩

/-- `with_extension("parquet.tmp")`. -/
def Path.withTmp (path : Path) : Path := { path with temporary := true }

/-- `length` of SQLite counts the characters before the first NUL. -/
def sqlLength (text : String) : Nat := (text.toList.takeWhile (· ≠ '\x00')).length

structure NewFile where
  projectId : String
  day : NaiveDate
  path : Path
  rows : Nat
  bytes : Nat
  level : Nat

namespace Database

/-- The id that SQLite gives the next row. -/
def nextId (db : Database) : Nat := (db.files.rows.map Prod.fst).foldl max 0 + 1

/-- The rows of `lake_files` in the order of their ids. -/
def rowsById (db : Database) : List (Nat × FileRow) := db.files.rows.mergeSort fun a b => a.1 ≤ b.1

/-- The live files, in the order of their ids. -/
def liveFiles (db : Database) : List LakeFile := (db.rowsById.filter (·.2.live)).map fun m => m.2.toFile m.1

/-- A row that breaks one of the table's constraints is refused. -/
def insertFile (db : Database) (file : NewFile) (generation : Nat) (now : Int) : Except PipelineError (Database × LakeFile) :=
  let row : FileRow := ⟨file.projectId, file.day, file.path, file.rows, file.bytes, file.level, generation, none, now⟩
  if sqlLength file.projectId = 0 ∨ (dayText file.day).length ≠ 10 ∨ 1 < file.level then .error .database
  else if db.files.rows.any (·.2.path = file.path) then .error .database
  else match db.files.insert db.nextId row with
    | some files => .ok ({ db with files }, row.toFile db.nextId)
    | none => .error .database

/-- Retires the rows one after another; each has to be live. -/
def retire (generation : Nat) : List Nat → Database → Except PipelineError Database
  | [], db => .ok db
  | id :: ids, db =>
    match db.files.get id with
    | some row =>
      if row.live then
        let files := db.files.update fun i r => if i = id then r.retire generation else r
        retire generation ids { db with files }
      else .error (.corrupt s!"event file {id} was already retired")
    | none => .error (.corrupt s!"event file {id} was already retired")

/-- Moves the generation on, and the checkpoint if there is a new one. -/
def advanceState (expected : ProjectionState) (checkpoint : Option Wal.WalCursor) (db : Database) : Except PipelineError Database :=
  if db.state.generation = expected.generation then
    .ok { db with state := ⟨expected.generation + 1, checkpoint.getD expected.checkpoint⟩ }
  else .error (.corrupt "projection state changed underneath its single writer")

/-- The rows are in the order of their ids, no path is taken twice, and a path tells the generation of its
row, which is not ahead of the state's. -/
structure Sound (db : Database) : Prop where
  sorted : (db.files.rows.map Prod.fst).Pairwise (· < ·)
  named : ∀ id row, db.files.get id = some row → row.path.temporary = false ∧
    row.path.name.generation = row.createdGeneration ∧ row.createdGeneration ≤ db.state.generation ∧ 0 < row.createdGeneration
  unique : ∀ i j r r', db.files.get i = some r → db.files.get j = some r' → r.path = r'.path → i = j

theorem Sound.rowsById {db : Database} (h : db.Sound) : db.rowsById = db.files.rows := by
  refine List.mergeSort_of_pairwise ?_
  have := h.sorted
  rw [List.pairwise_map] at this
  exact this.imp fun hlt => decide_eq_true hlt.le

theorem Sound.liveFiles {db : Database} (h : db.Sound) :
    db.liveFiles = (db.files.rows.filter (·.2.live)).map fun m => m.2.toFile m.1 := by
  rw [Database.liveFiles, h.rowsById]

theorem Sound.mem_liveFiles {db : Database} (h : db.Sound) {file : LakeFile} :
    file ∈ db.liveFiles ↔ ∃ row, db.files.get file.id = some row ∧ row.live = true ∧ row.toFile file.id = file := by
  simp only [h.liveFiles, List.mem_map, List.mem_filter, Prod.exists, Table.get_eq_some]
  constructor
  · rintro ⟨id, row, ⟨hm, hl⟩, rfl⟩
    exact ⟨row, hm, hl, rfl⟩
  · rintro ⟨row, hm, hl, hf⟩
    exact ⟨file.id, row, ⟨hm, hl⟩, hf⟩

private theorem le_foldl_max (l : List Nat) (a : Nat) : a ≤ l.foldl max a ∧ ∀ n ∈ l, n ≤ l.foldl max a := by
  induction l generalizing a with
  | nil => simp
  | cons b l ih =>
    obtain ⟨h, hl⟩ := ih (max a b)
    refine ⟨(le_max_left a b).trans h, fun n hn => ?_⟩
    rcases List.mem_cons.mp hn with rfl | hn
    · exact (le_max_right a n).trans h
    · exact hl n hn

theorem lt_nextId {db : Database} {id : Nat} {row : FileRow} (h : db.files.get id = some row) : id < db.nextId :=
  Nat.lt_succ_of_le ((le_foldl_max _ _).2 id (List.mem_map_of_mem (Table.get_eq_some.mp h)))

theorem insertFile_ok {db db' : Database} {file : NewFile} {generation : Nat} {now : Int} {added : LakeFile}
    (h : db.insertFile file generation now = .ok (db', added)) :
    ∃ files, db.files.insert db.nextId ⟨file.projectId, file.day, file.path, file.rows, file.bytes, file.level, generation,
        none, now⟩ = some files ∧ db' = { db with files } ∧
      added = ⟨db.nextId, file.projectId, file.day, file.path, file.rows, file.bytes, file.level, now⟩ ∧
      ∀ id row, db.files.get id = some row → row.path ≠ file.path := by
  unfold insertFile at h
  simp only at h
  split at h
  · cases h
  split at h
  · cases h
  rename_i hpath
  split at h
  · rename_i files hins
    cases h
    refine ⟨files, hins, rfl, rfl, fun id row hrow heq => hpath ?_⟩
    exact List.any_eq_true.mpr ⟨(id, row), Table.get_eq_some.mp hrow, decide_eq_true heq⟩
  · cases h

/-- The constraints a row has to meet; the rest of an insertion cannot fail. -/
theorem insertFile_ok_iff {db : Database} {file : NewFile} {generation : Nat} {now : Int}
    (hpath : ∀ id row, db.files.get id = some row → row.path ≠ file.path) :
    (∃ r, db.insertFile file generation now = .ok r) ↔
      sqlLength file.projectId ≠ 0 ∧ (dayText file.day).length = 10 ∧ file.level ≤ 1 := by
  have hany : db.files.rows.any (·.2.path = file.path) = false := by
    refine List.any_eq_false.mpr fun m hm => ?_
    simpa using hpath m.1 m.2 (Table.get_eq_some.mpr hm)
  have hnew : db.files.get db.nextId = none := by
    by_contra hne
    obtain ⟨row, hrow⟩ := Option.ne_none_iff_exists'.mp hne
    exact lt_irrefl _ (lt_nextId hrow)
  unfold insertFile
  simp only [hany]
  by_cases hc : sqlLength file.projectId = 0 ∨ (dayText file.day).length ≠ 10 ∨ 1 < file.level
  · rw [if_pos hc]
    refine ⟨fun h => (by obtain ⟨_, h⟩ := h; cases h), fun h => ?_⟩
    omega
  · rw [if_neg hc]
    obtain ⟨files, hins⟩ := Table.insert_isSome (⟨file.projectId, file.day, file.path, file.rows, file.bytes, file.level,
      generation, none, now⟩ : FileRow) hnew
    simp only [hins, Bool.false_eq_true, if_false]
    refine ⟨fun _ => ?_, fun _ => ⟨_, rfl⟩⟩
    omega

theorem retire_ok {generation : Nat} {ids : List Nat} {db db' : Database} (h : retire generation ids db = .ok db') :
    db' = { db with files := db.files.update fun i r => if i ∈ ids then r.retire generation else r } ∧
    ids.Nodup ∧ ∀ id ∈ ids, ∃ row, db.files.get id = some row ∧ row.live = true := by
  induction ids generalizing db with
  | nil =>
    cases h
    refine ⟨?_, .nil, by simp⟩
    simp [Table.update]
  | cons id ids ih =>
    rw [retire] at h
    cases hrow : db.files.get id with
    | none => simp [hrow] at h
    | some row =>
      simp only [hrow] at h
      split at h
      swap
      · cases h
      rename_i hlive
      obtain ⟨rfl, hnodup, hall⟩ := ih h
      have hnot : id ∉ ids := fun hmem => by
        obtain ⟨row', hrow', hlive'⟩ := hall id hmem
        simp only [Table.get_update, hrow, Option.map_some, if_true, Option.some.injEq] at hrow'
        rw [← hrow'] at hlive'
        cases hlive'
      refine ⟨?_, List.nodup_cons.mpr ⟨hnot, hnodup⟩, fun i hi => ?_⟩
      · simp only [Table.update_update]
        congr 2
        funext i r
        by_cases hi : i = id
        · simp [hi, hnot]
        · simp [hi]
      · rcases List.mem_cons.mp hi with rfl | hi
        · exact ⟨row, hrow, hlive⟩
        · obtain ⟨row', hrow', hlive'⟩ := hall i hi
          have hne : i ≠ id := fun heq => hnot (heq ▸ hi)
          rw [Table.get_update] at hrow'
          obtain ⟨r, hr, hrr⟩ := Option.map_eq_some_iff.mp hrow'
          rw [if_neg hne] at hrr
          exact ⟨r, hr, hrr ▸ hlive'⟩

theorem advanceState_ok {expected : ProjectionState} {checkpoint : Option Wal.WalCursor} {db db' : Database}
    (h : advanceState expected checkpoint db = .ok db') :
    db.state.generation = expected.generation ∧
      db' = { db with state := ⟨expected.generation + 1, checkpoint.getD expected.checkpoint⟩ } := by
  unfold advanceState at h
  split at h <;> cases h
  exact ⟨‹_›, rfl⟩

/-- A transaction that has added the rows of some files, all of one generation. -/
structure Inserted (db : Database) (generation : Nat) (tx : Database) (added : List LakeFile) : Prop where
  state : tx.state = db.state
  rows : tx.files.rows = db.files.rows ++ added.map fun file => (file.id, file.toRow generation)
  sorted : (tx.files.rows.map Prod.fst).Pairwise (· < ·)
  unique : ∀ i j r r', tx.files.get i = some r → tx.files.get j = some r' → r.path = r'.path → i = j

theorem Sound.inserted {db tx : Database} (h : db.Sound) (generation : Nat) (hfiles : tx.files = db.files)
    (hstate : tx.state = db.state) : Inserted db generation tx [] :=
  ⟨hstate, by simp [hfiles], hfiles ▸ h.sorted, by rw [hfiles]; exact h.unique⟩

theorem Inserted.insertFile {db tx tx' : Database} {generation : Nat} {added : List LakeFile} (h : Inserted db generation tx added)
    {file : NewFile} {now : Int} {new : LakeFile} (hok : tx.insertFile file generation now = .ok (tx', new)) :
    Inserted db generation tx' (added ++ [new]) ∧ new.path = file.path ∧ new.projectId = file.projectId ∧
      new.day = file.day ∧ tx'.tables = tx.tables ∧ tx'.catalog = tx.catalog := by
  obtain ⟨files, hins, rfl, rfl, hfresh⟩ := insertFile_ok hok
  obtain ⟨-, hrows⟩ := Table.insert_eq_some hins
  refine ⟨⟨h.state, ?_, ?_, fun i j r r' hi hj heq => ?_⟩, rfl, rfl, rfl, rfl, rfl⟩
  · simp only [hrows, h.rows, List.append_assoc, List.map_append, List.map_cons, List.map_nil, LakeFile.toRow]
  · simp only [hrows, List.map_append, List.map_cons, List.map_nil]
    refine List.pairwise_append.mpr ⟨h.sorted, by simp, fun id hid n hn => ?_⟩
    obtain ⟨m, hm, rfl⟩ := List.mem_map.mp hid
    rw [List.mem_singleton.mp hn]
    exact lt_nextId (Table.get_eq_some.mpr hm)
  · simp only [Table.get_insert hins] at hi hj
    by_cases hi' : i = tx.nextId <;> by_cases hj' : j = tx.nextId
    · rw [hi', hj']
    · rw [if_pos hi', Option.some.injEq] at hi
      rw [if_neg hj'] at hj
      exact absurd (by rw [← heq, ← hi]) (hfresh j r' hj)
    · rw [if_neg hi'] at hi
      rw [if_pos hj', Option.some.injEq] at hj
      exact absurd (by rw [heq, ← hj]) (hfresh i r hi)
    · rw [if_neg hi'] at hi
      rw [if_neg hj'] at hj
      exact h.unique i j r r' hi hj heq

private theorem live_retire (generation : Nat) (retired : List Nat) (rows : List (Nat × FileRow)) :
    ((rows.map fun m => (m.1, if m.1 ∈ retired then m.2.retire generation else m.2)).filter (·.2.live)).map
        (fun m => m.2.toFile m.1) =
      ((rows.filter (·.2.live)).map fun m => m.2.toFile m.1).filter (·.id ∉ retired) := by
  induction rows with
  | nil => rfl
  | cons m rows ih =>
    rw [List.map_cons, List.filter_cons, List.filter_cons]
    by_cases hid : m.1 ∈ retired
    · have hretired : (m.2.retire generation).live = false := rfl
      rw [if_pos hid, if_neg (by simp [hretired]), ih]
      split
      · rw [List.map_cons, List.filter_cons, if_neg (by simp [FileRow.toFile, hid])]
      · rfl
    · rw [if_neg hid]
      split
      · rw [List.map_cons, List.map_cons, List.filter_cons, if_pos (by simp [FileRow.toFile, hid]), ih]
      · exact ih

private theorem live_added (generation : Nat) (added : List LakeFile) :
    ((added.map fun file => (file.id, file.toRow generation)).filter (·.2.live)).map (fun m => m.2.toFile m.1) = added := by
  induction added with
  | nil => rfl
  | cons file added ih =>
    have hlive : (file.toRow generation).live = true := rfl
    rw [List.map_cons, List.filter_cons, if_pos hlive, List.map_cons, ih]
    rfl

/-- What a catalogue transaction that adds files and retires others has done when it is ready to commit. -/
theorem Inserted.ready {db tx tx' : Database} (hdb : db.Sound) {added : List LakeFile} {retired : List Nat}
    (h : Inserted db (db.state.generation + 1) tx added)
    (hname : ∀ file ∈ added, file.path.temporary = false ∧ file.path.name.generation = db.state.generation + 1)
    (hold : ∀ id ∈ retired, id ∉ added.map LakeFile.id)
    (hfiles : tx'.files = tx.files.update fun i r =>
      if i ∈ retired then r.retire (db.state.generation + 1) else r)
    (hgen : tx'.state.generation = db.state.generation + 1) :
    tx'.Sound ∧ tx'.liveFiles = db.liveFiles.filter (·.id ∉ retired) ++ added ∧
      ∀ id row, db.files.get id = some row → ∃ row', tx'.files.get id = some row' ∧ row'.path = row.path ∧
        (row.live = false ∨ id ∈ retired → row'.live = false) := by
  have hget : ∀ id row, tx'.files.get id = some row → ∃ r, tx.files.get id = some r ∧
      row = if id ∈ retired then r.retire (db.state.generation + 1) else r := by
    intro id row hrow
    rw [hfiles, Table.get_update] at hrow
    obtain ⟨r, hr, rfl⟩ := Option.map_eq_some_iff.mp hrow
    exact ⟨r, hr, rfl⟩
  have hpath : ∀ id row, tx'.files.get id = some row → ∃ r, tx.files.get id = some r ∧ row.path = r.path ∧
      row.createdGeneration = r.createdGeneration := by
    intro id row hrow
    obtain ⟨r, hr, rfl⟩ := hget id row hrow
    refine ⟨r, hr, ?_⟩
    split <;> exact ⟨rfl, rfl⟩
  have hsound : tx'.Sound := by
    refine ⟨?_, fun id row hrow => ?_, fun i j r r' hi hj heq => ?_⟩
    · have hkeys : tx'.files.rows.map Prod.fst = tx.files.rows.map Prod.fst := by
        rw [hfiles, Table.update, List.map_map]
        rfl
      exact hkeys ▸ h.sorted
    · obtain ⟨r, hr, hp, hc⟩ := hpath id row hrow
      rw [hp, hc, hgen]
      rw [Table.get_eq_some, h.rows, List.mem_append, List.mem_map] at hr
      rcases hr with hr | ⟨file, hmem, heq⟩
      · obtain ⟨h1, h2, h3, h4⟩ := hdb.named id r (Table.get_eq_some.mpr hr)
        exact ⟨h1, h2, h3.trans (Nat.le_succ _), h4⟩
      · cases heq
        obtain ⟨h1, h2⟩ := hname file hmem
        exact ⟨h1, h2, le_refl _, Nat.succ_pos _⟩
    · obtain ⟨s, hs, hp, -⟩ := hpath i r hi
      obtain ⟨s', hs', hp', -⟩ := hpath j r' hj
      exact h.unique i j s s' hs hs' (by rw [← hp, ← hp', heq])
  refine ⟨hsound, ?_, fun id row hrow => ?_⟩
  · have hrows : tx'.files.rows = (db.files.rows ++ added.map fun file => (file.id, file.toRow (db.state.generation + 1))).map
        fun m => (m.1, if m.1 ∈ retired then m.2.retire (db.state.generation + 1) else m.2) := by
      rw [hfiles, ← h.rows]
      rfl
    have hkept : ∀ file ∈ added, file.id ∉ retired := fun file hmem hin => hold file.id hin (List.mem_map_of_mem hmem)
    rw [hsound.liveFiles, hdb.liveFiles, hrows, live_retire, List.filter_append, List.map_append, List.filter_append, live_added]
    congr 1
    exact List.filter_eq_self.mpr fun file hmem => decide_eq_true (hkept file hmem)
  · have hmem : (id, row) ∈ tx.files.rows := by
      rw [h.rows]
      exact List.mem_append_left _ (Table.get_eq_some.mp hrow)
    refine ⟨if id ∈ retired then row.retire (db.state.generation + 1) else row,
      by rw [hfiles, Table.get_update, Table.get_eq_some.mpr hmem, Option.map_some], ?_, ?_⟩
    · split <;> rfl
    · rintro (hl | hin)
      · split
        · rfl
        · exact hl
      · rw [if_pos hin]
        rfl

end Database
end Hoglet.Lake
