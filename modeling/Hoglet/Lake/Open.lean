import Hoglet.Lake.World

/-! Opening the lake, which reconciles the disk with the catalogue, and sweeping the graveyard. -/
namespace Hoglet.Lake

/-- A row of the catalogue in the projects' files; a project's version is the newest generation among them. -/
def addRow (projects : Table String ProjectFiles) (r : Nat × FileRow) : Table String ProjectFiles :=
  let project := (projects.get r.2.projectId).getD .none
  let file := r.2.toFile r.1
  projects.put r.2.projectId
    ⟨max project.version r.2.createdGeneration, project.days.upsert r.2.day [file] (· ++ [file])⟩

def Database.openSnapshot (db : Database) : Snapshot := ⟨db.state.generation, db.rowsById.foldl addRow .empty⟩

section lake
variable {ν U : Type} (m : Machine)

/-- A file that is not there any more counts as removed. -/
def removeAll : List Path → Steps ν U Unit
  | [] => return
  | path :: rest => do
    removeFile m path
    removeAll rest

/-- `Lake::open`. No reader survives a restart. -/
def openLake : Steps ν U Unit := do
  statement m (.ok ())
  let retired := (← get).db.files.select fun _ row => !row.live
  removeAll m (retired.map fun r => r.2.path)
  operation m .database (fun w => { w with db.files := w.db.files.delete fun _ row => !row.live }) id
  statement m (.ok ())
  let db := (← get).db
  let livePaths := db.rowsById.map fun r => r.2.path
  operation m .io id id
  let disk := (← get).disk
  match livePaths.find? fun path => (disk.get path).isNone with
  | some path => throw (.corrupt s!"catalogued event file is missing: {path.text}")
  | none =>
    removeAll m ((disk.rows.map Prod.fst).filter (· ∉ livePaths))
    modify fun w => { w with snapshot := db.openSnapshot, replaced := [], graveyard := [] }

/-- Unlinks the files that nobody holds; the ids of those that are gone, and the files that stay buried. -/
def sweepFiles (held : LakeFile → Bool) : List LakeFile → Steps ν U (List Nat × List LakeFile)
  | [] => return ([], [])
  | file :: rest => do
    if held file then
      let (removed, kept) ← sweepFiles held rest
      return (removed, file :: kept)
    else
      match ← attempt (removeFile m file.path) with
      | .ok _ => do
        let (removed, kept) ← sweepFiles held rest
        return (file.id :: removed, kept)
      | .error _ => do
        let (removed, kept) ← sweepFiles held rest
        return (removed, file :: kept)

def deleteRows : List Nat → Steps ν U Unit
  | [] => return
  | fileId :: rest => do
    ignoringErrors (operation m .database (fun w => { w with db.files := w.db.files.delete fun i _ => i = fileId }) id)
    deleteRows rest

/-- `held` tells which buried files a lease or a snapshot still holds. -/
def sweepGraveyard (held : LakeFile → Bool) : Steps ν U Nat := do
  let (removed, kept) ← sweepFiles m held (← get).graveyard
  modify fun w => { w with graveyard := kept }
  deleteRows m removed
  return removed.length

end lake
end Hoglet.Lake
