import Hoglet.Ends
import Hoglet.Lake.Catalogue

/-! The lake's process, its database and the disk, the operations they offer, and what the machine may
do to each operation: let it pass, make it fail, or end the process before it. -/
namespace Hoglet.Lake
open Capture

/-- The rows of an event file. -/
abbrev Content (ν U : Type) := List (CapturedEvent ν U)

/-- A file operation that reports an error may have landed all the same. -/
inductive Fault where
  | fails (landed : Bool)
  | crash
  deriving DecidableEq, Repr

/-- What happens to the operations, counted from the start, and how large the written files get. -/
structure Machine where
  faults : Nat → Option Fault
  bytes : Nat → Nat

def Machine.reliable : Machine := ⟨fun _ => none, fun _ => 0⟩

/-- `stored` is what each path holds when the directory changes since the last sync are lost, `commits`
counts the committed catalogue transactions, and `replaced` are the snapshots that readers may still hold. -/
structure World (ν U : Type) where
  disk : Table Path (Content ν U)
  stored : Path → Option (Content ν U)
  db : Database
  commits : Nat
  snapshot : Snapshot
  replaced : List Snapshot
  graveyard : List LakeFile
  ops : Nat

abbrev Steps (ν U : Type) := EStateM PipelineError (World ν U)

/-- Whether two files are in one directory. -/
def Path.beside (a b : Path) : Bool := a.project = b.project && a.day = b.day

namespace World
variable {ν U : Type} (path : Path)

def written (content : Content ν U) (w : World ν U) : World ν U := { w with disk := w.disk.put path content }

def removed (w : World ν U) : World ν U := { w with disk := w.disk.delete fun p _ => p = path }

/-- The temporary file under its final name. -/
def renamed (w : World ν U) : World ν U :=
  { w with disk := (w.disk.put path ((w.disk.get path.withTmp).getD [])).delete fun p _ => p = path.withTmp }

def synced (w : World ν U) : World ν U :=
  { w with stored := fun p => if p.beside path then w.disk.get p else w.stored p }

end World

section operations
variable {ν U α : Type} (m : Machine)

/-- One operation: what it does, the error it reports, and what a reported failure leaves when it landed. -/
def operation (error : PipelineError) (f landed : World ν U → World ν U) : Steps ν U Unit := fun w =>
  let next := { w with ops := w.ops + 1 }
  match m.faults w.ops with
  | none => .ok () (f next)
  | some .crash => .error .crashed next
  | some (.fails true) => .error error (landed next)
  | some (.fails false) => .error error next

/-- A statement on the database, inside a transaction; what it computes reaches the database on commit. -/
def statement (x : Except PipelineError α) : Steps ν U α := do
  operation m .database id id
  match x with
  | .ok a => return a
  | .error e => throw e

/-- Atomic: a commit that reports an error has left the database as it was. -/
def commit (tx : Database) : Steps ν U Unit :=
  operation m .database (fun w => { w with db := tx, commits := w.commits + 1 }) id

/-- A transaction on the identity tables alone, which the lake shares its database with. -/
def updateTables (f : Projections.Tables → Except PipelineError (α × Projections.Tables)) : Steps ν U α := do
  let (a, tables) ← statement m (f (← get).db.tables)
  operation m .database (fun w => { w with db.tables := tables }) id
  return a

/-- A failed write leaves part of a file. -/
def writeTemporary (error : PipelineError) (path : Path) (content : Content ν U) : Steps ν U Unit :=
  operation m error (World.written path.withTmp content) (World.written path.withTmp [])

/-- Renames the temporary file to its final name. -/
def rename (path : Path) : Steps ν U Unit := operation m .io (World.renamed path) (World.renamed path)

/-- Makes the names in the directory of a file durable. -/
def syncDir (path : Path) : Steps ν U Unit := operation m .io (World.synced path) (World.synced path)

def removeFile (path : Path) : Steps ν U Unit := operation m .io (World.removed path) (World.removed path)

/-- The outcome as a value; the end of the process is no outcome. -/
def attempt (x : Steps ν U α) : Steps ν U (Except PipelineError α) := fun w =>
  match x w with
  | .ok a w' => .ok (.ok a) w'
  | .error .crashed w' => .error .crashed w'
  | .error e w' => .ok (.error e) w'

/-- `let _ = …`. -/
def ignoringErrors (x : Steps ν U Unit) : Steps ν U Unit := do
  let _ ← attempt x

/-- Cleans up behind an error and reports it. -/
def cleaningUp (x : Steps ν U α) (cleanup : Steps ν U Unit) : Steps ν U α := do
  match ← attempt x with
  | .ok a => return a
  | .error e => do
    cleanup
    throw e

/-- Writes an event file under its final name, durably, and returns its size; `error` is what a failed
write of the rows reports. -/
def writeFile (error : PipelineError) (path : Path) (content : Content ν U) : Steps ν U Nat := do
  operation m .io id id
  writeTemporary m error path content
  let bytes := m.bytes (← get).ops
  operation m .io id id
  rename m path
  syncDir m path
  return bytes

/-- The rows of files that DuckDB reads. -/
def readParquet (files : List LakeFile) : Steps ν U (Content ν U) := do
  operation m (.corrupt "duckdb") id id
  let disk := (← get).disk
  match files.mapM fun file => disk.get file.path with
  | some contents => return contents.flatten
  | none => throw (.corrupt "duckdb")

/-- Installs a committed generation. -/
def activate (generation : Nat) (added : List LakeFile) (retired : List Nat) : Steps ν U Unit :=
  modify fun w =>
    let (snapshot, buried) := w.snapshot.activate generation added retired
    { w with snapshot, replaced := w.snapshot :: w.replaced, graveyard := w.graveyard ++ buried }

end operations
end Hoglet.Lake
