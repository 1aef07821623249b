import Hoglet.Wal.Layout

/-! Segment files as the kernel holds them: their bytes, how many of those a successful fsync has made
durable, and operations each of which may fail, with part of its effect or none. -/
namespace Hoglet.Wal

structure File where
  bytes : Bytes
  synced : Nat
  deriving DecidableEq, Repr

/-- The segment files, how many operations there have been, and whether one of them failed. -/
structure Device where
  files : Path → Option File
  ops : Nat
  failed : Bool

/-- Which operations fail, and how far each of those gets first. -/
abbrev Faults := Nat → Option Nat

namespace Device

def setFile (files : Path → Option File) (path : Path) (file : Option File) : Path → Option File :=
  fun p => if p = path then file else files p

/-- One operation: what it leaves when it succeeds, and what when it fails after getting so far. -/
def attempt (faults : Faults) (success : Path → Option File) (failure : Nat → Path → Option File) (d : Device) :
    Except WalError Unit × Device :=
  match faults d.ops with
  | none => (.ok (), ⟨success, d.ops + 1, d.failed⟩)
  | some n => (.error (.io .other), ⟨failure n, d.ops + 1, true⟩)

/-- `write_all` at the end of an open file. -/
def writeAll (faults : Faults) (path : Path) (data : Bytes) (d : Device) : Except WalError Unit × Device :=
  let landed (n : Nat) := (d.files path).map fun file => { file with bytes := file.bytes ++ data.take n }
  d.attempt faults (setFile d.files path (landed data.length)) fun n => setFile d.files path (landed n)

/-- `sync_data` and `sync_all`. -/
def sync (faults : Faults) (path : Path) (d : Device) : Except WalError Unit × Device :=
  d.attempt faults (setFile d.files path ((d.files path).map fun file => { file with synced := file.bytes.length }))
    fun _ => d.files

def rename (faults : Faults) (source target : Path) (d : Device) : Except WalError Unit × Device :=
  let moved := setFile (setFile d.files target (d.files source)) source none
  d.attempt faults moved fun n => if n = 0 then d.files else moved

def syncDirectory (faults : Faults) (d : Device) : Except WalError Unit × Device :=
  d.attempt faults d.files fun _ => d.files

/-- `create_new` of an empty file, which fails when there is one. -/
def createNew (faults : Faults) (path : Path) (d : Device) : Except WalError Unit × Device :=
  if (d.files path).isSome then (.error (.io .alreadyExists), ⟨d.files, d.ops + 1, true⟩)
  else
    let created := setFile d.files path (some ⟨[], 0⟩)
    d.attempt faults created fun n => if n = 0 then d.files else created

theorem setFile_same (files : Path → Option File) (path : Path) (file : Option File) : setFile files path file path = file :=
  if_pos rfl

theorem setFile_other (files : Path → Option File) {path p : Path} (file : Option File) (h : p ≠ path) :
    setFile files path file p = files p := if_neg h

end Device
end Hoglet.Wal
