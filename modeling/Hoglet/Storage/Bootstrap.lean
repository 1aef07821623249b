import Hoglet.Checks
import Mathlib.Logic.Function.Basic

/-! The control and projections databases of a data directory: how a first start creates them through staged
files, what a start makes of the files it finds, and starts that die between two steps. -/
namespace Hoglet.Storage

inductive DatabaseRole where
  | control
  | projections
  deriving DecidableEq, Repr

def DatabaseRole.asStr : DatabaseRole → String
  | .control => "control"
  | .projections => "projections"

def DatabaseRole.applicationId : DatabaseRole → Int
  | .control => 0x4843544c
  | .projections => 0x4850524a

def DatabaseRole.schemaVersion : DatabaseRole → Int
  | .control => 1
  | .projections => 2

/-- The files of a data directory that startup looks at. -/
inductive Path where
  | control
  | projections
  | controlMigrating
  | projectionsMigrating
  deriving DecidableEq, Repr

/-- What `SELECT ... WHERE singleton = 1` finds. -/
inductive Selected (ρ : Type) where
  | noTable
  | noRow
  | row (r : ρ)
  deriving DecidableEq, Repr

structure Database where
  applicationId : Int
  userVersion : Int
  databaseMeta : Selected (String × String)
  generation : Selected Int
  deriving DecidableEq, Repr

/-- A file need not be a database. -/
inductive Entry where
  | file (content : Option Database)
  | directory
  deriving DecidableEq, Repr

abbrev Disk := Path → Option Entry

def Disk.exists (disk : Disk) (path : Path) : Bool := (disk path).isSome

def Disk.isFile (disk : Disk) (path : Path) : Bool :=
  match disk path with
  | some (.file _) => true
  | _ => false

structure StorageMetadata where
  pairId : String
  currentGenerationId : Int
  dataEpoch : Int
  deriving DecidableEq, Repr

inductive StorageBootstrapError where
  | incompletePair (present : DatabaseRole)
  | schemaTooNew (role : DatabaseRole) (found supported : Int)
  | schemaTooOld (role : DatabaseRole) (found supported : Int)
  | applicationIdMismatch (role : DatabaseRole) (found expected : Int)
  | roleMismatch (expected : DatabaseRole) (found : String)
  | pairIdMismatch (control projections : String)
  | invalidMetadata (role : DatabaseRole) (detail : String)
  | sqlite (path : Path)
  deriving DecidableEq, Repr

inductive StorageDisposition where
  | fresh
  | readyV2 (metadata : StorageMetadata)
  | migrationIncomplete
  deriving DecidableEq, Repr

def openDatabaseReadOnly (disk : Disk) (path : Path) : Except StorageBootstrapError (Option Database) :=
  match disk path with
  | some (.file content) => .ok content
  | _ => .error (.sqlite path)

/-- The first query is what shows that a file is a database. -/
def validateHeader (content : Option Database) (path : Path) (role : DatabaseRole) : Except StorageBootstrapError Database :=
  match content with
  | none => .error (.sqlite path)
  | some db =>
    if role.schemaVersion < db.userVersion then .error (.schemaTooNew role db.userVersion role.schemaVersion)
    else if db.userVersion < role.schemaVersion then .error (.schemaTooOld role db.userVersion role.schemaVersion)
    else if db.applicationId ≠ role.applicationId then .error (.applicationIdMismatch role db.applicationId role.applicationId)
    else .ok db

def readPairId (db : Database) (path : Path) (role : DatabaseRole) : Except StorageBootstrapError String :=
  match db.databaseMeta with
  | .noTable => .error (.sqlite path)
  | .noRow => .error (.invalidMetadata role "database_meta singleton is absent")
  | .row (pairId, databaseRole) =>
    if pairId = "" then .error (.invalidMetadata role "pair id is empty")
    else if databaseRole ≠ role.asStr then .error (.roleMismatch role databaseRole)
    else .ok pairId

def validatePairReadOnly (disk : Disk) (controlPath projectionsPath : Path) : Except StorageBootstrapError StorageMetadata := do
  let control ← openDatabaseReadOnly disk controlPath
  let projections ← openDatabaseReadOnly disk projectionsPath
  let control ← validateHeader control controlPath .control
  let projections ← validateHeader projections projectionsPath .projections
  let controlPair ← readPairId control controlPath .control
  let projectionsPair ← readPairId projections projectionsPath .projections
  if controlPair ≠ projectionsPair then throw (.pairIdMismatch controlPair projectionsPair)
  match projections.generation with
  | .noTable => throw (.sqlite projectionsPath)
  | .noRow => throw (.invalidMetadata .projections "projection state is absent")
  | .row generation => return ⟨controlPair, generation, 0⟩

/-- Classify a data directory without creating or mutating anything. -/
def inspectStorage (disk : Disk) : Except StorageBootstrapError StorageDisposition :=
  if disk.exists .controlMigrating || disk.exists .projectionsMigrating then .ok .migrationIncomplete
  else match disk.exists .control, disk.exists .projections with
    | true, true => (validatePairReadOnly disk .control .projections).map .readyV2
    | true, false | false, true => .ok .migrationIncomplete
    | false, false => .ok .fresh

def recoverableFreshBootstrap (disk : Disk) : Bool :=
  !disk.exists .control && disk.isFile .projections && disk.isFile .controlMigrating && !disk.exists .projectionsMigrating

/-- The process can die before any of these. A step that fails ends the start too, and leaves what a death before
it leaves. -/
inductive Step where
  | removeGeneratedTemporary (path : Path)
  | ensureParent (path : Path)
  | createDatabase (role : DatabaseRole) (path : Path)
  | hardenFilePermissions (path : Path)
  | syncFile (path : Path)
  | rename (source target : Path)
  | syncParent (path : Path)
  | setRuntimePragmas (path : Path)
  deriving DecidableEq, Repr

def createdDatabase (role : DatabaseRole) (pairId : String) : Database :=
  ⟨role.applicationId, role.schemaVersion, .row (pairId, role.asStr),
    match role with | .control => .noTable | .projections => .row 0⟩

/-- What a step leaves, if it can be done. -/
def Step.apply (pairId : String) (disk : Disk) : Step → Option Disk
  | .removeGeneratedTemporary path => some (Function.update disk path none)
  | .createDatabase role path =>
    if disk.exists path then none else some (Function.update disk path (some (.file (some (createdDatabase role pairId)))))
  | .rename source target =>
    if disk.exists source then some (Function.update (Function.update disk target (disk source)) source none) else none
  | .ensureParent _ | .hardenFilePermissions _ | .syncFile _ | .syncParent _ | .setRuntimePragmas _ => some disk

def createPair : List Step :=
  [.ensureParent .control,
   .ensureParent .projections,
   .createDatabase .control .controlMigrating,
   .createDatabase .projections .projectionsMigrating,
   .hardenFilePermissions .controlMigrating,
   .hardenFilePermissions .projectionsMigrating,
   .syncFile .controlMigrating,
   .syncFile .projectionsMigrating,
   .rename .projectionsMigrating .projections,
   .syncParent .projections,
   .rename .controlMigrating .control,
   .syncParent .control]

/-- One start of the process, with the pair id it would draw and the step before which it dies. -/
structure Start where
  pairId : String
  drawn : pairId ≠ ""
  dies : Option Step

inductive Stop where
  | died
  | failed (step : Step)
  | storage (error : StorageBootstrapError)
  | migrationIncomplete
  deriving DecidableEq, Repr

def runSteps (start : Start) : List Step → Disk → Except Stop Unit × Disk
  | [], disk => (.ok (), disk)
  | step :: steps, disk =>
    if start.dies = some step then (.error .died, disk)
    else match step.apply start.pairId disk with
      | none => (.error (.failed step), disk)
      | some disk => runSteps start steps disk

/-- What `bootstrap_storage` does before it validates the pair. -/
def bootstrapSteps (disk : Disk) : Except StorageBootstrapError (List Step) :=
  match disk.exists .control, disk.exists .projections with
  | true, false => .error (.incompletePair .control)
  | false, true =>
    if disk.exists .controlMigrating then
      (validatePairReadOnly disk .controlMigrating .projections).map fun _ =>
        [.rename .controlMigrating .control, .syncParent .control]
    else .error (.incompletePair .projections)
  | false, false =>
    .ok (.removeGeneratedTemporary .controlMigrating :: .removeGeneratedTemporary .projectionsMigrating :: createPair)
  | true, true => .ok []

def bootstrapStorage (start : Start) (disk : Disk) : Except Stop StorageMetadata × Disk :=
  match bootstrapSteps disk with
  | .error error => (.error (.storage error), disk)
  | .ok steps =>
    match runSteps start steps disk with
    | (.error stop, disk) => (.error stop, disk)
    | (.ok (), disk) =>
      match validatePairReadOnly disk .control .projections with
      | .error error => (.error (.storage error), disk)
      | .ok metadata =>
        match runSteps start [.setRuntimePragmas .control, .setRuntimePragmas .projections] disk with
        | (.error stop, disk) => (.error stop, disk)
        | (.ok (), disk) => (.ok metadata, disk)

/-- The part of `Application::prepare` that inspects the storage and brings it up. -/
def prepareStorage (start : Start) (disk : Disk) : Except Stop StorageMetadata × Disk :=
  match inspectStorage disk with
  | .error error => (.error (.storage error), disk)
  | .ok .fresh | .ok (.readyV2 _) => bootstrapStorage start disk
  | .ok .migrationIncomplete =>
    if recoverableFreshBootstrap disk then bootstrapStorage start disk else (.error .migrationIncomplete, disk)

section published
variable {start : Start} {disk : Disk}

private theorem mem_pair_iff {α : Type} {a b c : α} : a ∈ [b, c] ↔ a = b ∨ a = c := by simp

/-- A fact that every step of a list keeps is there wherever the run of the list stops. -/
theorem runSteps_keeps {P : Disk → Prop} {start : Start} (steps : List Step)
    (hstep : ∀ step ∈ steps, ∀ d d', P d → step.apply start.pairId d = some d' → P d') (h : P disk) : P (runSteps start steps disk).2 := by
  induction steps generalizing disk with
  | nil => exact h
  | cons step steps ih =>
    rw [runSteps]
    split
    · exact h
    · split
      · exact h
      · rename_i d' happly
        exact ih (fun step' hmem => hstep step' (List.mem_cons_of_mem _ hmem)) (hstep step List.mem_cons_self _ _ h happly)

/-- Bootstrapping keeps what the steps it decides on keep. -/
private theorem bootstrapStorage_keeps {P : Disk → Prop} (h : P disk)
    (hstep : ∀ steps, bootstrapSteps disk = .ok steps → ∀ step ∈ steps, ∀ d d', P d → step.apply start.pairId d = some d' → P d') :
    P (bootstrapStorage start disk).2 := by
  have hpragmas : ∀ step ∈ [Step.setRuntimePragmas .control, .setRuntimePragmas .projections], ∀ d d', P d →
      step.apply start.pairId d = some d' → P d' := by
    intro step hmem d d' hd happly
    rcases mem_pair_iff.mp hmem with rfl | rfl
    all_goals
      cases happly
      exact hd
  unfold bootstrapStorage
  split
  · exact h
  · rename_i steps hsteps
    have hrun := runSteps_keeps steps (hstep steps hsteps) h
    split
    · rename_i hstop
      rw [hstop] at hrun
      exact hrun
    · rename_i hdone
      rw [hdone] at hrun
      split
      · exact hrun
      · have hlast := runSteps_keeps _ hpragmas hrun
        split
        · rename_i hstop
          rw [hstop] at hlast
          exact hlast
        · rename_i hdone
          rw [hdone] at hlast
          exact hlast

/-- A start never replaces or deletes a published database, whatever it finds. -/
theorem published_kept {path : Path} {entry : Entry} (hpath : path = .control ∨ path = .projections) (h : disk path = some entry) :
    (prepareStorage start disk).2 path = some entry := by
  have hboot : (bootstrapStorage start disk).2 path = some entry := by
    refine bootstrapStorage_keeps (P := fun d => d path = some entry) h fun steps hsteps step hmem d d' hd happly => ?_
    have hexists : disk.exists path = true := by rw [Disk.exists, h]; rfl
    unfold bootstrapSteps at hsteps
    split at hsteps
    · cases hsteps
    · rename_i hcontrol _
      obtain rfl : path = .projections := by
        rcases hpath with rfl | rfl
        · rw [hcontrol] at hexists
          cases hexists
        · rfl
      split at hsteps
      · obtain ⟨_, -, rfl⟩ := map_ok.mp hsteps
        rcases mem_pair_iff.mp hmem with rfl | rfl
        · simp only [Step.apply] at happly
          split at happly
          · cases happly
            simpa using hd
          · cases happly
        · cases happly
          exact hd
      · cases hsteps
    · rename_i hcontrol hprojections
      rcases hpath with rfl | rfl
      · rw [hcontrol] at hexists
        cases hexists
      · rw [hprojections] at hexists
        cases hexists
    · cases hsteps
      cases hmem
  unfold prepareStorage
  split
  · exact h
  · exact hboot
  · exact hboot
  · split
    · exact hboot
    · exact h

end published
end Hoglet.Storage
