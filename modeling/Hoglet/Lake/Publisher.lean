import Hoglet.Capture.Batch
import Hoglet.Lake.World

/-! Publication: one window of log records becomes identity effects, catalogue entries, one event file for
each project and day, and a new checkpoint, in one transaction. -/
namespace Hoglet.Lake
open Capture Projections

/-- `date_naive()` as a day. -/
def eventDay {ν U : Type} (e : CapturedEvent ν U) : NaiveDate := e.timestamp.ns / nsPerDay

/-- The project of every event, in order. -/
def projectIds {ν U : Type} (batch : CapturedBatch ν U) : Option (List String) := batch.events.mapM batch.projectIdFor

structure Published where
  generation : Nat
  checkpoint : Wal.WalCursor
  events : Nat
  files : Nat
  oldestEventMs : Option Int
  deriving DecidableEq, Repr

section window
variable {ν U : Type} [DecidableEq U] (K : Crates ν U)

/-- The effects of one record's events, without those a window has seen; what is left of them, and what
the window has seen then. -/
def publishEvents : List (String × CapturedEvent ν U) → List (String × U) →
    EStateM PipelineError Tables (List (String × CapturedEvent ν U) × List (String × U))
  | [], seen => return ([], seen)
  | (projectId, event) :: rest, seen =>
    if (projectId, event.uuid) ∈ seen then publishEvents rest seen
    else do
      match applyIdentityEffects K projectId event (← get) with
      | .ok _ tables => set tables
      | .error e _ => throw (.projection e)
      let (kept, seen) ← publishEvents rest ((projectId, event.uuid) :: seen)
      return ((projectId, event) :: kept, seen)

def publishRecords : List (CapturedBatch ν U) → List (String × U) →
    EStateM PipelineError Tables (List (String × CapturedEvent ν U))
  | [], _ => return []
  | batch :: rest, seen => do
    let some ids := projectIds batch | throw .missingProjectBinding
    let (kept, seen) ← publishEvents K (ids.zip batch.events) seen
    return kept ++ (← publishRecords rest seen)

def partitionKey (m : String × CapturedEvent ν U) : String × NaiveDate := (m.1, eventDay m.2)

/-- The files of a window: the events of each project and day, by name and time. -/
def partitionsOf (kept : List (String × CapturedEvent ν U)) : List ((String × NaiveDate) × Content ν U) :=
  let keys := (kept.map partitionKey).dedup.mergeSort fun a b => a.1 < b.1 ∨ a.1 = b.1 ∧ a.2 ≤ b.2
  keys.map fun k => (k, ((kept.filter fun m => partitionKey m = k).map Prod.snd).mergeSort
    fun a b => a.event < b.event ∨ a.event = b.event ∧ a.timestamp.ns ≤ b.timestamp.ns)

/-- Capture time of the oldest record that has one. -/
def oldestReceived (records : List (CapturedBatch ν U)) : Option Int :=
  ((records.map (·.receivedAtMs.toInt)).filter (0 < ·)).min?

end window

section publisher
variable {ν U : Type} [DecidableEq U] (m : Machine) (K : Crates ν U)

/-- Writes the files of the partitions and inserts their rows; the outcome, and the files written by then. -/
def publishFiles (generation : Nat) (now : Int) : Nat → List ((String × NaiveDate) × Content ν U) → Database →
    Steps ν U (Except PipelineError (Database × List LakeFile) × List Path)
  | _, [], tx => return (.ok (tx, []), [])
  | index, ((projectId, day), content) :: rest, tx => do
    let path := filePath projectId day (.published generation index)
    match ← attempt (writeFile m .io path content) with
    | .error e => return (.error e, [])
    | .ok bytes =>
      match ← attempt (statement m (tx.insertFile ⟨projectId, day, path, content.length, bytes, 0⟩ generation now)) with
      | .error e => return (.error e, [path])
      | .ok (tx, file) => do
        let (result, written) ← publishFiles generation now (index + 1) rest tx
        return (result.map fun (tx, added) => (tx, file :: added), path :: written)

def removeFiles : List Path → Steps ν U Unit
  | [] => return
  | path :: rest => do
    ignoringErrors (removeFile m path)
    removeFiles rest

/-- What `publishRecords` and the catalogue's flush give, as results of statements. -/
def recordsApplied (records : List (CapturedBatch ν U)) (tables : Tables) :
    Except PipelineError (List (String × CapturedEvent ν U) × Tables) :=
  match publishRecords K records [] tables with
  | .ok kept tables => .ok (kept, tables)
  | .error e _ => .error e

def catalogFlushed (kept : List (String × CapturedEvent ν U)) (catalog : Catalog) : Except PipelineError Catalog :=
  match (kept.foldl (fun batch e => CatalogBatch.add K e.1 e.2 batch) .empty).flush catalog with
  | some catalog => .ok catalog
  | none => .error (.projection .database)

def reclaimThrough (reclaim : Wal.WalCursor → Except Wal.WalError Unit) (c : Wal.WalCursor) : Steps ν U Unit :=
  match reclaim c with
  | .ok _ => return
  | .error e => throw (.wal e)

/-- Publishes the records of a window, in one transaction. -/
def publishRead (reclaim : Wal.WalCursor → Except Wal.WalError Unit) (now : Int) (db : Database)
    (records : List (CapturedBatch ν U)) (nextCheckpoint : Wal.WalCursor) : Steps ν U Published := do
  statement m (.ok ())
  let (kept, tables) ← statement m (recordsApplied K records db.tables)
  let catalog ← statement m (catalogFlushed K kept db.catalog)
  let generation := db.state.generation + 1
  let (result, written) ← publishFiles m generation now 0 (partitionsOf kept) { db with tables, catalog }
  match result with
  | .error e =>
    removeFiles m written
    throw e
  | .ok (tx, added) =>
    let tx ← statement m (Database.advanceState db.state (some nextCheckpoint) tx)
    commit m tx
    activate generation added []
    reclaimThrough reclaim nextCheckpoint
    return ⟨generation, nextCheckpoint, kept.length, added.length, oldestReceived records⟩

/-- Publishes at most one window; `none` when nothing sealed is pending. `read` is what the log's reader
gives from a checkpoint, and `reclaim` what it answers when it removes the segments before one. -/
def publishWindow (read : Wal.WalCursor → Except Wal.WalError (List (CapturedBatch ν U) × Wal.WalCursor))
    (reclaim : Wal.WalCursor → Except Wal.WalError Unit) (now : Int) : Steps ν U (Option Published) := do
  statement m (.ok ())
  let db := (← get).db
  match read db.state.checkpoint with
  | .error e => throw (.wal e)
  | .ok (records, nextCheckpoint) =>
    if records.isEmpty then
      if nextCheckpoint = db.state.checkpoint then return none
      reclaimThrough reclaim db.state.checkpoint
      return none
    return some (← publishRead m K reclaim now db records nextCheckpoint)

end publisher
end Hoglet.Lake
