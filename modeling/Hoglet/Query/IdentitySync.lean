import Hoglet.Projections.Overrides

/-! The override mirror of the query engine: the separate reads of `overrides_since`, the statements of
`IdentitySync::sync`, commits of the projections between any two of them, and the queries that read the
shared table meanwhile. -/
namespace Hoglet.Query
open Projections Capture

/-- Project and distinct id. -/
abbrev Key := String × String

def maxOverrideBatch : Nat := 100000
def maxSyncBatches : Nat := 1000

/-- `changes` are distinct ids with the person they point to. -/
structure OverrideBatch where
  epoch : Nat
  maxSeq : Nat
  changes : List (Key × String)
  truncated : Bool

/-- The rows of the second statement, before its order and limit. -/
def changedRows (tables : Tables) (after upto : Nat) : List (Key × DistinctIdRow) :=
  tables.distinctIds.select fun _ r => after < r.seq && r.seq ≤ upto

/-- The rows of the third statement. -/
def stampedRows (tables : Tables) (seq : Nat) : List (Key × DistinctIdRow) :=
  tables.distinctIds.select fun _ r => r.seq = seq

def change (row : Key × DistinctIdRow) : Key × String := (row.1, row.2.personId)

/-- What `overrides_since` makes of the rows in order of their seq: a batch, or one seq that alone is too
large for a batch and whose rows a third statement fetches. The limit is a row more than a batch. -/
def cutBatch (after seq epoch : Nat) (rows : List (Key × DistinctIdRow)) : OverrideBatch ⊕ Nat :=
  let changes := rows.take maxOverrideBatch
  if rows.length ≤ maxOverrideBatch then .inl ⟨epoch, max seq after, changes.map change, false⟩
  else
    let last := (changes.getLast?.map fun row => row.2.seq).getD after
    if changes.any fun row => row.2.seq < last then
      .inl ⟨epoch, last - 1, (changes.filter fun row => row.2.seq < last).map change, true⟩
    else .inr last

/-- `apply`: staged keys are deleted, and those that are overrides inserted. -/
def applyChanges (overrides changes : List (Key × String)) : List (Key × String) :=
  (overrides.filter fun o => !changes.any fun c => c.1 = o.1) ++ changes.filter fun c => c.2 ≠ c.1.2

/-- Where the one call of `sync` is, with the batches it has left: `before` is what the projections were
when the counter was read. -/
inductive Phase where
  | idle
  | fetching (left : Nat)
  | counted (left : Nat) (before : Tables)
  | splitting (left epoch last : Nat)
  | fetched (left : Nat) (before : Tables) (batch : OverrideBatch)

/-- The projections with every state ever committed, the shared table, the mirror's epoch and seq, the call
of `sync` under the lock, whether no commit has happened since it began, and the labels of the queries
that are running. -/
structure Engine where
  tables : Tables
  history : List Tables
  overrides : List (Key × String)
  epoch : Option Nat
  seq : Nat
  phase : Phase
  quiet : Bool
  running : List (Nat × Nat)

def Engine.fresh : Engine := ⟨.empty, [.empty], [], none, 0, .idle, false, []⟩

inductive Act where
  | commit | call | count | read | rest | clear | apply | fail | finish
  deriving DecidableEq

/-- Another epoch than the mirror's: the table is emptied, and the batch used if it was read from the start. -/
def Engine.cleared (s : Engine) (left : Nat) (before : Tables) (batch : OverrideBatch) : Engine :=
  let phase := if s.seq = 0 then .fetched left before batch else .fetching left
  { s with overrides := [], epoch := some batch.epoch, seq := 0, phase }

/-- What `sync` does with a batch of its own epoch: the rest of the loop, or the label it returns. -/
def Engine.reply (s : Engine) (left : Nat) (batch : OverrideBatch) : Engine :=
  let s := { s with overrides := applyChanges s.overrides batch.changes, seq := batch.maxSeq }
  if batch.truncated then { s with phase := .fetching left }
  else { s with phase := .idle, running := (batch.epoch, batch.maxSeq) :: s.running }

def cutPhase (left : Nat) (before : Tables) (after : Nat) (rows : List (Key × DistinctIdRow)) : Phase :=
  match cutBatch after before.identityState.seq before.identityState.epoch rows with
  | .inl batch => .fetched left before batch
  | .inr last => .splitting left before.identityState.epoch last

section step
variable {ν U : Type} (K : Crates ν U)

inductive Step : Act → Engine → Engine → Prop
  | commit (s : Engine) (tables : Tables) (h : Commits K s.tables tables) :
      Step .commit s { s with tables, history := s.history ++ [tables], quiet := false }
  | call (s : Engine) (h : s.phase = .idle) : Step .call s { s with phase := .fetching maxSyncBatches, quiet := true }
  | count (s : Engine) (left : Nat) (h : s.phase = .fetching (left + 1)) :
      Step .count s { s with phase := .counted left s.tables }
  | read (s : Engine) (left : Nat) (before : Tables) (h : s.phase = .counted left before) (rows : List (Key × DistinctIdRow))
      (hrows : rows.Perm (changedRows s.tables s.seq before.identityState.seq))
      (hsorted : rows.Pairwise fun a b => a.2.seq ≤ b.2.seq) :
      Step .read s { s with phase := cutPhase left before s.seq rows }
  | rest (s : Engine) (left epoch last : Nat) (h : s.phase = .splitting left epoch last)
      (rows : List (Key × DistinctIdRow)) (hrows : rows.Perm (stampedRows s.tables last)) :
      Step .rest s { s with phase := .fetched left s.tables ⟨epoch, last, rows.map change, true⟩ }
  | clear (s : Engine) (left : Nat) (before : Tables) (batch : OverrideBatch) (h : s.phase = .fetched left before batch)
      (hepoch : s.epoch ≠ some batch.epoch) :
      Step .clear s (s.cleared left before batch)
  | apply (s : Engine) (left : Nat) (before : Tables) (batch : OverrideBatch) (h : s.phase = .fetched left before batch)
      (hepoch : s.epoch = some batch.epoch) : Step .apply s (s.reply left batch)
  /-- A failed statement, or no batch left. -/
  | fail (s : Engine) (h : s.phase ≠ .idle) : Step .fail s { s with phase := .idle }
  /-- A statement reported as failed that had its effect. -/
  | failClear (s : Engine) (left : Nat) (before : Tables) (batch : OverrideBatch) (h : s.phase = .fetched left before batch)
      (hepoch : s.epoch ≠ some batch.epoch) : Step .clear s { s with overrides := [], phase := .idle }
  | failApply (s : Engine) (left : Nat) (before : Tables) (batch : OverrideBatch) (h : s.phase = .fetched left before batch)
      (hepoch : s.epoch = some batch.epoch) :
      Step .apply s { s with overrides := applyChanges s.overrides batch.changes, phase := .idle }
  | finish (s : Engine) (label : Nat × Nat) (h : label ∈ s.running) :
      Step .finish s { s with running := s.running.erase label }

end step

/-- The rows of distinct_ids that point to another id. -/
def overrideRows (tables : Tables) : List (Key × String) :=
  (tables.distinctIds.select fun k r => r.personId ≠ k.2).map change

/-- A distinct id through the mirror, as queries resolve it. -/
def resolve (overrides : List (Key × String)) (k : Key) : String := (lookupRow overrides k).getD k.2

end Hoglet.Query
