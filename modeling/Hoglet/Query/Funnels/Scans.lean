import Hoglet.Query.Funnels.Attempt
import Hoglet.Query.Plans

/-! The three scans that give every person's counting attempt: gathered in any order, by the person's hash, and in the
exact order. -/
namespace Hoglet.Query.Funnels

/-- An event of the source's relation within the query's range; `uuid` is the column's text. -/
structure Row where
  person : String
  ts : Int
  uuid : String
  event : String
  properties : String
  deriving DecidableEq, Repr

/-- A step, its filters as DuckDB evaluates them. -/
structure EventNode where
  event : Option String
  customName : Option String
  filters : Row → Bool

structure FunnelExclusion where
  event : String
  fromStep : Nat
  toStep : Nat

/-- The text of the breakdown's property, `NULL` when missing. -/
inductive PropertyText where
  | event (text : Row → Option String)
  | person (text : String → Option String)

structure Breakdown where
  text : PropertyText
  limit : Nat

structure FunnelsQuery where
  series : List EventNode
  filters : Row → Bool
  breakdown : Option Breakdown
  /-- In microseconds. -/
  funnelWindow : Int
  funnelOrder : FunnelOrder
  exclusions : List FunnelExclusion

def breakdownOther : String := "$$_other"
def breakdownNone : String := "$$_none"

/-- Breakdown text: missing and empty values become `$$_none`. -/
def breakdownExpr (text : Option String) : String :=
  match text with
  | none => breakdownNone
  | some text => if text = "" then breakdownNone else text

def PropertyText.read : PropertyText → Row → Option String
  | .event text, row => text row
  | .person text, row => text row.person

/-- One event as a scan hands it over; the breakdown is there when the query has one. -/
structure Entry where
  event : Event
  breakdown : Option (Option String)
  deriving DecidableEq, Repr

/-- One person's events as collected from a scan. The two vectors of the source, which are always pushed to together, are
one list. -/
structure Collected where
  person : String
  entries : List Entry

structure PersonOutcome where
  person : String
  times : List Int
  breakdown : Option String
  deriving DecidableEq, Repr

def exclusionBit : Nat := 32

def eventMatch (node : EventNode) (row : Row) : Bool :=
  match node.event with
  | some name => row.event = name
  | none => true

namespace FunnelsQuery
variable (q : FunnelsQuery)

def steps : Nat := q.series.length

def mask (row : Row) : Nat :=
  (q.series.mapIdx fun index node => if eventMatch node row && node.filters row && q.filters row then 1 <<< index else 0).sum +
    (q.exclusions.mapIdx fun index exclusion => if row.event = exclusion.event then 1 <<< (exclusionBit + index) else 0).sum

/-- The exclusions with their bits. -/
def taints : List Exclusion :=
  q.exclusions.mapIdx fun index exclusion => ⟨1 <<< (exclusionBit + index), exclusion.fromStep, exclusion.toStep⟩

def hasBreakdown : Bool := q.breakdown.isSome

def personBreakdown : Bool :=
  match q.breakdown with
  | some ⟨.person _, _⟩ => true
  | _ => false

def eventPrefilter (row : Row) : Bool :=
  if q.funnelOrder ≠ .strict ∧ q.series.all fun node => node.event.isSome then
    (q.series.filterMap EventNode.event ++ q.exclusions.map FunnelExclusion.event).contains row.event
  else true

def keep (row : Row) : Bool :=
  match q.funnelOrder with
  | .strict => true
  | .ordered | .unordered => q.mask row ≠ 0

/-- What every pass selects, whatever its partition. -/
def kept (row : Row) : Bool := q.eventPrefilter row && q.keep row

def entry (row : Row) : Entry where
  event := ⟨row.ts, q.mask row⟩
  breakdown := q.breakdown.map fun breakdown => some (breakdownExpr (breakdown.text.read row))

/-- The counting attempt of a person, with the breakdown of its anchor, or of any event for the person's own property. -/
def outcome (collected : Collected) : Option PersonOutcome :=
  (bestAttempt (collected.entries.map Entry.event) q.steps q.funnelWindow q.funnelOrder q.taints).map fun attempt =>
    { person := collected.person
      times := attempt.times
      breakdown := (collected.entries[if q.personBreakdown then 0 else attempt.anchor]?.bind Entry.breakdown).join }

/-- Whether two events with the same timestamp differ in anything the analysis reads. -/
def tieMatters : List Entry → Bool
  | first :: second :: rest =>
    (first.event.ts = second.event.ts && (first.event.mask ≠ second.event.mask ||
      q.hasBreakdown && first.breakdown ≠ second.breakdown)) || tieMatters (second :: rest)
  | _ => false

end FunnelsQuery

inductive OrderBy where
  | none | hash | person

/-- `h` of a person's hash. -/
def runHash (hash : String → Nat) (row : Row) : Nat := hash row.person >>> 1

def OrderBy.le (hash : String → Nat) : OrderBy → Row → Row → Prop
  | .none, _, _ => True
  | .hash, a, b => runHash hash a < runHash hash b ∨ runHash hash a = runHash hash b ∧ a.ts ≤ b.ts
  | .person, a, b => a.person < b.person ∨ a.person = b.person ∧ (a.ts < b.ts ∨ a.ts = b.ts ∧ a.uuid ≤ b.uuid)

/-- The query's connection. A scan delivers the rows of its condition in batches, in some order that its `ORDER BY` allows. -/
structure Ctx where
  events : List Row
  hash : String → Nat
  stream : (Row → Bool) → OrderBy → List (List Row)
  perm : ∀ condition order, (stream condition order).flatten.Perm (events.filter condition)
  sorted : ∀ condition order, (stream condition order).flatten.Pairwise (order.le hash)
  /-- From the files' row counts, at least 1. -/
  partitions : Nat
  partitions_pos : 0 < partitions
  funnelGatherBytes : Nat
  funnelMaxTied : Nat

/-- What the standard library leaves open: where an unstable sort puts equal keys, and the order of a map. -/
structure Std where
  sortUnstable : List Entry → List Entry
  sortUnstable_perm : ∀ entries, (sortUnstable entries).Perm entries
  sortUnstable_sorted : ∀ entries, (sortUnstable entries).Pairwise fun a b => a.event.ts ≤ b.event.ts
  drain : List Collected → List Collected
  drain_perm : ∀ people, (drain people).Perm people

def partitionClause (hash : String → Nat) (partition partitions : Nat) (row : Row) : Bool :=
  if partitions ≤ 1 then true else hash row.person % partitions = partition

def maxStreamedRows : Nat := 100000000

/-- Runs a query's batches through `each`. The deadline that is checked on every batch is left out. -/
def streamFrom {σ : Type} (each : σ → List Row → σ) : Nat → List (List Row) → σ → Except String σ
  | _, [], state => .ok state
  | rows, batch :: rest, state =>
    if maxStreamedRows < rows + batch.length then
      .error "the query produced too many intermediate rows; narrow the date range or filters"
    else streamFrom each (rows + batch.length) rest (each state batch)

section analyze
variable (q : FunnelsQuery) (ctx : Ctx) (std : Std)

def collect (row : Row) : List Collected → List Collected
  | [] => [⟨row.person, [q.entry row]⟩]
  | first :: rest =>
    if first.person = row.person then ⟨first.person, first.entries ++ [q.entry row]⟩ :: rest else first :: collect row rest

/-- Outcomes so far, and the persons whose ties matter. -/
structure Settled where
  outcomes : List PersonOutcome
  tied : List String

def arrowStreaming {σ : Type} (condition : Row → Bool) (order : OrderBy) (each : σ → List Row → σ) (state : σ) : Except String σ :=
  streamFrom each 0 (ctx.stream condition order) state

/-! The exact path. -/

structure Current where
  outcomes : List PersonOutcome
  current : Option Collected

def Current.finish (s : Current) : Current := ⟨s.outcomes ++ (s.current.bind q.outcome).toList, none⟩

def orderedRow (s : Current) (row : Row) : Current :=
  let s := if s.current.map Collected.person ≠ some row.person then { s.finish q with current := some ⟨row.person, []⟩ } else s
  { s with current := s.current.map fun collected => ⟨collected.person, collected.entries ++ [q.entry row]⟩ }

def orderedPartitions (only : Row → Bool) (partitions : Nat) : List Nat → List PersonOutcome → Except String (List PersonOutcome)
  | [], outcomes => .ok outcomes
  | partition :: rest, outcomes => do
    let s ← arrowStreaming ctx (fun row => partitionClause ctx.hash partition partitions row && only row && q.kept row) .person
      (List.foldl (orderedRow q)) ⟨outcomes, none⟩
    orderedPartitions only partitions rest (s.finish q).outcomes

def analyzeOrdered (tied : Option (List String)) : Except String (List PersonOutcome) :=
  match tied with
  | some tied => orderedPartitions q ctx (fun row => tied.contains row.person) 1 (List.range 1) []
  | none => orderedPartitions q ctx (fun _ => true) ctx.partitions (List.range ctx.partitions) []

/-- The persons whose ties matter are read again. -/
def withTied (settled : Settled) : Except String (List PersonOutcome) := do
  if settled.tied.isEmpty then return settled.outcomes
  return settled.outcomes ++ (← analyzeOrdered q ctx (some settled.tied))

/-! The gathering path. -/

def gatherPersonBytes : Nat := 112
def gatherEventsHint : Nat := 8
def gatherEventBytes : Nat := 16

structure Gathered where
  people : List Collected
  bytes : Nat
  overBudget : Bool

def gatherRow (s : Gathered) (row : Row) : Gathered :=
  let bytes := if s.people.any fun collected => collected.person = row.person then s.bytes
    else s.bytes + (gatherPersonBytes + row.person.utf8ByteSize + gatherEventsHint * gatherEventBytes)
  let breakdownBytes := match (q.entry row).breakdown with
    | none => 0
    | some value => 24 + (value.map String.utf8ByteSize).getD 0
  { s with people := collect q row s.people, bytes := bytes + (gatherEventBytes + breakdownBytes) }

def gatherBatch (s : Gathered) (batch : List Row) : Gathered :=
  if s.overBudget then s
  else
    let s := batch.foldl (gatherRow q) s
    if ctx.funnelGatherBytes < s.bytes then { s with people := [], overBudget := true } else s

def sortByTime (entries : List Entry) : List Entry :=
  if q.hasBreakdown then entries.mergeSort fun a b => a.event.ts ≤ b.event.ts else std.sortUnstable entries

def settleGathered : List Collected → Settled → Option Settled
  | [], settled => some settled
  | collected :: rest, settled =>
    let collected : Collected := ⟨collected.person, sortByTime q std collected.entries⟩
    if q.tieMatters collected.entries then
      if ctx.funnelMaxTied ≤ settled.tied.length then none
      else settleGathered rest { settled with tied := settled.tied ++ [collected.person] }
    else settleGathered rest { settled with outcomes := settled.outcomes ++ (q.outcome collected).toList }

def gatheredPartitions : List Nat → Settled → Except String (Option Settled)
  | [], settled => .ok (some settled)
  | partition :: rest, settled => do
    let s ← arrowStreaming ctx (fun row => partitionClause ctx.hash partition ctx.partitions row && q.kept row) .none
      (gatherBatch q ctx) ⟨[], 0, false⟩
    if s.overBudget then return none
    match settleGathered q ctx std (std.drain s.people) settled with
    | none => return none
    | some settled => gatheredPartitions rest settled

def analyzeGathered : Except String (Option (List PersonOutcome)) := do
  match ← gatheredPartitions q ctx std (List.range ctx.partitions) ⟨[], []⟩ with
  | none => return none
  | some settled => return some (← withTied q ctx settled)

/-! The path by hash. -/

/-- The rows of one hash value, and what the runs before it settled. -/
structure HashRun where
  settled : Settled
  overflow : Bool
  runHash : Option Nat
  run : List Collected

def settleRun : List Collected → Settled → Bool → Settled × Bool
  | [], settled, overflow => (settled, overflow)
  | collected :: rest, settled, overflow =>
    if q.tieMatters collected.entries then
      if ctx.funnelMaxTied ≤ settled.tied.length then settleRun rest settled true
      else settleRun rest { settled with tied := settled.tied ++ [collected.person] } overflow
    else settleRun rest { settled with outcomes := settled.outcomes ++ (q.outcome collected).toList } overflow

def HashRun.finish (s : HashRun) : HashRun :=
  let (settled, overflow) := settleRun q ctx s.run s.settled s.overflow
  { s with settled := settled, overflow := overflow, run := [] }

def hashRow (s : HashRun) (row : Row) : HashRun :=
  let s := if s.runHash ≠ some (runHash ctx.hash row) then { s.finish q ctx with runHash := some (runHash ctx.hash row) } else s
  { s with run := collect q row s.run }

def hashPartitions : List Nat → Settled → Bool → Except String (Option Settled)
  | [], settled, _ => .ok (some settled)
  | partition :: rest, settled, overflow => do
    let s ← arrowStreaming ctx (fun row => partitionClause ctx.hash partition ctx.partitions row && q.kept row) .hash
      (List.foldl (hashRow q ctx)) ⟨settled, overflow, none, []⟩
    let s := s.finish q ctx
    if s.overflow then return none
    hashPartitions rest s.settled s.overflow

def analyzeByHash : Except String (Option (List PersonOutcome)) := do
  match ← hashPartitions q ctx (List.range ctx.partitions) ⟨[], []⟩ false with
  | none => return none
  | some settled => return some (← withTied q ctx settled)

/-- Every person's outcome: the gathering path, and the sorted ones where it gives up. -/
def analyze : Except String (List PersonOutcome) := do
  match ← analyzeGathered q ctx std with
  | some outcomes => return outcomes
  | none =>
    match ← analyzeByHash q ctx with
    | some outcomes => return outcomes
    | none => analyzeOrdered q ctx none

end analyze
end Hoglet.Query.Funnels
