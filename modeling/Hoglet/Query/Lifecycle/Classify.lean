import Hoglet.Query.Buckets
import Hoglet.Query.Trends.Answer
import Hoglet.Runs

/-! Lifecycle: for each bucket the persons who are new, returning, resurrecting, or went dormant. -/
namespace Hoglet.Query.Lifecycle
open Capture
open Funnels (maxStreamedRows)
open Trends (Event bucketExpr eventMatch)

structure LifecycleQuery where
  series : Trends.EventNode
  dateRange : DateRange
  interval : Interval
  properties : List Trends.Filter

/-- What the plan of a query depends on. -/
def LifecycleQuery.planned (q : LifecycleQuery) : Query.LifecycleQuery := ⟨q.dateRange, q.interval⟩

inductive LifecycleStatus where
  | new | returning | resurrecting | dormant
  deriving DecidableEq, Repr

def LifecycleStatus.slot : LifecycleStatus → Nat
  | .new => 0
  | .returning => 1
  | .resurrecting => 2
  | .dormant => 3

/-- The query's connection; events are instants of the calendar, and persons are in the partition of their hash. -/
structure Ctx extends Trends.Ctx where
  instants : ∀ e ∈ events, minUs ≤ e.ts ∧ e.ts ≤ maxUs
  hash : String → Nat
  /-- From the files' row counts, at least 1. -/
  partitions : Nat
  partitions_pos : 0 < partitions

/-- Counts per bucket, and the persons of one cell. -/
structure Classified where
  counts : List (List Nat)
  kept : List String

structure Row where
  person : String
  bucket : Int
  firstTs : Int
  deriving DecidableEq

/-- The buckets a person was active in, and the first event. -/
structure Activity where
  active : List Int
  first : Int

structure LifecycleResult where
  new : List Int
  returning : List Int
  resurrecting : List Int
  dormant : List Int
  deriving DecidableEq, Repr

def partitionClause (hash : String → Nat) (partition partitions : Nat) (person : String) : Bool :=
  if partitions ≤ 1 then true else hash person % partitions = partition

section classify
variable (C : Chrono) (ctx : Ctx) (q : LifecycleQuery) (plan : Period)

/-- The bucket before the first one; there is always a first one. -/
def previous : Int := previousBucket C (plan.buckets.headD 0) plan.range.interval

/-- The bucket before one of the range. -/
def before (k : Nat) : Int := if k = 0 then previous C plan else plan.buckets.getD (k - 1) 0

def predicate (e : Event) : Bool :=
  eventMatch q.series e && ctx.filters q.series.properties e && ctx.filters q.properties e

/-- `m`: the matching events of a partition, from the first one ever on. -/
def matching (partition : Nat) : List Event :=
  (ctx.events.filter fun e => e.ts < plan.range.toUs).filter fun e =>
    predicate ctx q e && partitionClause ctx.hash partition ctx.partitions (ctx.person e)

/-- `f`: each person's first event. -/
def firsts (events : List Event) : List (String × Int) :=
  (groups ctx.person events).map fun g => (g.1, (g.2.map Event.ts).min?.getD 0)

/-- `a`: the buckets each person was active in. -/
def activeBuckets (events : List Event) : List (String × Int) :=
  ((events.filter fun e => previous C plan ≤ e.ts).map fun e => (ctx.person e, bucketExpr plan.range.interval e.ts)).dedup

def personOrder (a b : Row) : Prop := a.person ≤ b.person

instance : DecidableRel personOrder := fun a b => inferInstanceAs (Decidable (a.person ≤ b.person))

def partitionRows (partition : Nat) : List Row :=
  let m := matching ctx q plan partition
  (ctx.arrange ((activeBuckets C ctx plan m).flatMap fun a =>
    ((firsts ctx m).filter fun f => f.1 = a.1).map fun f => ⟨a.1, a.2, f.2⟩)).insertionSort personOrder

/-- The rows of a query, of which there may be too many. The deadline that is checked on every batch is left out. -/
def arrow (rows : List Row) : Except String (List Row) :=
  if maxStreamedRows < rows.length then .error "the query produced too many intermediate rows; narrow the date range or filters"
  else .ok rows

/-- One person's status in a bucket. -/
def status (activity : Activity) (k : Nat) (start : Int) : Option LifecycleStatus :=
  if start ∈ activity.active then
    if trunc C activity.first plan.range.interval = start then some .new
    else if before C plan k ∈ activity.active then some .returning
    else some .resurrecting
  else if before C plan k ∈ activity.active then some .dormant
  else none

def finish (keep : Option (LifecycleStatus × Nat)) (s : Classified) (person : String) (activity : Activity) : Classified :=
  plan.buckets.zipIdx.foldl (fun s (start, k) =>
    match status C plan activity k start with
    | none => s
    | some status =>
      ⟨s.counts.modify k fun slots => slots.modify status.slot (· + 1), if keep = some (status, k) then s.kept ++ [person] else s.kept⟩) s

/-- Only the buckets of the range and the one before it are noted. -/
def note (activity : Activity) (row : Row) : Activity :=
  ⟨if row.bucket = previous C plan ∨ row.bucket ∈ plan.buckets then row.bucket :: activity.active else activity.active, row.firstTs⟩

/-- The person whose rows are being read is carried from one partition to the next. -/
def classifyFrom (keep : Option (LifecycleStatus × Nat)) :
    List Nat → Stream Classified String Activity → Except String (Stream Classified String Activity)
  | [], s => .ok s
  | partition :: rest, s => do
    let rows ← arrow (partitionRows C ctx q plan partition)
    classifyFrom keep rest (rows.foldl (Stream.step Row.person (fun _ => ⟨[], 0⟩) (note C plan) (finish C plan keep)) s)

def classify (keep : Option (LifecycleStatus × Nat)) : Except String Classified := do
  let s ← classifyFrom C ctx q plan keep (List.range ctx.partitions) ⟨⟨plan.buckets.map fun _ => [0, 0, 0, 0], []⟩, none⟩
  return s.finish (finish C plan keep)

/-- The texts of the buckets are left out. -/
def run : Except String LifecycleResult := do
  let c ← classify C ctx q plan none
  let column (status : LifecycleStatus) : List Int := c.counts.map fun slots => (slots.getD status.slot 0 : Int)
  return ⟨column .new, column .returning, column .resurrecting, (column .dormant).map (- ·)⟩

def actors (status : LifecycleStatus) (day : String) : Except String (List String) :=
  match (parseInstant C day).bind fun day => plan.buckets.findIdx? (· = day) with
  | none => .error "day is not a bucket of this query"
  | some bucket => do return (← classify C ctx q plan (some (status, bucket))).kept

end classify
end Hoglet.Query.Lifecycle
