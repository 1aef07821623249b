import Hoglet.Explore.Visits
import Hoglet.Islands
import Hoglet.Query.Funnels.Scans

/-! Trends without a formula: one aggregate per series per interval bucket, from masks of activity bits or from the
general SQL, and the persons behind a point. -/
namespace Hoglet.Query.Trends
open Explore (bit bitOr personOf dateTrunc)
open Funnels (breakdownExpr breakdownOther)

/-- An event of the source's relation. -/
structure Event where
  event : String
  ts : Int
  distinctId : String
  sessionId : Option String
  properties : String
  deriving DecidableEq, Repr

/-- A filter with its test of the property's text, which is `NULL` when missing. -/
structure Filter extends PropertyFilter where
  test : Option String → Bool

structure EventNode where
  event : Option String
  properties : List Filter
  math : Math
  /-- The value of `math_property`, `NULL` unless strictly decimal. -/
  number : Event → Option Rat

structure Breakdown extends Query.Breakdown where
  limit : Nat

structure TrendsQuery where
  series : List EventNode
  dateRange : DateRange
  interval : Interval
  properties : List Filter
  breakdown : Option Breakdown
  compare : Bool

/-- What the plan of a query depends on. -/
def TrendsQuery.planned (q : TrendsQuery) : Query.TrendsQuery where
  series := q.series.map fun node => ⟨node.properties.map Filter.toPropertyFilter, node.math⟩
  dateRange := q.dateRange
  interval := q.interval
  properties := q.properties.map Filter.toPropertyFilter
  breakdown := q.breakdown.map Breakdown.toBreakdown
  compare := q.compare

/-- The query's connection: the leased events, the identity overrides of the project, the texts of properties, the
aggregates of numbers, and the order in which rows come where none is asked for. -/
structure Ctx where
  events : List Event
  overrides : String → Option String
  eventText : String → Event → Option String
  personText : String → String → Option String
  quantity : Math → List Rat → Option Rat
  arrange : {α : Type} → List α → List α
  arrange_perm : ∀ {α : Type} (rows : List α), (arrange rows).Perm rows

theorem perm_id {α : Type} (rows : List α) : (id rows).Perm rows := .refl rows

/-- Top breakdown values of one series. -/
structure Top where
  values : List String
  other : Bool
  deriving DecidableEq, Repr

/-- As returned by the aggregate: of the whole range or of a bucket. -/
structure Row where
  whole : Bool
  bucket : Option Int
  breakdown : Option String
  value : Option Rat

structure Computed where
  breakdown : Option String
  data : List Rat
  aggregated : Rat
  deriving DecidableEq

structure TrendSeries where
  seriesIndex : Option Nat
  breakdownValue : Option String
  compare : Option String
  data : List Rat
  aggregatedValue : Rat
  deriving DecidableEq

def floorExpr (ts unit origin : Int) : Int := ts - ((ts - origin).tmod unit + unit).tmod unit

/-- Start of the bucket containing `ts`. -/
def bucketExpr (interval : Interval) (ts : Int) : Int :=
  match interval with
  | .hour => floorExpr ts hourUs 0
  | .day => floorExpr ts dayUs 0
  | .week => floorExpr ts weekUs weekOriginUs
  | .month => dateTrunc ts .month

namespace Ctx
variable (ctx : Ctx)

def relation (fromUs toUs : Int) : List Event := ctx.events.filter fun e => fromUs ≤ e.ts ∧ e.ts < toUs

/-- The distinct id resolved through the identity overrides. -/
def person (e : Event) : String := personOf ctx.overrides e.distinctId

def propertyText (source : PropertySource) (key : String) (e : Event) : Option String :=
  match source with
  | .event => ctx.eventText key e
  | .person => ctx.personText key (ctx.person e)

def filters (filters : List Filter) (e : Event) : Bool :=
  filters.all fun filter => filter.test (ctx.propertyText filter.source filter.key e)

end Ctx

def eventMatch (node : EventNode) (e : Event) : Bool :=
  match node.event with
  | some name => e.event = name
  | none => true

section series
variable (C : Chrono) (ctx : Ctx) (q : TrendsQuery)

def predicate (node : EventNode) (e : Event) : Bool :=
  eventMatch node e && ctx.filters node.properties e && ctx.filters q.properties e

def breakdownText (e : Event) : Option String :=
  q.breakdown.map fun breakdown => breakdownExpr (ctx.propertyText breakdown.source breakdown.property e)

/-- `ORDER BY c DESC, bd ASC`. -/
def topOrder (a b : Option String × Nat) : Prop := b.2 < a.2 ∨ a.2 = b.2 ∧ a.1.getD "" ≤ b.1.getD ""

instance : DecidableRel topOrder := fun _ _ => inferInstanceAs (Decidable (_ ∨ _))

def topValues (node : EventNode) (range : ResolvedRange) : Option Top :=
  q.breakdown.map fun breakdown =>
    let events := (ctx.relation range.fromUs range.toUs).filter (predicate ctx q node)
    let counts := (groups (breakdownText ctx q) events).map fun g => (g.1, g.2.length)
    let values := ((counts.insertionSort topOrder).filterMap Prod.fst).take (breakdown.limit + 1)
    ⟨values.take breakdown.limit, breakdown.limit < values.length⟩

/-- Breakdown expression with non-top values folded into `$$_other`. -/
def mappedBreakdown (text : String) (top : Top) : String :=
  if top.values = [] then breakdownOther else if text ∈ top.values then text else breakdownOther

/-- `bd`: the breakdown of an event, `NULL` without one. -/
def breakdownKey (top : Option Top) (e : Event) : Option String :=
  match breakdownText ctx q e, top with
  | some text, some top => some (mappedBreakdown text top)
  | _, _ => none

def aggregate (node : EventNode) (events : List Event) : Option Rat :=
  match node.math with
  | .total | .weeklyActive | .monthlyActive => some events.length
  | .dau => some (events.map ctx.person).dedup.length
  | .uniqueSession => some (events.filterMap Event.sessionId).dedup.length
  | math => ctx.quantity math (events.filterMap node.number)

def granule : Interval → Interval
  | .hour => .hour
  | _ => .day

/-! Masks of activity bits. -/

/-- A distinct id, or a person, with a breakdown: the granules it was active in, and whether in the range. -/
structure Active where
  id : String
  breakdown : Option String
  masks : List Nat
  inRange : Bool

structure MaskRow where
  breakdown : Option String
  bits : List Nat
  inRange : Bool
  count : Nat

/-- The bit of a granule in one of the words. -/
def wordBit (words word : Nat) (i : Int) : Nat := if words = 1 then 1 <<< i.toNat else bit word i

section masks
variable (index : Event → Int) (fromUs : Int) (words : Nat) (top : Option Top)

def activeIds (events : List Event) : List Active :=
  (groups (fun e => (e.distinctId, breakdownKey ctx q top e)) events).map fun g =>
    ⟨g.1.1, g.1.2, (List.range words).map fun word => bitOr (g.2.map fun e => wordBit words word (index e)),
      g.2.any fun e => fromUs ≤ e.ts⟩

def activePersons (ids : List Active) : List Active :=
  (groups (fun active => (personOf ctx.overrides active.id, active.breakdown)) ids).map fun g =>
    ⟨g.1.1, g.1.2, (List.range words).map fun word => bitOr (g.2.map fun active => active.masks.getD word 0),
      g.2.any Active.inRange⟩

def maskRows (persons : List Active) : List MaskRow :=
  (groups (fun active => (active.breakdown, active.masks, active.inRange)) persons).map fun g =>
    ⟨g.1.1, g.1.2.1, g.1.2.2, g.2.length⟩

end masks

/-- The scan of `span_has_bit` from `at` on; the room bounds its turns. -/
def spanHasBitFrom (words : List Nat) (hi : Nat) : Nat → Nat → Bool
  | 0, _ => false
  | room + 1, start =>
    if start < hi then
      let take := min (64 - start % 64) (hi - start)
      let mask := if take = 64 then 2^64 - 1 else (2^take - 1) <<< (start % 64)
      if words[start / 64]?.any fun bits => bits &&& mask ≠ 0 then true else spanHasBitFrom words hi room (start + take)
    else false

/-- Is any bit in `[lo, hi)` set across the 64-bit words? -/
def spanHasBit (words : List Nat) (lo hi : Nat) : Bool := spanHasBitFrom words hi (hi - lo) lo

/-- Window of a bucket as a granule range. -/
def granuleSpan (math : Math) (interval : Interval) (base unit : Int) (granules : Nat) (bucket : Int) : Nat × Nat :=
  let stop := nextBucket C bucket interval
  let start := (math.windowDays.map fun days => stop - days * dayUs).getD bucket
  (((start - base) / unit).toNat, min ((stop - base) / unit).toNat granules)

/-- Persons per bucket, of the mask rows of one breakdown value. -/
def bucketCounts (spans : List (Nat × Nat)) (rows : List MaskRow) : List Nat :=
  rows.foldl (fun counts row => List.zipWith (fun slot span => if spanHasBit row.bits span.1 span.2 then slot + row.count else slot)
    counts spans) (List.replicate spans.length 0)

/-- Persons of the mask rows of one breakdown value; for a window those in the range. -/
def wholeCount (math : Math) (rows : List MaskRow) : Nat :=
  ((rows.filter fun row => math.windowDays.isNone || row.inRange).map MaskRow.count).sum

/-- The rows of the aggregate, and those of the whole range that a window takes from a query of its own. -/
abbrev Masked := List Row × List (Option String × Option Rat)

def maskedRows (node : EventNode) (period : Period) (spans : List (Nat × Nat)) (masks : List MaskRow) : Masked :=
  let perBucket := ctx.arrange (groups MaskRow.breakdown (ctx.arrange masks))
  let cells (g : Option String × List MaskRow) : List Row :=
    ((period.buckets.zip (bucketCounts spans g.2)).filter fun slot => 0 < slot.2).map fun slot => ⟨false, some slot.1, g.1, some slot.2⟩
  if node.math.windowDays.isNone then
    (perBucket.flatMap fun g => cells g ++ [⟨true, none, g.1, some (wholeCount node.math g.2)⟩], [])
  else (perBucket.flatMap cells, perBucket.map fun g => (g.1, some (wholeCount node.math g.2)))

/-- `None` when the query does not fit: the caller then runs the general SQL. -/
def activeMasks (node : EventNode) (period : Period) (top : Option Top) : Option Masked :=
  (maskFrom C (personKeys q.planned) node.math period).bind fun _ => period.buckets.head?.bind fun first =>
    (maskGranules C node.math period first).map fun (loadFrom, base, unit) =>
      let granules := (max ((period.range.toUs - base + unit - 1) / unit) 1).toNat
      let words := (granules + 63) / 64
      let granuleInterval := if node.math.windowDays.isNone then period.range.interval else .day
      let index (e : Event) := (bucketExpr granuleInterval e.ts - base) / unit
      let events := (ctx.relation loadFrom period.range.toUs).filter (predicate ctx q node)
      let persons := activePersons ctx words (activeIds ctx q index period.range.fromUs words top events)
      maskedRows ctx node period (period.buckets.map (granuleSpan C node.math period.range.interval base unit granules))
        (maskRows persons)

/-! The general SQL. -/
section general
variable (node : EventNode) (period : Period) (top : Option Top)

/-- Each person's coverage by breakdown, merged into islands. -/
def personIslands (days : Int) : List (Option String × Island) :=
  let events := (ctx.relation (windowFrom C days period) period.range.toUs).filter (predicate ctx q node)
  let pairs := (events.map fun e =>
    ((ctx.person e, breakdownKey ctx q top e), bucketExpr (granule period.range.interval) e.ts)).dedup
  (groups Prod.fst pairs).flatMap fun part =>
    (islands (days * dayUs) (part.2.map Prod.snd)).map fun island => (part.1.2, island)

def windowRows (days : Int) : List Row :=
  let windows := period.buckets.map fun bucket => (bucket, nextBucket C bucket period.range.interval)
  let joined := windows.flatMap fun w =>
    ((personIslands C ctx q node period top days).filter fun i => i.2.Holds w.2).map fun i => (w.1, i.1)
  (groups id joined).map fun g => ⟨false, some g.1.1, g.1.2, some g.2.length⟩

def rangeRows : List (Option String × Option Rat) :=
  let events := (ctx.relation period.range.fromUs period.range.toUs).filter (predicate ctx q node)
  (groups (breakdownKey ctx q top) events).map fun g => (g.1, some (g.2.map ctx.person).dedup.length)

/-- `GROUP BY GROUPING SETS ((b, bd), (bd))`. -/
def groupingSets : List Row :=
  let events := (ctx.relation period.range.fromUs period.range.toUs).filter (predicate ctx q node)
  (groups (fun e => (bucketExpr period.range.interval e.ts, breakdownKey ctx q top e)) events).map
      (fun g => ⟨false, some g.1.1, g.1.2, aggregate ctx node g.2⟩) ++
    (groups (breakdownKey ctx q top) events).map fun g => ⟨true, none, g.1, aggregate ctx node g.2⟩

def generalRows : Masked :=
  match node.math.windowDays with
  | some days => (ctx.arrange (windowRows C ctx q node period top days), ctx.arrange (rangeRows ctx q node period top))
  | none => (ctx.arrange (groupingSets ctx q node period top), [])

end general

/-! The series of the rows. -/
section listed
variable (buckets : List Int)

/-- The computed series by breakdown value. -/
abbrev ByKey := Option String → Option Computed

def zeros (key : Option String) : Computed := ⟨key, List.replicate buckets.length 0, 0⟩

def ByKey.entry (map : ByKey) (key : Option String) : Computed := (map key).getD (zeros buckets key)

/-- The position of a bucket; of equal ones the last. -/
def position (bucket : Int) : Option Nat := (buckets.zipIdx.reverse.find? fun slot => slot.1 = bucket).map Prod.snd

def ByKey.read (map : ByKey) (row : Row) : ByKey :=
  let computed := map.entry buckets row.breakdown
  let value := row.value.getD 0
  Function.update map row.breakdown <| some <|
    if row.whole then { computed with aggregated := value }
    else
      match row.bucket.bind (position buckets) with
      | some position => { computed with data := computed.data.set position value }
      | none => computed

def ByKey.readWhole (map : ByKey) (row : Option String × Option Rat) : ByKey :=
  Function.update map row.1 (some { map.entry buckets row.1 with aggregated := row.2.getD 0 })

def byKey (rows : Masked) : ByKey := rows.2.foldl (ByKey.readWhole buckets) (rows.1.foldl (ByKey.read buckets) fun _ => none)

/-- The top values by rank, each removed from the map, then `$$_other`. -/
def listTop (other : Bool) : List String → ByKey → List Computed
  | [], map =>
    let computed := map.entry buckets (some breakdownOther)
    if other || computed.aggregated ≠ 0 || computed.data.any (· ≠ 0) then [computed] else []
  | value :: rest, map => map.entry buckets (some value) :: listTop other rest (Function.update map (some value) none)

/-- No breakdown makes one series. -/
def listed (top : Option Top) (map : ByKey) : List Computed :=
  match top with
  | none => [map.entry buckets none]
  | some top => listTop buckets top.other top.values map

end listed

def compute (node : EventNode) (period : Period) (top : Option Top) : List Computed :=
  listed period.buckets top <| byKey period.buckets <|
    (activeMasks C ctx q node period top).getD (generalRows C ctx q node period top)

def periodSeries (tops : List (Option Top)) (period : Period) (compare : Option String) : List TrendSeries :=
  q.series.zipIdx.flatMap fun (node, index) =>
    let top := (tops[index]?).join
    let computed :=
      if q.breakdown.isSome && top.any fun top => top.values = [] ∧ top.other = false then []
      else compute C ctx q node period top
    computed.map fun computed => ⟨some index, computed.breakdown, compare, computed.data, computed.aggregated⟩

def run (plan : TrendsPlan) : List TrendSeries :=
  let tops := q.series.map fun node => topValues ctx q node plan.main.range
  periodSeries C ctx q tops plan.main (if q.compare then some "current" else none) ++
    plan.previous.toList.flatMap fun previous => periodSeries C ctx q tops previous (some "previous")

/-- Whether an event has what the series' math counts. -/
def counted (node : EventNode) (e : Event) : Bool :=
  match node.math with
  | .total | .dau | .weeklyActive | .monthlyActive => true
  | .uniqueSession => e.sessionId.isSome
  | _ => (node.number e).isSome

def actors (plan : TrendsPlan) (seriesIndex : Nat) (day : String) (breakdownValue : Option String) :
    Except QueryError (List String) :=
  match q.series[seriesIndex]? with
  | none => .error (.invalid "series_index is out of range")
  | some node =>
    match (parseInstant C day).filter (· ∈ plan.main.buckets) with
    | none => .error (.invalid "day is not a bucket of this query")
    | some bucket =>
      let top := topValues ctx q node plan.main.range
      let stop := nextBucket C bucket plan.main.range.interval
      let (fromUs, toUs) :=
        match node.math.windowDays with
        | some days => (stop - days * dayUs, min stop plan.main.range.toUs)
        | none => (plan.main.range.fromUs, plan.main.range.toUs)
      let selected (e : Event) : Bool :=
        (node.math.windowDays.isSome || bucketExpr plan.main.range.interval e.ts = bucket) && counted node e &&
          (q.breakdown.isNone || breakdownValue.all fun value => breakdownKey ctx q top e = some value) && predicate ctx q node e
      .ok ((((ctx.relation fromUs toUs).filter selected).map ctx.person).dedup.insertionSort (· ≤ ·))

end series
end Hoglet.Query.Trends
