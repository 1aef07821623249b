import Hoglet.Query.Funnels.Scans

/-! The numbers of a funnel and the persons behind them: steps, breakdown buckets and drop-offs. -/
namespace Hoglet.Query.Funnels

def EventNode.label (node : EventNode) : String := (node.customName.or node.event).getD "All events"

/-- The times and rates, which are floating point, are left out. -/
structure FunnelStepResult where
  order : Nat
  name : String
  count : Nat
  droppedOff : Nat
  deriving DecidableEq, Repr

structure FunnelBreakdownResult where
  breakdownValue : String
  steps : List FunnelStepResult
  deriving DecidableEq, Repr

/-- In microseconds. -/
structure HistogramBin where
  start : Int
  stop : Int
  count : Nat
  deriving DecidableEq, Repr

structure FunnelsResult where
  steps : List FunnelStepResult
  breakdowns : List FunnelBreakdownResult
  timeToConvert : List HistogramBin
  deriving DecidableEq, Repr

def maxHistogramBins : Int := 10

def histogram (durations : List Int) : List HistogramBin :=
  match durations.min?, durations.max? with
  | some least, some greatest =>
    let low := least / 1000000 * 1000000
    let span := greatest - low
    let width := max ((span + maxHistogramBins * 1000000 - 1) / (maxHistogramBins * 1000000)) 1 * 1000000
    let bins := (span / width + 1).toNat
    (List.range bins).map fun index =>
      { start := low + index * width
        stop := low + index * width + width
        count := durations.countP fun duration => min ((duration - low) / width).toNat (bins - 1) = index }
  | _, _ => []

/-- How many of the persons go past a step. -/
def reached (persons : List PersonOutcome) (step : Nat) : Nat := persons.countP fun p => step < p.times.length

/-- Subtraction of `u64`, whose underflow is a panic. -/
def checkedSub (a b : Nat) : Option Nat := if b ≤ a then some (a - b) else none

def stepResults (q : FunnelsQuery) (persons : List PersonOutcome) : Option (List FunnelStepResult) :=
  (List.finRange q.series.length).mapM fun (step : Fin q.series.length) => do
    let droppedOff ← if step.val = 0 then some 0 else checkedSub (reached persons (step.val - 1)) (reached persons step)
    return { order := step, name := (q.series.get step).label, count := reached persons step, droppedOff := droppedOff }

/-- The order of a map's entries, which the standard library leaves open. -/
structure MapOrder where
  iterate : List (String × Nat) → List (String × Nat)
  perm : ∀ counts, (iterate counts).Perm counts

def countValue (value : String) : List (String × Nat) → List (String × Nat)
  | [] => [(value, 1)]
  | (first, n) :: rest => if first = value then (first, n + 1) :: rest else (first, n) :: countValue value rest

/-- By count, largest first, then by value. -/
def rankLe (a b : String × Nat) : Bool := b.2 < a.2 ∨ a.2 = b.2 ∧ a.1 ≤ b.1

section assign
variable (mapOrder : MapOrder) (q : FunnelsQuery) (outcomes : List PersonOutcome)

/-- Every person's breakdown bucket, `$$_other` past the top `limit`, and the ordered list of the buckets. -/
def assignBreakdowns : List String × List PersonOutcome :=
  match q.breakdown with
  | none => ([], outcomes)
  | some breakdown =>
    let outcomes := outcomes.map fun outcome => { outcome with breakdown := some (outcome.breakdown.getD breakdownNone) }
    let counts := outcomes.foldl (fun counts outcome => countValue (outcome.breakdown.getD breakdownNone) counts) []
    let ranked := (mapOrder.iterate counts).mergeSort rankLe
    let values := (ranked.take breakdown.limit).map Prod.fst
    let outcomes := outcomes.map fun outcome =>
      match outcome.breakdown with
      | none => outcome
      | some value => if values.contains value then outcome else { outcome with breakdown := some breakdownOther }
    (if breakdown.limit < ranked.length then values ++ [breakdownOther] else values, outcomes)

/-- `none` is the panic of an underflow. -/
def run : Option FunnelsResult := do
  let (values, outcomes) := assignBreakdowns mapOrder q outcomes
  let steps ← stepResults q outcomes
  let durations := (outcomes.filter fun p => p.times.length = q.series.length).map fun p =>
    p.times.getD (q.series.length - 1) 0 - p.times.getD 0 0
  let breakdowns ← values.mapM fun value => do
    let steps ← stepResults q (outcomes.filter fun p => p.breakdown = some value)
    return { breakdownValue := value, steps := steps : FunnelBreakdownResult }
  return { steps := steps, breakdowns := breakdowns, timeToConvert := histogram durations }

/-- Whether an outcome belongs to a cell of the funnel. -/
def inCell (step : Nat) (converted : Bool) (breakdownValue : Option String) (p : PersonOutcome) : Bool :=
  let inDepth : Bool := if converted then step < p.times.length else 0 < step ∧ p.times.length = step
  let inBreakdown : Bool := match breakdownValue, q.breakdown.isSome with
    | some value, true => p.breakdown = some value
    | _, _ => true
  inDepth && inBreakdown

def actors (step : Nat) (converted : Bool) (breakdownValue : Option String) : Except String (List String) :=
  if q.series.length ≤ step then .error "step is out of range"
  else .ok (((assignBreakdowns mapOrder q outcomes).2.filter (inCell q step converted breakdownValue)).map PersonOutcome.person)

end assign
end Hoglet.Query.Funnels
