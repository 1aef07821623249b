import Hoglet.Lake.Compactor
import Hoglet.Query.Range

/-! What a query resolves before it touches data, the files it leases for that, and the time bounds of every
relation that its evaluation may build over them. -/
namespace Hoglet.Query
open Capture Hoglet.Lake

inductive PropertySource where
  | event | person
  deriving DecidableEq, Repr

structure PropertyFilter where
  key : String
  source : PropertySource

structure Breakdown where
  property : String
  source : PropertySource

inductive Math where
  | total | dau | weeklyActive | monthlyActive | uniqueSession | sum | avg | min | max | median | p90 | p95 | p99
  deriving DecidableEq, Repr

structure EventNode where
  properties : List PropertyFilter
  math : Math

structure TrendsQuery where
  series : List EventNode
  dateRange : DateRange
  interval : Interval
  properties : List PropertyFilter
  breakdown : Option Breakdown
  compare : Bool

structure FunnelsQuery where
  series : List EventNode
  dateRange : DateRange

inductive RetentionPeriod where
  | day | week | month

inductive RetentionType where
  | recurring | firstTime
  deriving DecidableEq

structure RetentionQuery where
  period : RetentionPeriod
  totalIntervals : Nat
  retentionType : RetentionType

structure LifecycleQuery where
  dateRange : DateRange
  interval : Interval

structure StickinessQuery where
  series : List EventNode
  dateRange : DateRange
  interval : Interval

structure PathsQuery where
  dateRange : DateRange

inductive InsightQuery where
  | trends (q : TrendsQuery)
  | funnels (q : FunnelsQuery)
  | retention (q : RetentionQuery)
  | lifecycle (q : LifecycleQuery)
  | stickiness (q : StickinessQuery)
  | paths (q : PathsQuery)
  | sql

inductive ActorSelection where
  | trendsPoint (seriesIndex : Nat) (day : String)
  | funnelStep (step : Nat)
  | retentionCell (cohortDate : String) (interval : Nat)
  | lifecycleCell (day : String)
  | stickinessBar (seriesIndex : Nat)
  | pathsLink (source target : String)

/-- Inclusive start and exclusive end; `none` is unbounded. -/
abbrev Bounds := Option Int × Option Int

def Bounds.Admits (bounds : Bounds) (us : Int) : Prop := (∀ t ∈ bounds.1, t ≤ us) ∧ ∀ t ∈ bounds.2, us < t

/-- The trailing window of the active-person maths. -/
def Math.windowDays : Math → Option Int
  | .weeklyActive => some 7
  | .monthlyActive => some 30
  | _ => none

def Math.needsPerson : Math → Bool
  | .dau | .weeklyActive | .monthlyActive => true
  | _ => false

def ResolvedRange.bounds (range : ResolvedRange) : Bounds := (some range.fromUs, some range.toUs)

/-- A range with its buckets. -/
structure Period where
  range : ResolvedRange
  buckets : List Int

structure TrendsPlan where
  main : Period
  previous : Option Period
  windowDays : Option Int

structure RetentionPlan where
  interval : Interval
  starts : List Int
  endUs : Int
  firstTime : Bool

inductive Prepared where
  | trends (plan : TrendsPlan)
  | funnels (range : ResolvedRange)
  | retention (plan : RetentionPlan)
  | lifecycle (plan : Period)
  | stickiness (range : ResolvedRange)
  | paths (range : ResolvedRange)
  | sql

def TrendsPlan.periods (plan : TrendsPlan) : List Period := plan.main :: plan.previous.toList

def RetentionPeriod.interval : RetentionPeriod → Interval
  | .day => .day
  | .week => .week
  | .month => .month

section plans
variable (C : Chrono)

/-- The start of the window that ends with a bucket. -/
def windowStart (days : Int) (interval : Interval) (bucket : Int) : Int := nextBucket C bucket interval - days * dayUs

def TrendsPlan.loadFrom (plan : TrendsPlan) : Int :=
  plan.periods.foldl (fun us period =>
    match plan.windowDays, period.buckets.head? with
    | some days, some first => min (min us period.range.fromUs) (windowStart C days period.range.interval first)
    | _, _ => min us period.range.fromUs) plan.main.range.fromUs

def ResolvedRange.period (range : ResolvedRange) : Except QueryError Period := return ⟨range, ← range.buckets C⟩

/-- The period a query compares with. -/
def comparePeriod (q : TrendsQuery) (main : Period) : Except QueryError (Option Period) := do
  if q.compare then return some (← main.range.previous.period C) else return none

def trendsPlan (q : TrendsQuery) (now : DateTime) (earliest : Except QueryError (Option Int)) : Except QueryError TrendsPlan := do
  let main ← (← resolveRange C q.dateRange q.interval now earliest).period C
  return ⟨main, ← comparePeriod C q main, (q.series.filterMap fun node => node.math.windowDays).max?⟩

/-- A period start and those before it. -/
def startsBack (interval : Interval) : Nat → Int → List Int
  | 0, start => [start]
  | n + 1, start => start :: startsBack interval n (previousBucket C start interval)

def retentionPlan (q : RetentionQuery) (now : DateTime) : RetentionPlan :=
  let interval := q.period.interval
  let current := trunc C (fromDatetime now) interval
  ⟨interval, (startsBack C interval (q.totalIntervals - 1) current).reverse, nextBucket C current interval,
    q.retentionType = .firstTime⟩

def RetentionPlan.loadFrom (plan : RetentionPlan) : Option Int := if plan.firstTime then none else plan.starts.head?

def prepare (now : DateTime) (earliest : Except QueryError (Option Int)) : InsightQuery → Except QueryError Prepared
  | .trends q => do return .trends (← trendsPlan C q now earliest)
  | .funnels q => do return .funnels (← resolveRange C q.dateRange .day now earliest)
  | .retention q => return .retention (retentionPlan C q now)
  | .lifecycle q => do return .lifecycle (← (← resolveRange C q.dateRange q.interval now earliest).period C)
  | .stickiness q => do return .stickiness (← (← resolveRange C q.dateRange q.interval now earliest).period C).range
  | .paths q => do return .paths (← resolveRange C q.dateRange .day now earliest)
  | .sql => return .sql

/-- The events read; `none` is from the first event or to the last. -/
def Prepared.loadSpan : Prepared → Bounds
  | .trends plan => (some (plan.loadFrom C), some plan.main.range.toUs)
  | .funnels range | .stickiness range | .paths range => range.bounds
  | .retention plan => (plan.loadFrom, some plan.endUs)
  | .lifecycle plan => (none, some plan.range.toUs)
  | .sql => (none, none)

end plans

/-! The relations of an evaluation. A series whose breakdown turns out to have no value is not computed; it is
counted here as if it were. -/
section reads
variable (C : Chrono)

/-- The earliest window start of any bucket, or the period's own. -/
def windowFrom (days : Int) (period : Period) : Int :=
  min ((period.buckets.map (windowStart C days period.range.interval)).min?.getD period.range.fromUs) period.range.fromUs

/-- Where the granules of the masks are read from, the instant they are counted from, and their length. -/
def maskGranules (math : Math) (period : Period) (first : Int) : Option (Int × Int × Int) :=
  match math.windowDays with
  | none =>
    match period.range.interval with
    | .day | .week => some (period.range.fromUs, first, nextBucket C first period.range.interval - first)
    | .hour | .month => none
  | some days =>
    if period.range.interval = .hour then none
    else some (windowFrom C days period, trunc C (windowFrom C days period) .day, dayUs)

/-- Where `active_masks` reads from, when the query fits it: at most four words of granules, and windows that
begin and end with one. -/
def maskFrom (personKeys : List String) (math : Math) (period : Period) : Option Int :=
  match period.buckets with
  | [] => none
  | first :: _ =>
    if personKeys ≠ [] ∨ ¬ math.needsPerson then none
    else
      (maskGranules C math period first).bind fun (loadFrom, base, unit) =>
        let granules := max ((period.range.toUs - base + unit - 1) / unit) 1
        let aligned (bucket : Int) : Bool :=
          let stop := nextBucket C bucket period.range.interval
          let start := (math.windowDays.map fun days => stop - days * dayUs).getD bucket
          (start - base) % unit = 0 ∧ (stop - base) % unit = 0 ∧ base ≤ start
        if 4 * 64 < granules ∨ ¬ period.buckets.all aligned then none else some loadFrom

/-- The relations of `compute`, for one series in one period. -/
def computeReads (personKeys : List String) (period : Period) (node : EventNode) : List Bounds :=
  match maskFrom C personKeys node.math period, node.math.windowDays with
  | some loadFrom, _ => [(some loadFrom, some period.range.toUs)]
  | none, some days => [(some (windowFrom C days period), some period.range.toUs), period.range.bounds]
  | none, none => [period.range.bounds]

/-- The relation of `top_values`. -/
def topReads (q : TrendsQuery) (plan : TrendsPlan) : List Bounds :=
  if q.breakdown.isSome then [plan.main.range.bounds] else []

def trendsReads (personKeys : List String) (q : TrendsQuery) (plan : TrendsPlan) : List Bounds :=
  q.series.flatMap (fun _ => topReads q plan) ++
    plan.periods.flatMap fun period => q.series.flatMap (computeReads C personKeys period)

def trendsActorReads (q : TrendsQuery) (plan : TrendsPlan) (seriesIndex : Nat) (day : String) : List Bounds :=
  match q.series[seriesIndex]?, (parseInstant C day).filter (· ∈ plan.main.buckets) with
  | some node, some bucket =>
    topReads q plan ++
      [match node.math.windowDays with
        | some days => (some (windowStart C days plan.main.range.interval bucket),
            some (min (nextBucket C bucket plan.main.range.interval) plan.main.range.toUs))
        | none => plan.main.range.bounds]
  | _, _ => []

/-- The relations of `activity`: where a person's first target event is looked for, and the periods. -/
def RetentionPlan.reads (plan : RetentionPlan) : List Bounds :=
  match plan.starts with
  | [] => []
  | start :: _ => [(if plan.firstTime then none else some start, some plan.endUs), (some start, some plan.endUs)]

def retentionActorReads (plan : RetentionPlan) (cohortDate : String) (interval : Nat) : List Bounds :=
  match (parseInstant C cohortDate).bind fun start => plan.starts.findIdx? (· = start) with
  | some cohort => if plan.starts.length ≤ cohort + interval then [] else plan.reads
  | none => []

def allFilters (q : TrendsQuery) : List PropertyFilter := q.properties ++ q.series.flatMap EventNode.properties

/-- The person properties a trends query needs; the bounds of the other kinds do not depend on theirs. -/
def personKeys (q : TrendsQuery) : List String :=
  let filters := ((allFilters q).filter (·.source = .person)).map PropertyFilter.key
  let breakdown := (q.breakdown.filter (·.source = .person)).map Breakdown.property
  (filters ++ breakdown.toList).eraseDups

/-- The bounds that `run_kind` puts into the relations it builds. -/
def runReads : InsightQuery → Prepared → List Bounds
  | .trends q, .trends plan => trendsReads C (personKeys q) q plan
  | .funnels _, .funnels range => [range.bounds]
  | .retention _, .retention plan => plan.reads
  | .lifecycle _, .lifecycle plan => [(none, some plan.range.toUs)]
  | .stickiness q, .stickiness range => q.series.map fun _ => range.bounds
  | .paths _, .paths range => [range.bounds]
  | _, _ => []

/-- `"3_/pricing"` is the second step after the first, and the name. -/
def parseNode (node : String) : Option (Nat × List Char) :=
  let step := node.toList.takeWhile (· ≠ '_')
  if '_' ∉ node.toList then none
  else
    let digits := match step with | '+' :: digits => digits | digits => digits
    let value := Nat.ofDigitChars 10 digits 0
    if digits = [] ∨ ¬ digits.all Char.isDigit ∨ 2^64 ≤ value ∨ value = 0 then none
    else some (value - 1, (node.toList.dropWhile (· ≠ '_')).tail)

/-- The bounds that `actors_kind` puts into the relations it builds. -/
def actorsReads : InsightQuery → Prepared → ActorSelection → List Bounds
  | .trends q, .trends plan, .trendsPoint seriesIndex day => trendsActorReads C q plan seriesIndex day
  | .funnels q, .funnels range, .funnelStep step => if q.series.length ≤ step then [] else [range.bounds]
  | .retention _, .retention plan, .retentionCell cohortDate interval => retentionActorReads C plan cohortDate interval
  | .lifecycle _, .lifecycle plan, .lifecycleCell day =>
    if ((parseInstant C day).bind fun us => plan.buckets.findIdx? (· = us)).isSome then [(none, some plan.range.toUs)] else []
  | .stickiness q, .stickiness range, .stickinessBar seriesIndex =>
    if q.series.length ≤ seriesIndex then [] else [range.bounds]
  | .paths _, .paths range, .pathsLink source target =>
    match parseNode source, parseNode target with
    | some (step, _), some (next, _) => if next = step + 1 then [range.bounds] else []
    | _, _ => []
  | _, _, _ => []

/-- Mode of one engine session. -/
inductive Work where
  | result
  | actors (selection : ActorSelection)

def reads (query : InsightQuery) (prepared : Prepared) : Work → List Bounds
  | .result => runReads C query prepared
  | .actors selection => actorsReads C query prepared selection

end reads

section session
variable {ν U : Type} (C : Chrono) (s : Snapshot) (content : LakeFile → Content ν U) (projectId : String)

/-- The days a span is leased for. -/
def spanDays (span : Bounds) : Date × Date :=
  ((span.1.map dayOf).getD .min, (span.2.map fun stop => (dayOf (stop - 1)).succ.getD .max).getD .max)

/-- The files leased for a span; `none` is the panic of `BTreeMap::range` on bounds that are the wrong way round. -/
def leaseSpan (span : Bounds) : Option Lease :=
  let days := spanDays span
  if days.2.days < days.1.days ∧ (s.project projectId).days.rows ≠ [] then none
  else some (s.lease projectId days.1.days days.2.days)

def usesAll : InsightQuery → Bool
  | .trends q => dateFromIsAll q.dateRange
  | .funnels q => dateFromIsAll q.dateRange
  | .lifecycle q => dateFromIsAll q.dateRange
  | .stickiness q => dateFromIsAll q.dateRange
  | .paths q => dateFromIsAll q.dateRange
  | .retention _ | .sql => false

def leasedEvents (lease : Option Lease) : Content ν U := (lease.map Lease.files).getD [] |>.flatMap content

/-- The time of the first leased event. -/
def earliest (lease : Option Lease) : Option Int := ((leasedEvents content lease).map timestampMicros).min?

/-- What a session prepares, and the files it leases for the evaluation. -/
def session (query : InsightQuery) (now : DateTime) : Except QueryError (Prepared × Option Lease) :=
  if usesAll query then do
    let all := leaseSpan s projectId (none, none)
    return (← prepare C now (.ok (earliest content all)) query, all)
  else do
    let prepared ← prepare C now (.ok none) query
    return (prepared, leaseSpan s projectId (prepared.loadSpan C))

end session

end Hoglet.Query
