import Hoglet.Gaps
import Hoglet.Groups
import Hoglet.Query.Range

/-! The web overview over the rows of the event files, twice: the general SQL, which tags every event with its
session, and the fast path, which folds the pageviews of each distinct id into masks and groups the events of a
session without keeping them. -/
namespace Hoglet.Explore
open Capture
open Query (Interval Chrono floorTo fromDatetime dateNaive hourUs dayUs weekUs weekOriginUs)

def maxBuckets : Nat := 1000
/-- Gap that ends a sessionless visit. -/
def sessionGapMicros : Int := 30 * 60 * 1000000
/-- Most 64-bit words of bucket bits one visitor needs on the fast path. -/
def maxBucketWords : Nat := 4
def bounceMicros : Int := 10000000

inductive ExploreError where
  | invalid (field message : String)
  deriving DecidableEq, Repr

section dates
variable (C : Chrono)

def nsPerHour : Int := 3600 * 1000000000

/-- Start of the bucket holding `time`; weeks start on Monday. `none` is a panic, in the days before the calendar's
first Monday. -/
def truncate (time : DateTime) : Interval → Option DateTime
  | .hour => DateTime.ofNs (floorTo time.ns nsPerHour 0)
  | .day => DateTime.ofNs (floorTo time.ns nsPerDay 0)
  | .week => DateTime.ofNs (floorTo time.ns (7 * nsPerDay) (-3 * nsPerDay))
  | .month => DateTime.ofNs (((dateNaive time).days - (civil (dateNaive time).days).day + 1) * nsPerDay)

def next (time : DateTime) : Interval → Option DateTime
  | .hour => DateTime.ofNs (time.ns + nsPerHour)
  | .day => DateTime.ofNs (time.ns + nsPerDay)
  | .week => DateTime.ofNs (time.ns + 7 * nsPerDay)
  | .month => (C.addMonths (dateNaive time) 1).bind fun date => date.atTime (time.ns % nsPerDay)

def bucketsFrom (toTime : DateTime) (interval : Interval) : Nat → DateTime → Option (List DateTime)
  | 0, time => if time.ns < toTime.ns then none else some []
  | room + 1, time =>
    if time.ns < toTime.ns then
      (next C time interval).bind fun following => (bucketsFrom toTime interval room following).map (time :: ·)
    else some []

/-- Bucket starts covering the range, or `none` past `maxBuckets`. -/
def buckets (fromTime toTime : DateTime) (interval : Interval) : Option (List DateTime) :=
  (truncate fromTime interval).bind (bucketsFrom C toTime interval maxBuckets)

/-- The requested interval, or the finest sensible one. -/
def chooseInterval (requested : Option Interval) (fromTime toTime : DateTime) : Except ExploreError (Interval × List DateTime) :=
  match requested with
  | some interval =>
    match buckets C fromTime toTime interval with
    | some days => .ok (interval, days)
    | none => .error (.invalid "interval" "Too many buckets for this interval; choose a wider one.")
  | none =>
    let first := if toTime.ns - fromTime.ns ≤ hours 48 then Interval.hour else .day
    match [first, .day, .week, .month].findSome? fun interval => (buckets C fromTime toTime interval).map (interval, ·) with
    | some chosen => .ok chosen
    | none => .error (.invalid "date_from" "The date range is too long.")

end dates

/-- `date_trunc` of an instant in microseconds. -/
def dateTrunc (us : Int) : Interval → Int
  | .hour => floorTo us hourUs 0
  | .day => floorTo us dayUs 0
  | .week => floorTo us weekUs weekOriginUs
  | .month => (us / dayUs - (civil (us / dayUs)).day + 1) * dayUs

/-- A stored event, as far as the overview reads it. -/
structure Row (U : Type) where
  ts : Int
  uuid : U
  event : String
  distinctId : String
  sessionId : Option String
  deriving DecidableEq, Repr

/-- Resolved request: range, previous-period start, filters. -/
structure Plan (U : Type) where
  fromTime : DateTime
  toTime : DateTime
  previousFrom : Option DateTime
  filter : Row U → Bool
  ordered : fromTime.ns < toTime.ns

/-- The sessions with a pageview, the bounces among them, and the sum of their durations. -/
abbrev Totals := Nat × Nat × Int

structure PeriodStats where
  visitors : Nat
  pageviews : Nat
  sessions : Nat
  bounces : Nat
  durationUs : Rat
  deriving DecidableEq

/-- The statistics of the previous and of the current period, and the current one by bucket. -/
structure Overview where
  periods : List PeriodStats
  visitorsSeries : List Nat
  pageviewsSeries : List Nat
  deriving DecidableEq

section rows
variable {U : Type}

def Row.isPageview (row : Row U) : Bool := row.event = "$pageview"
def Row.isAutocapture (row : Row U) : Bool := row.event = "$autocapture"

/-- `ORDER BY ts, uuid`. -/
def Row.order (row : Row U) : Int ×ₗ U := toLex (row.ts, row.uuid)

def pageviews (rows : List (Row U)) : Nat := rows.countP Row.isPageview
def autocaptures (rows : List (Row U)) : Nat := rows.countP Row.isAutocapture
def duration (rows : List (Row U)) : Int := ((rows.map Row.ts).max?.getD 0) - ((rows.map Row.ts).min?.getD 0)
def isBounce (rows : List (Row U)) : Bool := pageviews rows = 1 ∧ autocaptures rows = 0 ∧ duration rows < bounceMicros

def totals (sessions : List (List (Row U))) : Totals :=
  let counted := sessions.filter fun rows => 0 < pageviews rows
  (counted.length, counted.countP isBounce, (counted.map duration).sum)

namespace Plan
variable (plan : Plan U)

def lo : DateTime := plan.previousFrom.getD plan.fromTime

def admits (row : Row U) : Bool := fromDatetime plan.lo ≤ row.ts ∧ row.ts < fromDatetime plan.toTime ∧ plan.filter row

def period (row : Row U) : Nat := if fromDatetime plan.fromTime ≤ row.ts then 1 else 0

end Plan

/-- The person a distinct id belongs to. -/
def personOf (overrides : String → Option String) (distinctId : String) : String := (overrides distinctId).getD distinctId

def Row.person (overrides : String → Option String) (row : Row U) : String := personOf overrides row.distinctId

variable [DecidableEq U] (overrides : String → Option String) (plan : Plan U) (rows : List (Row U))

/-- The partitions of both windows: the events without a session id, by period and person. -/
def sessionless : List ((Nat × String) × List (Row U)) :=
  groups (fun row => (plan.period row, row.person overrides)) (rows.filter fun row => plan.admits row && row.sessionId.isNone)

/-! The general SQL. -/
section general

inductive SessionTag where
  | named (sessionId : String)
  | gap (person : String) (n : Nat)
  deriving DecidableEq

/-- `'s' || session_id`, or `'a' || person || chr(31) ||` the number of the visit. -/
def SessionTag.sid : SessionTag → String
  | .named sessionId => String.ofList ('s' :: sessionId.toList)
  | .gap person n => String.ofList ('a' :: person.toList ++ '\x1f' :: Nat.toDigits 10 n)

variable [LinearOrder U] (w₁ : Window (Row U) Row.order) (w₂ : Window (Row U × Nat) fun m => m.1.order)

def tagged : List (Row U × SessionTag) :=
  ((rows.filter plan.admits).filterMap fun row => row.sessionId.map fun sessionId => (row, SessionTag.named sessionId)) ++
    (sessionless overrides plan rows).flatMap fun part =>
      (runNumbers sessionGapMicros (w₁.coarsen fun _ _ h => (Prod.Lex.toLex_le_toLex'.mp h).1)
        (w₂.coarsen fun _ _ h => (Prod.Lex.toLex_le_toLex'.mp h).1) part.2).map fun m => (m.1, .gap part.1.2 m.2)

def generalSessions (period : Nat) : List (List (Row U)) :=
  ((groups (fun m => (plan.period m.1, m.2.sid)) (tagged overrides plan rows w₁ w₂)).filter fun g => g.1.1 = period).map
    fun g => g.2.map Prod.fst

def generalStats (period : Nat) : PeriodStats :=
  let pages := ((tagged overrides plan rows w₁ w₂).map Prod.fst).filter fun row => row.isPageview && plan.period row = period
  let (sessions, bounces, durationUs) := totals (generalSessions overrides plan rows w₁ w₂ period)
  ⟨(pages.map (Row.person overrides)).dedup.length, pages.length, sessions, bounces,
    if 0 < sessions then durationUs / sessions else 0⟩

def overview (interval : Interval) (buckets : List DateTime) : Overview :=
  let pages := ((tagged overrides plan rows w₁ w₂).map Prod.fst).filter fun row => row.isPageview && plan.period row = 1
  let bucket (start : DateTime) := pages.filter fun row => dateTrunc row.ts interval = fromDatetime start
  ⟨[0, 1].map (generalStats overrides plan rows w₁ w₂),
    buckets.map fun start => ((bucket start).map (Row.person overrides)).dedup.length,
    buckets.map fun start => (bucket start).length⟩

end general

/-! The fast path. -/
section fast

/-- What the first pass returns: how many persons have these masks, or how many pageviews a bucket has. -/
inductive VisitRow where
  | person (prev : Bool) (count : Nat) (masks : List Nat)
  | bucket (i : Int) (n : Nat)

/-- What the first pass has read. -/
structure Visits where
  previousVisitors : Nat
  currentVisitors : Nat
  previousPageviews : Nat
  currentPageviews : Nat
  visitorsSeries : List Nat
  pageviewsSeries : List Nat

/-- Whether bit `index` is set across the 64-bit words. -/
def hasBit (masks : List Nat) (index : Nat) : Bool := (masks.getD (index / 64) 0).testBit (index % 64)

def Visits.read (visits : Visits) : VisitRow → Visits
  | .person prev count masks =>
    { visits with
      previousVisitors := visits.previousVisitors + if prev then count else 0
      currentVisitors := visits.currentVisitors + if masks.any (· ≠ 0) then count else 0
      visitorsSeries := visits.visitorsSeries.mapIdx fun index slot => slot + if hasBit masks index then count else 0 }
  | .bucket i n =>
    if i < 0 then { visits with previousPageviews := n }
    else { visits with
      currentPageviews := visits.currentPageviews + n
      pageviewsSeries := visits.pageviewsSeries.set i.toNat n }

/-- The word's mask of one bucket index. -/
def bit (word : Nat) (i : Int) : Nat := if 64 * (word : Int) ≤ i ∧ i < 64 * word + 64 then 1 <<< (i - 64 * word).toNat else 0

def bitOr (masks : List Nat) : Nat := masks.foldr (· ||| ·) 0

/-- A distinct id, or a person: seen in the previous period, and in which buckets. -/
structure Seen where
  id : String
  prev : Bool
  masks : List Nat

section visits
variable (base unit : Int) (words : Nat)

def bucketIndex (row : Row U) : Int := if fromDatetime plan.fromTime ≤ row.ts then (row.ts - base) / unit else -1

def seenIds (pages : List (Row U)) : List Seen :=
  (groups Row.distinctId pages).map fun g =>
    ⟨g.1, g.2.any fun row => bucketIndex plan base unit row < 0,
      (List.range words).map fun word => bitOr (g.2.map fun row => bit word (bucketIndex plan base unit row))⟩

def seenPersons (ids : List Seen) : List Seen :=
  (groups (fun seen => personOf overrides seen.id) ids).map fun g =>
    ⟨g.1, g.2.any Seen.prev, (List.range words).map fun word => bitOr (g.2.map fun seen => seen.masks.getD word 0)⟩

def visitRows (pages : List (Row U)) : List VisitRow :=
  ((groups (fun seen => (seen.prev, seen.masks)) (seenPersons overrides words (seenIds plan base unit words pages))).map fun g =>
      .person g.1.1 g.2.length g.1.2) ++
    (groups (bucketIndex plan base unit) pages).map fun g => .bucket g.1 g.2.length

end visits

/-- The sessions that carry a session id, and `none` for the events without. -/
def idSessions : List ((Nat × Option String) × List (Row U)) :=
  groups (fun row => (plan.period row, row.sessionId)) (rows.filter plan.admits)

variable (w₁ : Window (Row U) Row.ts) (w₂ : Window (Row U × Nat) fun m => m.1.ts)

/-- The visits without a session id, by period, person and number. -/
def gapSessions : List ((Nat × String × Nat) × List (Row U × Nat)) :=
  groups (fun m => (plan.period m.1, m.1.person overrides, m.2))
    ((sessionless overrides plan rows).flatMap fun part => runNumbers sessionGapMicros w₁ w₂ part.2)

/-- Whether a pageview has no session id: the third pass runs only then. -/
def anySessionless : Bool := (idSessions plan rows).any fun g => g.1.2.isNone && 0 < pageviews g.2

def fastTotals (period : Nat) : Totals :=
  totals (((idSessions plan rows).filter fun g => g.1.1 = period ∧ g.1.2.isSome).map Prod.snd) +
    if anySessionless plan rows then
      totals (((gapSessions overrides plan rows w₁ w₂).filter fun g => g.1.1 = period).map fun g => g.2.map Prod.fst)
    else 0

def fastStats (visitors pageviews : Nat) (period : Nat) : PeriodStats :=
  let (sessions, bounces, durationUs) := fastTotals overrides plan rows w₁ w₂ period
  ⟨visitors, pageviews, sessions, bounces, if 0 < sessions then durationUs / sessions else durationUs⟩

def unitUs : Interval → Option Int
  | .hour => some hourUs
  | .day => some dayUs
  | .week => some weekUs
  | .month => none

/-- `none` when the request does not fit: the general SQL runs then. -/
def overviewFast (interval : Interval) (buckets : List DateTime) : Option Overview :=
  match unitUs interval, buckets with
  | some unit, first :: _ =>
    let words := max ((buckets.length + 63) / 64) 1
    if maxBucketWords < words then none
    else
      let pages := rows.filter fun row => row.isPageview && plan.admits row
      let zeros := List.replicate buckets.length 0
      let visits := (visitRows overrides plan (fromDatetime first) unit words pages).foldl Visits.read ⟨0, 0, 0, 0, zeros, zeros⟩
      some ⟨[fastStats overrides plan rows w₁ w₂ visits.previousVisitors visits.previousPageviews 0,
          fastStats overrides plan rows w₁ w₂ visits.currentVisitors visits.currentPageviews 1],
        visits.visitorsSeries, visits.pageviewsSeries⟩
  | _, _ => none

end fast
end rows
end Hoglet.Explore
