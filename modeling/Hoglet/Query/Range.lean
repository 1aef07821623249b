import Hoglet.Checks
import Hoglet.Capture.Event

/-! Date ranges and interval buckets, always UTC: microseconds since the epoch, and half-open ranges. -/
namespace Hoglet.Query
open Capture Json

def minI64 : Int := -2^63
def maxI64 : Int := 2^63 - 1

/-- `i64::saturating_add`, and with a negated operand `i64::saturating_sub`. -/
def saturatingAdd (a b : Int) : Int := max minI64 (min maxI64 (a + b))

def hourUs : Int := 3600000000
def dayUs : Int := 24 * hourUs
def weekUs : Int := 7 * dayUs
/-- 1969-12-29, a Monday. -/
def weekOriginUs : Int := -3 * dayUs
def maxBuckets : Nat := 10000
def maxRelative : Int := 100000

inductive QueryError where
  | invalid (message : String)
  | internal (message : String)
  deriving DecidableEq, Repr

inductive Interval where
  | hour | day | week | month
  deriving DecidableEq, Repr

/-- A day chrono can represent, counted from the epoch: `NaiveDate`. -/
structure Date where
  days : Int
  min_le : -96465292 ≤ days
  le_max : days ≤ 95026236
  deriving DecidableEq, Repr

namespace Date

/-- `NaiveDate::MIN`. -/
def min : Date := ⟨-96465292, by decide, by decide⟩
/-- `NaiveDate::MAX`. -/
def max : Date := ⟨95026236, by decide, by decide⟩

def ofDays (days : Int) : Option Date :=
  if h : -96465292 ≤ days ∧ days ≤ 95026236 then some ⟨days, h.1, h.2⟩ else none

/-- `succ_opt`. -/
def succ (date : Date) : Option Date := ofDays (date.days + 1)

/-- The instant a time of day makes of the day. -/
def atTime (date : Date) (ns : Int) : Option DateTime := DateTime.ofNs (date.days * nsPerDay + ns)

theorem ext {a b : Date} (h : a.days = b.days) : a = b := by
  cases a
  cases b
  cases h
  rfl

end Date

/-- What date ranges use of chrono beyond its instants; a date some months on is a later date. -/
structure Chrono where
  /-- `DateTime::parse_from_rfc3339`, converted to UTC. -/
  parseRfc3339 : String → Option DateTime
  /-- `NaiveDateTime::parse_from_str`, taken as UTC: text, then format. -/
  parseNaive : String → String → Option DateTime
  /-- `NaiveDate::parse_from_str` with `%Y-%m-%d`. -/
  parseDate : String → Option Date
  fromYmd : Int → Nat → Nat → Option Date
  addMonths : Date → Nat → Option Date
  subMonths : Date → Nat → Option Date
  later : ∀ date n next, 0 < n → addMonths date n = some next → date.days < next.days

def floorTo (us unit origin : Int) : Int := us - (us - origin) % unit

/-- The range's last resort for an instant outside the calendar is its first one. -/
def toDatetime (us : Int) : DateTime := (DateTime.ofNs (us * 1000)).getD ⟨minNs, le_rfl, by decide⟩

def fromDatetime (time : DateTime) : Int := time.ns / 1000

/-- `date_naive()`. -/
def dateNaive (time : DateTime) : Date :=
  ⟨time.ns / nsPerDay, Int.le_ediv_of_mul_le (by decide) time.min_le,
    Int.lt_add_one_iff.mp (Int.ediv_lt_of_lt_mul (by decide) (Int.lt_of_le_sub_one time.le_max))⟩

def dateStartUs (date : Date) : Int := date.days * dayUs

/-- UTC day of an instant. -/
def dayOf (us : Int) : Date := dateNaive (toDatetime us)

structure ResolvedRange where
  fromUs : Int
  toUs : Int
  interval : Interval
  deriving DecidableEq, Repr

/-- Relative or absolute; no end means now. -/
structure DateRange where
  dateFrom : String
  dateTo : Option String
  deriving DecidableEq, Repr

inductive Point where
  | exact (us : Int)
  | calendar (us : Int)
  | all
  deriving DecidableEq, Repr

section range
variable (C : Chrono)

/-- Start of the bucket containing `us`. -/
def trunc (us : Int) : Interval → Int
  | .hour => floorTo us hourUs 0
  | .day => floorTo us dayUs 0
  | .week => floorTo us weekUs weekOriginUs
  | .month =>
    let date := dayOf us
    dateStartUs ((C.fromYmd (civil date.days).year (civil date.days).month 1).getD date)

def nextBucket (start : Int) : Interval → Int
  | .hour => saturatingAdd start hourUs
  | .day => saturatingAdd start dayUs
  | .week => saturatingAdd start weekUs
  | .month => ((C.addMonths (dayOf start) 1).map dateStartUs).getD maxI64

def previousBucket (start : Int) : Interval → Int
  | .hour => saturatingAdd start (-hourUs)
  | .day => saturatingAdd start (-dayUs)
  | .week => saturatingAdd start (-weekUs)
  | .month => ((C.subMonths (dayOf start) 1).map dateStartUs).getD minI64

/-- Parse a bucket start as given back in an actor selection. -/
def parseInstant (text : String) : Option Int :=
  ((C.parseRfc3339 text).map fromDatetime).or <|
    ((C.parseNaive text "%Y-%m-%dT%H:%M:%S%.f").map fromDatetime).or <|
      ((C.parseNaive text "%Y-%m-%d %H:%M:%S%.f").map fromDatetime).or <|
        (C.parseDate text).map dateStartUs

def tooManyBuckets : QueryError :=
  .invalid ("the date range has more than " ++ toString maxBuckets ++ " intervals; use a larger interval")

/-- The buckets from `start` on, while there is room for them. -/
def bucketsFrom (interval : Interval) (toUs : Int) : Nat → Int → Except QueryError (List Int)
  | 0, start => if start < toUs then .error tooManyBuckets else .ok []
  | room + 1, start =>
    if start < toUs then (bucketsFrom interval toUs room (nextBucket C start interval)).map (start :: ·) else .ok []

/-- Bucket starts covering the range. -/
def ResolvedRange.buckets (range : ResolvedRange) : Except QueryError (List Int) :=
  bucketsFrom C range.interval range.toUs maxBuckets (trunc C range.fromUs range.interval)

/-- The period of equal length right before this one. -/
def ResolvedRange.previous (range : ResolvedRange) : ResolvedRange :=
  ⟨saturatingAdd range.fromUs (-(range.toUs - range.fromUs)), range.fromUs, range.interval⟩

/-- `str::parse::<i64>`. -/
def parseI64 (cs : List Char) : Option Int :=
  let (sign, digits) : Int × List Char :=
    match cs with
    | '-' :: digits => (-1, digits)
    | '+' :: digits => (1, digits)
    | digits => (1, digits)
  let value := sign * Nat.ofDigitChars 10 digits 0
  if digits ≠ [] ∧ digits.all Char.isDigit ∧ minI64 ≤ value ∧ value ≤ maxI64 then some value else none

def trim (cs : List Char) : List Char := ((cs.dropWhile isTrimmed).reverse.dropWhile isTrimmed).reverse

def invalidDate (text : List Char) : QueryError := .invalid ("invalid date `" ++ String.ofList text ++ "`")

/-- `checked_sub_months` keeps the time of day. -/
def subMonths (now : DateTime) (months : Nat) : Option DateTime :=
  (C.subMonths (dateNaive now) months).bind fun date => date.atTime (now.ns % nsPerDay)

/-- The instant an amount of hours, days, weeks, months or years before `now`. -/
def before (now : DateTime) (amount : Int) : Char → Option DateTime
  | 'h' => now.checkedSubSigned (hours amount)
  | 'd' => now.checkedSubSigned (amount * nsPerDay)
  | 'w' => now.checkedSubSigned (amount * (7 * nsPerDay))
  | 'm' => subMonths C now amount.toNat
  | 'y' => subMonths C now (amount * 12).toNat
  | _ => none

def relativePoint (text rest : List Char) (now : DateTime) (unit : Char) : Except QueryError Point :=
  match parseI64 rest with
  | none => .error (invalidDate text)
  | some amount =>
    if ¬ (0 ≤ amount ∧ amount ≤ maxRelative) then .error (invalidDate text)
    else
      match before C now amount unit with
      | none => .error (invalidDate text)
      | some instant => .ok (.calendar (fromDatetime instant))

/-- The amount and the unit of `-7d` and its like. -/
def relativeParts : List Char → Option (List Char × Char)
  | '-' :: rest => rest.getLast?.bind fun unit => if unit.isAlpha then some (rest.dropLast, unit) else none
  | _ => none

def parsePoint (text : String) (now : DateTime) : Except QueryError Point :=
  let text := trim text.toList
  if 64 < (utf8 text).length then .error (invalidDate text)
  else if text = ['a', 'l', 'l'] then .ok .all
  else if text = ['d', 'S', 't', 'a', 'r', 't'] then .ok (.calendar (fromDatetime now))
  else if text = ['m', 'S', 't', 'a', 'r', 't'] then
    match C.fromYmd now.date.year now.date.month 1 with
    | none => .error (invalidDate text)
    | some first => .ok (.calendar (dateStartUs first))
  else if text = ['y', 'S', 't', 'a', 'r', 't'] then
    match C.fromYmd now.date.year 1 1 with
    | none => .error (invalidDate text)
    | some first => .ok (.calendar (dateStartUs first))
  else
    match relativeParts text with
    | some (rest, unit) => relativePoint C text rest now unit
    | none =>
      match C.parseDate (String.ofList text) with
      | some date => .ok (.calendar (dateStartUs date))
      | none =>
        if 'T' ∈ text ∨ ' ' ∈ text then
          match parseInstant C (String.ofList text) with
          | some us => .ok (.exact us)
          | none => .error (invalidDate text)
        else .error (invalidDate text)

def alignDown (us : Int) : Interval → Int
  | .hour => trunc C us .hour
  | _ => trunc C us .day

def alignEnd (us : Int) : Interval → Int
  | .hour => saturatingAdd (trunc C us .hour) hourUs
  | _ => saturatingAdd (trunc C us .day) dayUs

def resolveFrom (interval : Interval) (nowUs : Int) (earliest : Except QueryError (Option Int)) :
    Point → Except QueryError Int
  | .exact us => .ok us
  | .calendar us => .ok (alignDown C us interval)
  | .all => do return alignDown C ((← earliest).getD nowUs) interval

def resolveTo (interval : Interval) (now : DateTime) : Option String → Except QueryError Int
  | none | some "" => .ok (alignEnd C (fromDatetime now) interval)
  | some text => do
    match ← parsePoint C text now with
    | .exact us => return saturatingAdd us 1
    | .calendar us => return alignEnd C us interval
    | .all => throw (.invalid "date_to cannot be `all`")

/-- `earliest` supplies the first event's time for a range from `all`. -/
def resolveRange (range : DateRange) (interval : Interval) (now : DateTime) (earliest : Except QueryError (Option Int)) :
    Except QueryError ResolvedRange := do
  let fromUs ← resolveFrom C interval (fromDatetime now) earliest (← parsePoint C range.dateFrom now)
  let toUs ← resolveTo C interval now range.dateTo
  if toUs ≤ fromUs then throw (.invalid "date_from must be before date_to")
  return ⟨fromUs, toUs, interval⟩

end range

def dateFromIsAll (range : DateRange) : Bool := trim range.dateFrom.toList = ['a', 'l', 'l']

/-- The calendar's first and its last microsecond. -/
def minUs : Int := -8334601228800000000
def maxUs : Int := 8210266876799999999

private theorem dayUs_eq : dayUs = 86400000000 := rfl

theorem fromDatetime_within (time : DateTime) : minUs ≤ fromDatetime time ∧ fromDatetime time ≤ maxUs := by
  have hmin := time.min_le
  have hmax := time.le_max
  simp only [minNs, maxNs] at hmin hmax
  simp only [fromDatetime, minUs, maxUs]
  omega

theorem dateStartUs_within (date : Date) : minUs ≤ dateStartUs date ∧ dateStartUs date ≤ maxUs := by
  have hmin := date.min_le
  have hmax := date.le_max
  simp only [dateStartUs, dayUs_eq, minUs, maxUs]
  omega

theorem dateNaive_days (time : DateTime) : (dateNaive time).days = fromDatetime time / dayUs := by
  simp only [dateNaive, fromDatetime, show nsPerDay = 86400000000000 from rfl, dayUs_eq]
  omega

/-- Outside the calendar every instant falls on its first day. -/
theorem dayOf_days (us : Int) : (dayOf us).days = if minUs ≤ us ∧ us ≤ maxUs then us / dayUs else Date.min.days := by
  rw [dayOf, dateNaive_days, toDatetime, DateTime.ofNs]
  by_cases h : minUs ≤ us ∧ us ≤ maxUs
  · have hns : minNs ≤ us * 1000 ∧ us * 1000 ≤ maxNs := by
      simp only [minUs, maxUs] at h
      simp only [minNs, maxNs]
      omega
    rw [dif_pos hns, if_pos h, Option.getD_some, fromDatetime, Int.mul_ediv_cancel us (by decide)]
  · have hns : ¬ (minNs ≤ us * 1000 ∧ us * 1000 ≤ maxNs) := by
      simp only [minUs, maxUs] at h
      simp only [minNs, maxNs]
      omega
    rw [dif_neg hns, if_neg h, Option.getD_none]
    rfl

/-- The day of a lower bound is not after the day of what it admits. -/
theorem dayOf_le {us : Int} {time : DateTime} (h : us ≤ fromDatetime time) : (dayOf us).days ≤ (dateNaive time).days := by
  have htime := fromDatetime_within time
  rw [dayOf_days]
  split
  · rw [dateNaive_days]
    exact Int.ediv_le_ediv (by decide) h
  · exact (dateNaive time).min_le

theorem le_dayOf {us : Int} {time : DateTime} (h : fromDatetime time ≤ us) (hus : us ≤ maxUs) :
    (dateNaive time).days ≤ (dayOf us).days := by
  have htime := fromDatetime_within time
  rw [dayOf_days, if_pos ⟨htime.1.trans h, hus⟩, dateNaive_days]
  exact Int.ediv_le_ediv (by decide) h

section bounds
variable {C : Chrono}

theorem le_nextBucket {us : Int} (interval : Interval) (h : us ≤ maxUs) : us ≤ nextBucket C us interval := by
  have hunit : ∀ unit : Int, 0 ≤ unit → us ≤ saturatingAdd us unit := fun unit hu => by
    simp only [maxUs] at h
    simp only [saturatingAdd, minI64, maxI64]
    omega
  cases interval with
  | hour => exact hunit hourUs (by decide)
  | day => exact hunit dayUs (by decide)
  | week => exact hunit weekUs (by decide)
  | month =>
    rw [nextBucket]
    cases hnext : C.addMonths (dayOf us) 1 with
    | none =>
      simp only [maxUs] at h
      simp only [Option.map_none, Option.getD_none, maxI64]
      omega
    | some next =>
      have hlater := C.later _ _ _ Nat.one_pos hnext
      rw [dayOf_days] at hlater
      simp only [Option.map_some, Option.getD_some, dateStartUs]
      split at hlater
      · simp only [dayUs_eq] at hlater ⊢
        omega
      · have hnext := next.min_le
        simp only [minUs, maxUs, dayUs_eq] at *
        omega

theorem alignEnd_le {us : Int} (interval : Interval) (h : us ≤ maxUs) : alignEnd C us interval ≤ maxUs + 1 := by
  have hhour : saturatingAdd (floorTo us hourUs 0) hourUs ≤ maxUs + 1 := by
    simp only [saturatingAdd, floorTo, minI64, maxI64, maxUs, hourUs] at *
    omega
  have hday : saturatingAdd (floorTo us dayUs 0) dayUs ≤ maxUs + 1 := by
    simp only [saturatingAdd, floorTo, minI64, maxI64, maxUs, dayUs_eq] at *
    omega
  cases interval <;> assumption

/-- The instant of a point, where it has one, is within the calendar. -/
def Point.Within : Point → Prop
  | .exact us | .calendar us => us ≤ maxUs
  | .all => True

/-- The same at both ends of the calendar. -/
def Point.Instant : Point → Prop
  | .exact us | .calendar us => minUs ≤ us ∧ us ≤ maxUs
  | .all => True

theorem Point.Instant.within {point : Point} (h : point.Instant) : point.Within := by
  cases point with
  | exact us | calendar us => exact h.2
  | all => trivial

theorem parseInstant_within {text : String} {us : Int} (h : parseInstant C text = some us) : minUs ≤ us ∧ us ≤ maxUs := by
  have htime : ∀ {time : Option DateTime}, time.map fromDatetime = some us → minUs ≤ us ∧ us ≤ maxUs := fun {time} ht => by
    obtain ⟨time, -, rfl⟩ := Option.map_eq_some_iff.mp ht
    exact fromDatetime_within time
  simp only [parseInstant, Option.or_eq_some_iff] at h
  rcases h with h | ⟨-, h | ⟨-, h | ⟨-, h⟩⟩⟩
  · exact htime h
  · exact htime h
  · exact htime h
  · obtain ⟨date, -, rfl⟩ := Option.map_eq_some_iff.mp h
    exact dateStartUs_within date

theorem relativePoint_instant {text rest : List Char} {now : DateTime} {unit : Char} {point : Point}
    (h : relativePoint C text rest now unit = .ok point) : point.Instant := by
  rw [relativePoint] at h
  split at h
  · cases h
  split at h
  · cases h
  split at h
  · cases h
  · cases h
    exact fromDatetime_within _

theorem parsePoint_instant {text : String} {now : DateTime} {point : Point} (h : parsePoint C text now = .ok point) :
    point.Instant := by
  simp only [parsePoint] at h
  split at h
  · cases h
  split at h
  · cases h
    trivial
  split at h
  · cases h
    exact fromDatetime_within now
  split at h
  · split at h <;> cases h
    exact dateStartUs_within _
  split at h
  · split at h <;> cases h
    exact dateStartUs_within _
  split at h
  · exact relativePoint_instant h
  split at h
  · cases h
    exact dateStartUs_within _
  split at h
  · split at h
    · cases h
      exact parseInstant_within ‹_›
    · cases h
  · cases h

theorem alignDown_ge {us : Int} (interval : Interval) (h : minUs ≤ us) : minUs ≤ alignDown C us interval := by
  have hhour : minUs ≤ floorTo us hourUs 0 := by
    simp only [floorTo, minUs, hourUs] at *
    omega
  have hday : minUs ≤ floorTo us dayUs 0 := by
    simp only [floorTo, minUs, dayUs_eq] at *
    omega
  cases interval <;> assumption

/-- A range starts within the calendar, when the first event does. -/
theorem resolveFrom_ge {interval : Interval} {now : DateTime} {earliest : Except QueryError (Option Int)} {point : Point} {us : Int}
    (hfirst : ∀ first, earliest = .ok (some first) → minUs ≤ first) (hpoint : point.Instant)
    (h : resolveFrom C interval (fromDatetime now) earliest point = .ok us) : minUs ≤ us := by
  cases point with
  | exact us =>
    cases h
    exact hpoint.1
  | calendar us =>
    cases h
    exact alignDown_ge interval hpoint.1
  | all =>
    obtain ⟨first, hok, h⟩ := bind_ok.mp h
    cases h
    apply alignDown_ge
    cases first with
    | none => exact (fromDatetime_within now).1
    | some first => exact hfirst first hok

theorem resolveTo_le {interval : Interval} {now : DateTime} {dateTo : Option String} {us : Int}
    (h : resolveTo C interval now dateTo = .ok us) : us ≤ maxUs + 1 := by
  unfold resolveTo at h
  split at h
  · cases h
    exact alignEnd_le interval (fromDatetime_within now).2
  · cases h
    exact alignEnd_le interval (fromDatetime_within now).2
  · obtain ⟨point, hpoint, h⟩ := bind_ok.mp h
    have hwithin := (parsePoint_instant hpoint).within
    cases point with
    | exact us =>
      cases h
      simp only [Point.Within, maxUs] at hwithin
      simp only [saturatingAdd, minI64, maxI64, maxUs]
      omega
    | calendar us =>
      cases h
      exact alignEnd_le interval hwithin
    | all => cases h

/-- A resolved range is not empty, and ends within the calendar. -/
theorem resolve_within {dates : DateRange} {interval : Interval} {now : DateTime} {earliest : Except QueryError (Option Int)}
    {range : ResolvedRange} (h : resolveRange C dates interval now earliest = .ok range) :
    range.fromUs < range.toUs ∧ range.toUs ≤ maxUs + 1 := by
  obtain ⟨point, -, h⟩ := bind_ok.mp h
  obtain ⟨fromUs, -, h⟩ := bind_ok.mp h
  obtain ⟨toUs, hto, h⟩ := bind_ok.mp h
  by_cases hle : toUs ≤ fromUs
  · rw [if_pos hle] at h
    cases h
  · rw [if_neg hle] at h
    cases h
    exact ⟨lt_of_not_ge hle, resolveTo_le hto⟩

theorem resolve_from {dates : DateRange} {interval : Interval} {now : DateTime} {earliest : Except QueryError (Option Int)}
    {range : ResolvedRange} (hfirst : ∀ first, earliest = .ok (some first) → minUs ≤ first)
    (h : resolveRange C dates interval now earliest = .ok range) : minUs ≤ range.fromUs ∧ range.interval = interval := by
  obtain ⟨point, hpoint, h⟩ := bind_ok.mp h
  obtain ⟨fromUs, hfrom, h⟩ := bind_ok.mp h
  obtain ⟨toUs, -, h⟩ := bind_ok.mp h
  by_cases hle : toUs ≤ fromUs
  · rw [if_pos hle] at h
    cases h
  · rw [if_neg hle] at h
    cases h
    exact ⟨resolveFrom_ge hfirst (parsePoint_instant hpoint) hfrom, rfl⟩

/-- No bucket ends before the first one does. -/
theorem nextBucket_le {interval : Interval} {toUs : Int} (hto : toUs ≤ maxUs + 1) {room : Nat} {start : Int} {buckets : List Int}
    (h : bucketsFrom C interval toUs room start = .ok buckets) {bucket : Int} (hb : bucket ∈ buckets) :
    nextBucket C start interval ≤ nextBucket C bucket interval := by
  induction room generalizing start buckets with
  | zero =>
    rw [bucketsFrom] at h
    split at h <;> cases h
    cases hb
  | succ room ih =>
    rw [bucketsFrom] at h
    split at h
    · obtain ⟨rest, hrest, rfl⟩ := map_ok.mp h
      rcases List.mem_cons.mp hb with rfl | hb
      · exact le_rfl
      · -- a further bucket starts before the end, so the calendar still holds the start after this one
        have hnext : nextBucket C start interval < toUs := by
          by_contra hge
          cases room <;> rw [bucketsFrom, if_neg hge] at hrest <;> cases hrest <;> cases hb
        exact (le_nextBucket interval (by omega)).trans (ih hrest hb)
    · cases h
      cases hb

theorem buckets_head {range : ResolvedRange} {buckets : List Int} (h : range.buckets C = .ok buckets) {first : Int}
    (hf : buckets.head? = some first) : first = trunc C range.fromUs range.interval := by
  rw [ResolvedRange.buckets, maxBuckets, bucketsFrom] at h
  split at h
  · obtain ⟨rest, -, rfl⟩ := map_ok.mp h
    exact (Option.some.inj hf).symm
  · cases h
    cases hf

end bounds

end Hoglet.Query
