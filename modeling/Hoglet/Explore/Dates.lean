import Hoglet.Explore.Web
import Hoglet.Query.Buckets
import Hoglet.Tiling

/-! The dates of a web query: its texts resolved, the previous period and the oldest event, the interval, the days to
read. A subtraction that leaves chrono's calendar panics. -/
namespace Hoglet.Explore
open Capture Json
open Query (Interval Chrono Date dateNaive toDatetime subMonths trim)

/-- Largest relative offset accepted. -/
def maxRelativeAmount : Nat := 100000
/-- Longest date string accepted. -/
def maxDateLength : Nat := 64

inductive Panic where
  | overflow
  deriving DecidableEq, Repr

structure WebQuery where
  dateFrom : String
  dateTo : Option String
  interval : Option Interval

/-- `none` for `all`: the caller substitutes the oldest stored event. -/
structure Resolved where
  fromTime : Option DateTime
  toTime : DateTime

def invalidDate (field : String) : ExploreError :=
  .invalid field "Unrecognized date. Use -24h, -7d, -4w, -3m, -1y, dStart, mStart, yStart, all, or an ISO 8601 date."

def notBefore : ExploreError := .invalid "date_from" "date_from must be before date_to."

private theorem minNs_le (day : Date) : minNs ≤ day.days * nsPerDay := by
  have h := day.min_le
  simp only [minNs, nsPerDay]
  omega

private theorem le_maxNs (day : Date) : day.days * nsPerDay ≤ maxNs := by
  have h := day.le_max
  simp only [maxNs, nsPerDay]
  omega

def dayStart (day : Date) : DateTime := ⟨day.days * nsPerDay, minNs_le day, le_maxNs day⟩

def startOfDay (time : DateTime) : DateTime := dayStart (dateNaive time)

/-- `str::parse::<u32>`. -/
def parseU32 (cs : List Char) : Option Nat :=
  let digits := match cs with
    | '+' :: digits => digits
    | digits => digits
  let value := Nat.ofDigitChars 10 digits 0
  if digits ≠ [] ∧ digits.all Char.isDigit ∧ value < 2^32 then some value else none

section resolve
variable (C : Chrono)

/-- An instant some units before now; hours keep the hour, larger units snap to the start of the day. -/
def shifted (now : DateTime) (amount : Nat) : Char → Option (DateTime × Bool)
  | 'h' => (now.checkedSubSigned (hours amount)).map (·, false)
  | 'd' => (now.checkedSubSigned (amount * nsPerDay)).map fun time => (startOfDay time, true)
  | 'w' => (now.checkedSubSigned (amount * (7 * nsPerDay))).map fun time => (startOfDay time, true)
  | 'm' => (subMonths C now amount).map fun time => (startOfDay time, true)
  | 'y' => (subMonths C now (amount * 12)).map fun time => (startOfDay time, true)
  | _ => none

/-- `-7d` and its like. -/
def relative (text : List Char) (now : DateTime) : Option (DateTime × Bool) :=
  match text with
  | '-' :: body =>
    body.getLast?.bind fun unit => (parseU32 body.dropLast).bind fun amount =>
      if maxRelativeAmount < amount then none else shifted C now amount unit
  | _ => none

/-- An absolute date or datetime, and whether it was a bare date. -/
def absolute (text : String) : Option (DateTime × Bool) :=
  ((C.parseDate text).map fun day => (dayStart day, true)).or <|
    ((C.parseRfc3339 text).map (·, false)).or <|
      ["%Y-%m-%dT%H:%M:%S%.f", "%Y-%m-%d %H:%M:%S%.f", "%Y-%m-%dT%H:%M"].findSome? fun format =>
        (C.parseNaive text format).map (·, false)

def named (text : String) (now : DateTime) : Option DateTime :=
  let today := dateNaive now
  match text with
  | "dStart" => some (dayStart today)
  | "mStart" => (C.fromYmd (civil today.days).year (civil today.days).month 1).map dayStart
  | "yStart" => (C.fromYmd (civil today.days).year 1 1).map dayStart
  | _ => none

def resolveFrom (dateFrom : String) (now : DateTime) : Except ExploreError (Option DateTime) :=
  let text := trim dateFrom.toList
  if maxDateLength < (utf8 text).length then .error (invalidDate "date_from")
  else if String.ofList text = "all" then .ok none
  else
    match (named C (String.ofList text) now).or (((relative C text now).or (absolute C (String.ofList text))).map Prod.fst) with
    | some time => .ok (some time)
    | none => .error (invalidDate "date_from")

/-- A bare day, or a relative date that snaps to one, includes that whole day. -/
def wholeDay : DateTime × Bool → Except ExploreError DateTime
  | (time, false) => .ok time
  | (time, true) =>
    match DateTime.ofNs (time.ns + nsPerDay) with
    | some time => .ok time
    | none => .error (invalidDate "date_to")

def resolveTo (dateTo : Option String) (now : DateTime) : Except ExploreError DateTime :=
  match (dateTo.map fun text => trim text.toList).filter (· ≠ []) with
  | none => .ok now
  | some text =>
    if maxDateLength < (utf8 text).length then .error (invalidDate "date_to")
    else
      match named C (String.ofList text) now with
      | some time => .ok time
      | none =>
        match (relative C text now).or (absolute C (String.ofList text)) with
        | some time => wholeDay time
        | none => .error (invalidDate "date_to")

def resolve (dateFrom : String) (dateTo : Option String) (now : DateTime) : Except ExploreError Resolved := do
  let fromTime ← resolveFrom C dateFrom now
  let toTime ← resolveTo C dateTo now
  if fromTime.any fun time => toTime.ns ≤ time.ns then .error notBefore else .ok ⟨fromTime, toTime⟩

end resolve

/-! What panics outside the calendar. -/

/-- `time - duration`. -/
def minus (time : DateTime) (ns : Int) : Except Panic DateTime :=
  match DateTime.ofNs (time.ns - ns) with
  | some time => .ok time
  | none => .error .overflow

def truncateChecked (time : DateTime) (interval : Interval) : Except Panic DateTime :=
  match truncate time interval with
  | some start => .ok start
  | none => .error .overflow

def oneMicro : Int := 1000

/-- First and exclusive-last UTC day touched by a range. -/
def daySpan (fromTime toTime : DateTime) : Except Panic (Date × Date) := do
  let last ← minus toTime oneMicro
  return (dateNaive fromTime, (dateNaive last).succ.getD (dateNaive last))

section plan
variable (C : Chrono)

/-- `buckets`, whose own `none` is a range with too many. -/
def bucketsChecked (fromTime toTime : DateTime) (interval : Interval) : Except Panic (Option (List DateTime)) := do
  let start ← truncateChecked fromTime interval
  return bucketsFrom C toTime interval maxBuckets start

abbrev Chosen := Except ExploreError (Interval × List DateTime)

/-- The first of these intervals that fits. -/
def widen (fromTime toTime : DateTime) : List Interval → Except Panic Chosen
  | [] => .ok (.error (.invalid "date_from" "The date range is too long."))
  | interval :: wider => do
    match ← bucketsChecked C fromTime toTime interval with
    | some days => return .ok (interval, days)
    | none => widen fromTime toTime wider

/-- `choose_interval`. -/
def chooseChecked (requested : Option Interval) (fromTime toTime : DateTime) : Except Panic Chosen :=
  match requested with
  | some interval => do
    match ← bucketsChecked C fromTime toTime interval with
    | some days => return .ok (interval, days)
    | none => return .error (.invalid "interval" "Too many buckets for this interval; choose a wider one.")
  | none => widen C fromTime toTime [if toTime.ns - fromTime.ns ≤ hours 48 then .hour else .day, .day, .week, .month]

/-- What the plan asks of the rest of the program: whether the filters compile, and the oldest event of the days up to one. -/
structure Lookup where
  compiled : Except ExploreError Unit
  oldest : Date → Except ExploreError (Option Int)

def oldestEvent (lookup : Lookup) (toTime : DateTime) : Except Panic (Except ExploreError (Option DateTime)) := do
  let before ← minus toTime oneMicro
  let span ← daySpan before toTime
  return (lookup.oldest span.2).map fun us => us.map toDatetime

structure Planned where
  fromTime : DateTime
  toTime : DateTime
  previousFrom : Option DateTime
  ordered : fromTime.ns < toTime.ns

def ordered (fromTime toTime : DateTime) (previousFrom : Option DateTime) : Except ExploreError Planned :=
  if h : fromTime.ns < toTime.ns then .ok ⟨fromTime, toTime, previousFrom, h⟩ else .error notBefore

/-- `plan`, with the previous period. -/
def planDates (lookup : Lookup) (query : WebQuery) (now : DateTime) : Except Panic (Except ExploreError Planned) :=
  match resolve C query.dateFrom query.dateTo now with
  | .error e => .ok (.error e)
  | .ok range =>
    match lookup.compiled with
    | .error e => .ok (.error e)
    | .ok () =>
      match range.fromTime with
      | some fromTime => .ok (ordered fromTime range.toTime (fromTime.checkedSubSigned (range.toTime.ns - fromTime.ns)))
      | none => do
        match ← oldestEvent lookup range.toTime with
        | .error e => return .error e
        | .ok (some fromTime) => return ordered fromTime range.toTime none
        | .ok none =>
          let fromTime ← truncateChecked range.toTime .day
          return ordered fromTime range.toTime none

structure WebDates where
  plan : Planned
  interval : Interval
  days : List DateTime
  span : Date × Date

/-- The dates that the overview starts with. -/
def webDates (lookup : Lookup) (query : WebQuery) (now : DateTime) : Except Panic (Except ExploreError WebDates) := do
  match ← planDates C lookup query now with
  | .error e => return .error e
  | .ok plan =>
    match ← chooseChecked C query.interval plan.fromTime plan.toTime with
    | .error e => return .error e
    | .ok (interval, days) =>
      let span ← daySpan (plan.previousFrom.getD plan.fromTime) plan.toTime
      return .ok ⟨plan, interval, days, span⟩

end plan
end Hoglet.Explore
