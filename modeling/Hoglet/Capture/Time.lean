import Mathlib.Data.Int.Basic
import Mathlib.Tactic

/-! Instants as the capture path uses them: nanoseconds since the epoch within chrono's range, and the
civil day they fall on. Leap seconds are not represented. -/
namespace Hoglet.Capture

def nsPerMs : Int := 1000000
def nsPerDay : Int := 86400 * 1000000000

/-- `DateTime::<Utc>::MIN_UTC`, the first day of year -262143. -/
def minNs : Int := -8334601228800 * 1000000000
/-- `DateTime::<Utc>::MAX_UTC`, the last day of year 262142. -/
def maxNs : Int := 8210266876799 * 1000000000 + 999999999

structure DateTime where
  ns : Int
  min_le : minNs ≤ ns
  le_max : ns ≤ maxNs
  deriving DecidableEq, Repr

namespace DateTime

def ofNs (ns : Int) : Option DateTime :=
  if h : minNs ≤ ns ∧ ns ≤ maxNs then some ⟨ns, h.1, h.2⟩ else none

/-- The epoch's own instant at `seconds`, for the seconds of this age. -/
def ofSeconds (seconds : Nat) (h : (seconds : Int) ≤ 8210266876799 := by decide) : DateTime :=
  ⟨seconds * 1000000000, by simp only [minNs]; omega, by simp only [maxNs]; omega⟩

/-- `checked_sub_signed`. -/
def checkedSubSigned (t : DateTime) (duration : Int) : Option DateTime := ofNs (t.ns - duration)

def milliseconds (t : DateTime) : Int := t.ns / nsPerMs

theorem ofNs_ns (t : DateTime) : ofNs t.ns = some t := by simp [ofNs, t.min_le, t.le_max]

end DateTime

theorem ofNs_eq_some {ns : Int} {time : DateTime} : DateTime.ofNs ns = some time ↔ time.ns = ns := by
  constructor
  · intro h
    rw [DateTime.ofNs] at h
    split at h
    · cases h
      rfl
    · cases h
  · rintro rfl
    exact DateTime.ofNs_ns time

theorem exists_ofNs {ns : Int} (hmin : minNs ≤ ns) (hmax : ns ≤ maxNs) : ∃ time, DateTime.ofNs ns = some time :=
  ⟨⟨ns, hmin, hmax⟩, dif_pos ⟨hmin, hmax⟩⟩

/-- `Duration::try_milliseconds`, in nanoseconds. -/
def tryMilliseconds (ms : Int) : Option Int := if ms < -(2^63 - 1) then none else some (ms * nsPerMs)

def hours (n : Int) : Int := n * 3600 * 1000000000

/-- A day of the proleptic Gregorian calendar. -/
structure Civil where
  year : Int
  month : Nat
  day : Nat
  deriving DecidableEq, Repr

/-- The civil date `days` after the epoch. Years start in March while it counts, so that the leap day
is the last one. -/
def civil (days : Int) : Civil :=
  let shifted := days + 719468
  let era := shifted / 146097
  let dayOfEra := (shifted % 146097).toNat
  let yearOfEra := (dayOfEra - dayOfEra / 1460 + dayOfEra / 36524 - dayOfEra / 146096) / 365
  let dayOfYear := dayOfEra - (365 * yearOfEra + yearOfEra / 4 - yearOfEra / 100)
  let monthIndex := (5 * dayOfYear + 2) / 153
  let month := if monthIndex < 10 then monthIndex + 3 else monthIndex - 9
  ⟨yearOfEra + era * 400 + (if month ≤ 2 then 1 else 0), month, dayOfYear - (153 * monthIndex + 2) / 5 + 1⟩

example : civil 0 = ⟨1970, 1, 1⟩ := by decide
example : civil 20655 = ⟨2026, 7, 21⟩ := by decide

/-- `date_naive()`. -/
def DateTime.date (t : DateTime) : Civil := civil (t.ns / nsPerDay)

/-- Decimal digits, padded with zeros to a width. -/
def padded (width n : Nat) : List Char :=
  List.replicate (width - (Nat.toDigits 10 n).length) '0' ++ Nat.toDigits 10 n

/-- `%Y`: four digits, and a sign and as many digits as it takes outside the years 0 to 9999. -/
def yearText (year : Int) : List Char :=
  if 0 ≤ year ∧ year ≤ 9999 then padded 4 year.toNat
  else (if year < 0 then '-' else '+') :: padded 4 year.natAbs

/-- `format("%Y-%m-%d")`. -/
def Civil.text (date : Civil) : String :=
  String.ofList (yearText date.year ++ '-' :: padded 2 date.month ++ '-' :: padded 2 date.day)

/-- The time of day, to the second. -/
def DateTime.clockText (t : DateTime) : List Char :=
  let seconds := (t.ns % nsPerDay / 1000000000).toNat
  padded 2 (seconds / 3600) ++ ':' :: padded 2 (seconds / 60 % 60) ++ ':' :: padded 2 (seconds % 60)

def DateTime.subsecNanos (t : DateTime) : Nat := (t.ns % 1000000000).toNat

/-- `to_rfc3339`, with as many groups of three fraction digits as it takes. -/
def DateTime.toRfc3339 (t : DateTime) : String :=
  let nanos := t.subsecNanos
  let fraction :=
    if nanos = 0 then []
    else if nanos % 1000000 = 0 then '.' :: padded 3 (nanos / 1000000)
    else if nanos % 1000 = 0 then '.' :: padded 6 (nanos / 1000)
    else '.' :: padded 9 nanos
  String.ofList (t.date.text.toList ++ 'T' :: t.clockText ++ fraction ++ ['+', '0', '0', ':', '0', '0'])

/-- `%Y-%m-%dT%H:%M:%S%.6fZ`. -/
def DateTime.sortableTime (t : DateTime) : String :=
  String.ofList (t.date.text.toList ++ 'T' :: t.clockText ++ '.' :: padded 6 (t.subsecNanos / 1000) ++ ['Z'])

theorem le_length_padded (width n : Nat) : width ≤ (padded width n).length := by
  simp only [padded, List.length_append, List.length_replicate]
  omega

theorem length_padded (width : Nat) {n : Nat} (h0 : 0 < width) (h : n < 10 ^ width) : (padded width n).length = width := by
  have := (Nat.length_toDigits_le_iff (b := 10) (by norm_num) h0).mpr h
  simp only [padded, List.length_append, List.length_replicate]
  omega

theorem length_yearText (year : Int) :
    4 ≤ (yearText year).length ∧ ((yearText year).length = 4 ↔ 0 ≤ year ∧ year ≤ 9999) := by
  unfold yearText
  by_cases h : 0 ≤ year ∧ year ≤ 9999
  · rw [if_pos h, length_padded 4 (by norm_num) (by omega)]
    simp [h]
  · have := le_length_padded 4 year.natAbs
    rw [if_neg h]
    simp only [List.length_cons]
    omega

theorem civil_bounds (days : Int) : (civil days).month < 100 ∧ (civil days).day < 100 := by
  simp only [civil]
  have hpos : 0 ≤ (days + 719468) % 146097 := Int.emod_nonneg _ (by norm_num)
  have hlt : (days + 719468) % 146097 < 146097 := Int.emod_lt_of_pos _ (by norm_num)
  obtain ⟨n, hn⟩ : ∃ n : Nat, (days + 719468) % 146097 = n := ⟨_, (Int.toNat_of_nonneg hpos).symm⟩
  have hb : n < 146097 := by omega
  rw [hn, Int.toNat_natCast]
  set y := (n - n / 1460 + n / 36524 - n / 146096) / 365 with hy
  have hd : n - (365 * y + y / 4 - y / 100) ≤ 366 := by omega
  generalize n - (365 * y + y / 4 - y / 100) = d at *
  constructor
  · split <;> omega
  · omega

/-- The day's text is ten characters long exactly in the years 0 to 9999. -/
theorem length_dayText (t : DateTime) : t.date.text.length = 10 ↔ 0 ≤ t.date.year ∧ t.date.year ≤ 9999 := by
  obtain ⟨hm, hd⟩ := civil_bounds (t.ns / nsPerDay)
  obtain ⟨h4, hy⟩ := length_yearText t.date.year
  rw [← hy]
  simp only [Civil.text, String.length_ofList, List.length_append, List.length_cons, DateTime.date,
    length_padded 2 (by norm_num) hm, length_padded 2 (by norm_num) hd] at *
  omega

end Hoglet.Capture
