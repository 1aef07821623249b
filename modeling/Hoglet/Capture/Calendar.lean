import Hoglet.Capture.Time
import Mathlib.Order.Monotone.Basic
import Mathlib.Tactic.Linarith

/-! The months of the proleptic Gregorian calendar, counted through: the first day of each, and the civil dates of its days. -/
namespace Hoglet.Capture

/-! The years of an era of four hundred, which start in March. -/

/-- The days of an era before one of its years. -/
def yearStart (year : Nat) : Nat := 365 * year + year / 4 - year / 100 + year / 400

def yearOfEra (dayOfEra : Nat) : Nat := (dayOfEra - dayOfEra / 1460 + dayOfEra / 36524 - dayOfEra / 146096) / 365

private theorem yearOfEra_succ (dayOfEra : Nat) (h : dayOfEra < 146096) : yearOfEra dayOfEra ≤ yearOfEra (dayOfEra + 1) := by
  apply Nat.div_le_div_right
  omega

theorem yearOfEra_mono {a b : Nat} (hab : a ≤ b) (hb : b < 146097) : yearOfEra a ≤ yearOfEra b := by
  induction hab with
  | refl => exact le_rfl
  | step _ ih => exact (ih (by omega)).trans (yearOfEra_succ _ (by omega))

/-- The first and the last day of each year. -/
private theorem yearOfEra_ends : ∀ year < 400, yearOfEra (yearStart year) = year ∧ yearOfEra (yearStart (year + 1) - 1) = year := by
  decide +kernel

theorem yearStart_lt (year : Nat) : yearStart year < yearStart (year + 1) := by
  simp only [yearStart]
  omega

private theorem yearStart_le (year : Nat) : yearStart (year + 1) ≤ yearStart year + 366 := by
  simp only [yearStart]
  omega

private theorem yearStart_eq {year : Nat} (hy : year < 400) : 365 * year + year / 4 - year / 100 = yearStart year := by
  simp only [yearStart]
  omega

theorem yearStart_mono : StrictMono yearStart := strictMono_nat_of_lt_succ yearStart_lt

theorem yearOfEra_eq {year dayOfEra : Nat} (hy : year < 400) (h : yearStart year ≤ dayOfEra) (h' : dayOfEra < yearStart (year + 1)) :
    yearOfEra dayOfEra = year := by
  have hend : yearStart (year + 1) ≤ yearStart 400 := yearStart_mono.monotone (by omega)
  have hlast : yearStart 400 = 146097 := rfl
  obtain ⟨hfirst, hlast⟩ := yearOfEra_ends year hy
  apply le_antisymm
  · calc yearOfEra dayOfEra ≤ yearOfEra (yearStart (year + 1) - 1) := yearOfEra_mono (by omega) (by omega)
      _ = year := hlast
  · calc year = yearOfEra (yearStart year) := hfirst.symm
      _ ≤ yearOfEra dayOfEra := yearOfEra_mono h (by omega)

private theorem exists_year {dayOfEra : Nat} (years : Nat) (h : dayOfEra < yearStart years) :
    ∃ year < years, yearStart year ≤ dayOfEra ∧ dayOfEra < yearStart (year + 1) := by
  induction years with
  | zero => exact absurd h (Nat.not_lt_zero _)
  | succ years ih =>
    by_cases hlt : dayOfEra < yearStart years
    · obtain ⟨year, hy, hyear⟩ := ih hlt
      exact ⟨year, by omega, hyear⟩
    · exact ⟨years, by omega, by omega, h⟩

theorem yearOfEra_spec {dayOfEra : Nat} (h : dayOfEra < 146097) :
    yearOfEra dayOfEra < 400 ∧ yearStart (yearOfEra dayOfEra) ≤ dayOfEra ∧ dayOfEra < yearStart (yearOfEra dayOfEra + 1) := by
  obtain ⟨year, hy, hle, hlt⟩ := exists_year 400 h
  rw [yearOfEra_eq hy hle hlt]
  exact ⟨hy, hle, hlt⟩

/-! Months. -/

/-- The days of a year before one of its months, of which March is the first. -/
def monthStart (month : Nat) : Nat := (153 * month + 2) / 5

/-- The first day of a month, counted from March of the year 0. -/
def monthFirst (n : Int) : Int :=
  n / 4800 * 146097 + yearStart (n / 12 % 400).toNat + monthStart (n % 12).toNat - 719468

/-- The month of a day. -/
def monthIndex (days : Int) : Int :=
  let shifted := days + 719468
  let dayOfEra := (shifted % 146097).toNat
  let dayOfYear := dayOfEra - yearStart (yearOfEra dayOfEra)
  (shifted / 146097 * 400 + yearOfEra dayOfEra) * 12 + ((5 * dayOfYear + 2) / 153 : Nat)

/-- The civil date of a day of a month. -/
def monthDay (n : Int) (day : Nat) : Civil :=
  ⟨n / 12 + if n % 12 < 10 then 0 else 1, (if n % 12 < 10 then n % 12 + 3 else n % 12 - 9).toNat, day⟩

theorem exists_month (n : Int) : ∃ (era : Int) (year month : Nat), year < 400 ∧ month < 12 ∧ n = (era * 400 + year) * 12 + month :=
  ⟨n / 4800, (n / 12 % 400).toNat, (n % 12).toNat, by omega, by omega, by omega⟩

theorem monthFirst_eq (era : Int) {year month : Nat} (hy : year < 400) (hm : month < 12) :
    monthFirst ((era * 400 + year) * 12 + month) = era * 146097 + yearStart year + monthStart month - 719468 := by
  have hera : ((era * 400 + year) * 12 + month) / 4800 = era := by omega
  have hyear : (((era * 400 + year) * 12 + month) / 12 % 400).toNat = year := by omega
  have hmonth : (((era * 400 + year) * 12 + month) % 12).toNat = month := by omega
  rw [monthFirst, hera, hyear, hmonth]

/-- The month after the last one of a year. -/
theorem monthFirst_year (era : Int) {year : Nat} (hy : year < 400) :
    monthFirst ((era * 400 + year) * 12 + 12) = era * 146097 + yearStart (year + 1) - 719468 := by
  by_cases hlast : year = 399
  · have hera : (era * 400 + year) * 12 + 12 = ((era + 1) * 400 + (0 : Nat)) * 12 + (0 : Nat) := by omega
    rw [hera, monthFirst_eq (era + 1) (by omega) (by omega), hlast]
    simp only [yearStart, monthStart]
    omega
  · have hyear : (era * 400 + year) * 12 + 12 = (era * 400 + (year + 1 : Nat)) * 12 + (0 : Nat) := by omega
    rw [hyear, monthFirst_eq era (by omega) (by omega)]
    simp only [monthStart]
    omega

/-- The month after one within its year or at its end. -/
theorem monthFirst_next (era : Int) {year month : Nat} (hy : year < 400) (hm : month < 12) :
    monthFirst ((era * 400 + year) * 12 + month + 1) =
      era * 146097 + (if month < 11 then yearStart year + monthStart (month + 1) else yearStart (year + 1)) - 719468 := by
  split
  · have hnext : (era * 400 + year) * 12 + month + 1 = (era * 400 + year) * 12 + (month + 1 : Nat) := by omega
    rw [hnext, monthFirst_eq era hy (by omega)]
    push_cast
    ring
  · have hnext : (era * 400 + year) * 12 + month + 1 = (era * 400 + year) * 12 + 12 := by omega
    rw [hnext, monthFirst_year era hy]

theorem monthFirst_lt (n : Int) : monthFirst n < monthFirst (n + 1) := by
  obtain ⟨era, year, month, hy, hm, rfl⟩ := exists_month n
  rw [monthFirst_next era hy hm, monthFirst_eq era hy hm]
  split
  · simp only [monthStart]
    omega
  · simp only [monthStart, yearStart]
    omega

theorem monthFirst_mono : StrictMono monthFirst := strictMono_int_of_lt_succ monthFirst_lt

/-- Which month of its year a day is in. -/
private theorem month_of_day (day : Nat) : monthStart ((5 * day + 2) / 153) ≤ day ∧ day < monthStart ((5 * day + 2) / 153 + 1) := by
  simp only [monthStart]
  omega

section day
variable (days : Int)

/-- A day in its era, year and month. -/
private theorem exists_day : ∃ (era : Int) (dayOfEra : Nat), dayOfEra < 146097 ∧ days = era * 146097 + dayOfEra - 719468 :=
  ⟨(days + 719468) / 146097, ((days + 719468) % 146097).toNat, by omega, by omega⟩

private theorem monthIndex_eq (era : Int) {dayOfEra : Nat} (h : dayOfEra < 146097) :
    monthIndex (era * 146097 + dayOfEra - 719468) =
      (era * 400 + yearOfEra dayOfEra) * 12 + ((5 * (dayOfEra - yearStart (yearOfEra dayOfEra)) + 2) / 153 : Nat) := by
  have hera : (era * 146097 + dayOfEra - 719468 + 719468) / 146097 = era := by omega
  have hday : ((era * 146097 + dayOfEra - 719468 + 719468) % 146097).toNat = dayOfEra := by omega
  rw [monthIndex]
  simp only [hera, hday]

/-- A day lies in its month. -/
theorem monthIndex_spec : monthFirst (monthIndex days) ≤ days ∧ days < monthFirst (monthIndex days + 1) := by
  obtain ⟨era, dayOfEra, h, rfl⟩ := exists_day days
  obtain ⟨hy, hle, hlt⟩ := yearOfEra_spec h
  rw [monthIndex_eq era h]
  generalize yearOfEra dayOfEra = year at *
  have hyear := yearStart_le year
  obtain ⟨hstart, hnext⟩ := month_of_day (dayOfEra - yearStart year)
  have hm : (5 * (dayOfEra - yearStart year) + 2) / 153 < 12 := by omega
  generalize (5 * (dayOfEra - yearStart year) + 2) / 153 = month at *
  rw [monthFirst_next era hy hm, monthFirst_eq era hy hm]
  constructor
  · omega
  · split
    · omega
    · omega

theorem monthIndex_eq_iff (n : Int) : monthIndex days = n ↔ monthFirst n ≤ days ∧ days < monthFirst (n + 1) := by
  obtain ⟨hle, hlt⟩ := monthIndex_spec days
  constructor
  · rintro rfl
    exact ⟨hle, hlt⟩
  · rintro ⟨hle', hlt'⟩
    have h := monthFirst_mono.lt_iff_lt.mp (hle.trans_lt hlt')
    have h' := monthFirst_mono.lt_iff_lt.mp (hle'.trans_lt hlt)
    omega

/-- The civil date of a day, by its month. -/
theorem civil_eq : civil days = monthDay (monthIndex days) (days - monthFirst (monthIndex days) + 1).toNat := by
  obtain ⟨era, dayOfEra, h, rfl⟩ := exists_day days
  obtain ⟨hy, hle, hlt⟩ := yearOfEra_spec h
  have hera : (era * 146097 + dayOfEra - 719468 + 719468) / 146097 = era := by omega
  have hday : ((era * 146097 + dayOfEra - 719468 + 719468) % 146097).toNat = dayOfEra := by omega
  have hlow := (monthIndex_spec (era * 146097 + dayOfEra - 719468)).1
  rw [monthIndex_eq era h] at hlow ⊢
  simp only [civil, hera, hday]
  rw [show (dayOfEra - dayOfEra / 1460 + dayOfEra / 36524 - dayOfEra / 146096) / 365 = yearOfEra dayOfEra from rfl]
  generalize yearOfEra dayOfEra = year at *
  have hyear := yearStart_le year
  rw [yearStart_eq hy]
  have hm : (5 * (dayOfEra - yearStart year) + 2) / 153 < 12 := by omega
  generalize hmonth : (5 * (dayOfEra - yearStart year) + 2) / 153 = month at *
  rw [monthFirst_eq era hy hm] at hlow ⊢
  simp only [monthDay, monthStart, Civil.mk.injEq] at hlow ⊢
  refine ⟨?_, ?_, ?_⟩
  · split
    · split <;> omega
    · split <;> omega
  · split
    · split <;> omega
    · split <;> omega
  · omega

end day

/-- The months from January of the year 0 to the date's. -/
def Civil.months (date : Civil) : Int := date.year * 12 + date.month - 1

theorem months_monthDay (n : Int) (day : Nat) : (monthDay n day).months = n + 2 := by
  simp only [Civil.months, monthDay]
  split
  · omega
  · omega

theorem monthDay_eq (n : Int) (day : Nat) : monthDay n day = ⟨(n + 2) / 12, ((n + 2) % 12).toNat + 1, day⟩ := by
  simp only [monthDay, Civil.mk.injEq, and_true]
  by_cases h : n % 12 < 10
  · rw [if_pos h, if_pos h]
    omega
  · rw [if_neg h, if_neg h]
    omega

theorem months_civil (days : Int) : (civil days).months = monthIndex days + 2 := by rw [civil_eq, months_monthDay]

theorem civil_inj {a b : Int} (h : civil a = civil b) : a = b := by
  have hindex : monthIndex a = monthIndex b := by
    have hmonths := congrArg Civil.months h
    rw [months_civil, months_civil] at hmonths
    omega
  have hday := congrArg Civil.day h
  rw [civil_eq, civil_eq, hindex] at hday
  have ha := (monthIndex_spec a).1
  have hb := (monthIndex_spec b).1
  simp only [monthDay] at hday
  rw [hindex] at ha
  omega

theorem day_pos (days : Int) : 0 < (civil days).day := by
  have h := (monthIndex_spec days).1
  rw [civil_eq]
  simp only [monthDay]
  omega

/-- The first of a month. -/
theorem day_eq_one_iff (days : Int) : (civil days).day = 1 ↔ days = monthFirst (monthIndex days) := by
  have h := (monthIndex_spec days).1
  rw [civil_eq]
  simp only [monthDay]
  omega

theorem monthIndex_monthFirst (n : Int) : monthIndex (monthFirst n) = n := (monthIndex_eq_iff _ n).mpr ⟨le_rfl, monthFirst_lt n⟩

/-- The days of a month are counted back to its first. -/
theorem sub_day_add_one (days : Int) : days - (civil days).day + 1 = monthFirst (monthIndex days) := by
  have h := (monthIndex_spec days).1
  rw [civil_eq]
  simp only [monthDay]
  omega

end Hoglet.Capture
