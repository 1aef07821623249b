import Hoglet.Capture.Calendar
import Hoglet.Query.Spans
import Hoglet.Query.Trends.Periods

/-! A bucket holds the instants from its start to the next one, months included, whose lengths are chrono's. -/
namespace Hoglet.Query
open Capture
open Trends (bucketExpr floorExpr_eq)

/-- What chrono documents of months: a date has its civil date, and the first of a month goes to the first of another one,
where the calendar has it. -/
structure Chrono.Gregorian (C : Chrono) : Prop where
  fromYmd : ∀ year month day date, C.fromYmd year month day = some date ↔ civil date.days = ⟨year, month, day⟩
  addMonths : ∀ date n next, (civil date.days).day = 1 → 0 < n → (C.addMonths date n = some next ↔
    (civil next.days).day = 1 ∧ (civil next.days).months = (civil date.days).months + n)
  subMonths : ∀ date n previous, (civil date.days).day = 1 → 0 < n → (C.subMonths date n = some previous ↔
    (civil previous.days).day = 1 ∧ (civil previous.days).months = (civil date.days).months - n)

/-! The first days of months. -/
section months
variable {C : Chrono}

theorem ofDays_days {days : Int} {date : Date} : Date.ofDays days = some date ↔ date.days = days := by
  rw [Date.ofDays]
  constructor
  · intro h
    split at h
    · cases h
      rfl
    · cases h
  · rintro rfl
    rw [dif_pos ⟨date.min_le, date.le_max⟩]

private theorem first_iff {date : Date} {n : Int} :
    (civil date.days).day = 1 ∧ (civil date.days).months = n + 2 ↔ date.days = monthFirst n := by
  rw [day_eq_one_iff, months_civil]
  constructor
  · rintro ⟨hfirst, hmonths⟩
    rwa [show monthIndex date.days = n by omega] at hfirst
  · intro h
    rw [h, monthIndex_monthFirst]
    exact ⟨rfl, rfl⟩

theorem Chrono.Gregorian.addMonths_first (hC : C.Gregorian) {date : Date} {n : Int} (h : date.days = monthFirst n) :
    C.addMonths date 1 = Date.ofDays (monthFirst (n + 1)) := by
  obtain ⟨hday, hmonths⟩ := first_iff.mpr h
  apply Option.ext
  intro next
  rw [hC.addMonths date 1 next hday Nat.one_pos, ofDays_days, ← first_iff, hmonths]
  push_cast
  rw [show n + 2 + 1 = n + 1 + 2 by ring]

theorem Chrono.Gregorian.subMonths_first (hC : C.Gregorian) {date : Date} {n : Int} (h : date.days = monthFirst n) :
    C.subMonths date 1 = Date.ofDays (monthFirst (n - 1)) := by
  obtain ⟨hday, hmonths⟩ := first_iff.mpr h
  apply Option.ext
  intro previous
  rw [hC.subMonths date 1 previous hday Nat.one_pos, ofDays_days, ← first_iff, hmonths]
  push_cast
  rw [show n + 2 - 1 = n - 1 + 2 by ring]

/-- The first of the month of a date. -/
theorem Chrono.Gregorian.fromYmd_first (hC : C.Gregorian) (date : Date) :
    C.fromYmd (civil date.days).year (civil date.days).month 1 = Date.ofDays (monthFirst (monthIndex date.days)) := by
  apply Option.ext
  intro first
  rw [hC.fromYmd, ofDays_days, ← first_iff, civil_eq date.days]
  constructor
  · intro h
    rw [h]
    exact ⟨rfl, months_monthDay _ 1⟩
  · intro h
    have hfirst := first_iff.mp h
    rw [civil_eq first.days, hfirst, monthIndex_monthFirst]
    simp [monthDay]

end months

/-! Buckets. -/
section buckets
variable {C : Chrono} {interval : Interval} {start ts us : Int}

/-- The start of a bucket within the calendar; a week may start before it. -/
structure Starts (interval : Interval) (start : Int) : Prop where
  aligned : bucketExpr interval start = start
  le_max : start ≤ maxUs
  min_le : minUs - weekUs ≤ start
  min_le_month : interval = .month → minUs ≤ start

theorem bucketExpr_month (ts : Int) : bucketExpr .month ts = monthFirst (monthIndex (ts / dayUs)) * dayUs := by
  rw [bucketExpr, Explore.dateTrunc, sub_day_add_one]

private theorem Starts.month (h : Starts .month start) : ∃ n, start = monthFirst n * dayUs ∧ (dayOf start).days = monthFirst n := by
  have haligned := h.aligned
  rw [bucketExpr_month] at haligned
  refine ⟨monthIndex (start / dayUs), haligned.symm, ?_⟩
  rw [dayOf_days, if_pos ⟨h.min_le_month rfl, h.le_max⟩]
  nth_rewrite 1 [← haligned]
  exact Int.mul_ediv_cancel _ (by decide)

/-- The calendar starts with a month. -/
private theorem monthFirst_min : monthFirst (monthIndex (-96465292)) = -96465292 := by decide +kernel

/-- The start of the date a number of days from the epoch, if the calendar has it. -/
private theorem ofDays_start (days : Int) (default : Int) : ((Date.ofDays days).map dateStartUs).getD default =
    if Date.min.days ≤ days ∧ days ≤ Date.max.days then days * dayUs else default := by
  rw [Date.ofDays]
  split
  · rename_i h
    exact (if_pos h).symm
  · rename_i h
    exact (if_neg h).symm

/-- The month of an instant is the one that starts a bucket when the instant is in it. -/
private theorem bucketExpr_month_iff (n : Int) : bucketExpr .month ts = monthFirst n * dayUs ↔
    monthFirst n * dayUs ≤ ts ∧ ts < monthFirst (n + 1) * dayUs := by
  rw [bucketExpr_month]
  have hcancel : monthFirst (monthIndex (ts / dayUs)) * dayUs = monthFirst n * dayUs ↔ monthIndex (ts / dayUs) = n := by
    rw [Int.mul_eq_mul_right_iff (by decide), monthFirst_mono.injective.eq_iff]
  rw [hcancel, monthIndex_eq_iff, Int.le_ediv_iff_mul_le (by decide), Int.ediv_lt_iff_lt_mul (by decide)]

/-- A bucket holds the instants from its start to the next one. -/
theorem Starts.covers (hC : C.Gregorian) (h : Starts interval start) (hts : ts ≤ maxUs) :
    bucketExpr interval ts = start ↔ start ≤ ts ∧ ts < nextBucket C start interval := by
  have haligned := h.aligned
  have hmin := h.min_le
  have hmax := h.le_max
  cases interval with
  | hour | day | week =>
    rw [bucketExpr, floorExpr_eq (by decide)] at haligned
    rw [bucketExpr, floorExpr_eq (by decide)]
    simp only [nextBucket, saturatingAdd, floorTo, minI64, maxI64, minUs, maxUs, weekOriginUs, weekUs, dayUs, hourUs] at *
    omega
  | month =>
    obtain ⟨n, rfl, hday⟩ := h.month
    have hlt := monthFirst_lt n
    have hdate := (dayOf (monthFirst n * dayUs)).min_le
    rw [bucketExpr_month_iff, nextBucket, hC.addMonths_first hday, ofDays_start]
    split
    · rfl
    · simp only [Date.min, Date.max, maxUs, maxI64, dayUs, hourUs] at *
      omega

/-- The bucket before one holds the instants between the two starts. -/
theorem Starts.before (hC : C.Gregorian) (h : Starts interval start) (hmin : minUs ≤ ts) (hts : ts ≤ maxUs) :
    bucketExpr interval ts = previousBucket C start interval ↔ previousBucket C start interval ≤ ts ∧ ts < start := by
  have haligned := h.aligned
  have hfrom := h.min_le
  have hmax := h.le_max
  cases interval with
  | hour | day | week =>
    rw [bucketExpr, floorExpr_eq (by decide)] at haligned
    rw [bucketExpr, floorExpr_eq (by decide)]
    simp only [previousBucket, saturatingAdd, floorTo, minI64, maxI64, minUs, maxUs, weekOriginUs, weekUs, dayUs, hourUs] at *
    omega
  | month =>
    obtain ⟨n, rfl, hday⟩ := h.month
    have hlt := monthFirst_lt (n - 1)
    have hdate := (dayOf (monthFirst n * dayUs)).le_max
    have hmonth : bucketExpr .month ts = _ ↔ _ := bucketExpr_month_iff (n - 1)
    rw [Int.sub_add_cancel] at hlt hmonth
    rw [previousBucket, hC.subMonths_first hday, ofDays_start]
    split
    · exact hmonth
    · -- the calendar starts with this month
      have hbefore : n - 1 < monthIndex (-96465292) :=
        monthFirst_mono.lt_iff_lt.mp (by rw [monthFirst_min]; simp only [Date.min, Date.max] at *; omega)
      have hle : monthFirst n ≤ -96465292 := monthFirst_min ▸ monthFirst_mono.monotone (by omega)
      rw [bucketExpr_month]
      simp only [Date.min, Date.max, minUs, maxUs, minI64, dayUs, hourUs] at *
      omega

theorem Starts.previous_lt (hC : C.Gregorian) (h : Starts interval start) : previousBucket C start interval < start := by
  have hfrom := h.min_le
  have hmax := h.le_max
  cases interval with
  | hour | day | week =>
    simp only [previousBucket, saturatingAdd, minI64, maxI64, minUs, maxUs, weekUs, dayUs, hourUs] at *
    omega
  | month =>
    obtain ⟨n, rfl, hday⟩ := h.month
    have hlt := monthFirst_lt (n - 1)
    rw [Int.sub_add_cancel] at hlt
    rw [previousBucket, hC.subMonths_first hday, ofDays_start]
    split
    · exact mul_lt_mul_of_pos_right hlt (by decide)
    · simp only [minUs, minI64, weekUs, dayUs, hourUs] at *
      omega

theorem Starts.next (hC : C.Gregorian) (h : Starts interval start) (hnext : nextBucket C start interval ≤ maxUs) :
    Starts interval (nextBucket C start interval) := by
  have haligned := h.aligned
  have hfrom := h.min_le
  have hlt := lt_nextBucket (C := C) interval h.le_max
  refine ⟨?_, hnext, by omega, fun hm => (h.min_le_month hm).trans hlt.le⟩
  cases interval with
  | hour | day | week =>
    rw [bucketExpr, floorExpr_eq (by decide)] at haligned ⊢
    simp only [nextBucket, saturatingAdd, floorTo, minI64, maxI64, minUs, maxUs, weekOriginUs, weekUs, dayUs, hourUs] at *
    omega
  | month =>
    obtain ⟨n, rfl, hday⟩ := h.month
    rw [nextBucket, hC.addMonths_first hday, ofDays_start] at hnext ⊢
    split at hnext
    · rename_i hin
      rw [if_pos hin]
      exact (bucketExpr_month_iff (n + 1)).mpr ⟨le_rfl, mul_lt_mul_of_pos_right (monthFirst_lt _) (by decide)⟩
    · simp only [maxI64, maxUs] at hnext
      omega

/-- The bucket before the next one is the bucket itself, unless the calendar ends with it. -/
theorem Starts.previous_next (hC : C.Gregorian) (h : Starts interval start)
    (hnext : interval = .month → nextBucket C start interval ≤ maxUs) :
    previousBucket C (nextBucket C start interval) interval = start := by
  have hfrom := h.min_le
  have hmax := h.le_max
  cases interval with
  | hour | day | week =>
    simp only [nextBucket, previousBucket, saturatingAdd, minI64, maxI64, minUs, maxUs, weekUs, dayUs, hourUs] at *
    omega
  | month =>
    obtain ⟨n, rfl, hday⟩ := h.month
    have hin := (dayOf (monthFirst n * dayUs)).min_le
    have hin' := (dayOf (monthFirst n * dayUs)).le_max
    obtain ⟨n', hn', hday'⟩ := (h.next hC (hnext rfl)).month
    have hnextStart : nextBucket C (monthFirst n * dayUs) .month = monthFirst (n + 1) * dayUs := by
      have hle := hnext rfl
      rw [nextBucket, hC.addMonths_first hday, ofDays_start] at hle ⊢
      split at hle
      · rename_i hdate
        rw [if_pos hdate]
      · exact absurd hle (by decide)
    rw [hnextStart, Int.mul_eq_mul_right_iff (by decide), monthFirst_mono.injective.eq_iff] at hn'
    subst hn'
    rw [hnextStart] at hday' ⊢
    rw [previousBucket, hC.subMonths_first hday', ofDays_start, Int.add_sub_cancel, if_pos (hday ▸ ⟨hin, hin'⟩)]

/-- The month of a date starts within the calendar. -/
theorem le_monthFirst (date : Date) : -96465292 ≤ monthFirst (monthIndex date.days) := by
  have hspec := monthIndex_spec date.days
  have hmonth := monthFirst_mono.lt_iff_lt.mp (lt_of_eq_of_lt monthFirst_min (date.min_le.trans_lt hspec.2))
  exact monthFirst_min ▸ monthFirst_mono.monotone (by omega)

theorem trunc_month (hC : C.Gregorian) (us : Int) : trunc C us .month = monthFirst (monthIndex (dayOf us).days) * dayUs := by
  have hspec := monthIndex_spec (dayOf us).days
  have hday' := (dayOf us).le_max
  simp only [trunc]
  rw [hC.fromYmd_first, Date.ofDays, dif_pos ⟨le_monthFirst _, by omega⟩]
  rfl

/-- The SQL puts an instant in the bucket that `trunc` names, though it divides towards zero and `trunc` down. -/
theorem trunc_eq_bucketExpr (hC : C.Gregorian) (hmin : minUs ≤ us) (hmax : us ≤ maxUs) (interval : Interval) :
    trunc C us interval = bucketExpr interval us := by
  cases interval with
  | hour | day | week => exact (floorExpr_eq (by decide) _ _).symm
  | month => rw [trunc_month hC, bucketExpr_month, dayOf_days, if_pos ⟨hmin, hmax⟩]

/-- The first bucket of a range starts no later than the range. -/
theorem starts_trunc (hC : C.Gregorian) (hmin : minUs ≤ us) (hmax : us ≤ maxUs) (interval : Interval) :
    Starts interval (trunc C us interval) ∧ trunc C us interval ≤ us := by
  cases interval with
  | hour | day | week =>
    refine ⟨⟨?_, ?_, ?_, by simp⟩, ?_⟩
    · rw [bucketExpr, floorExpr_eq (by decide)]
      simp only [trunc, floorTo, weekOriginUs, weekUs, dayUs, hourUs]
      omega
    all_goals
      simp only [trunc, floorTo, minUs, maxUs, weekOriginUs, weekUs, dayUs, hourUs] at *
      omega
  | month =>
    have htrunc := trunc_month hC us
    have hspec := monthIndex_spec (dayOf us).days
    have hin := le_monthFirst (dayOf us)
    rw [dayOf_days, if_pos ⟨hmin, hmax⟩] at *
    rw [htrunc]
    refine ⟨⟨(bucketExpr_month_iff _).mpr ⟨le_rfl, mul_lt_mul_of_pos_right (monthFirst_lt _) (by decide)⟩, ?_, ?_, fun _ => ?_⟩, ?_⟩
    all_goals
      simp only [minUs, maxUs, weekUs, dayUs, hourUs] at *
      omega

/-! The buckets of a range. -/

theorem bucketsFrom_head {toUs : Int} {room : Nat} {buckets : List Int} (h : bucketsFrom C interval toUs room start = .ok buckets) :
    buckets.head? = if start < toUs then some start else none := by
  cases room with
  | zero =>
    rw [bucketsFrom] at h
    split at h <;> cases h
    rename_i hlt
    rw [if_neg hlt, List.head?_nil]
  | succ room =>
    rw [bucketsFrom] at h
    split at h
    · rename_i hlt
      obtain ⟨rest, -, rfl⟩ := map_ok.mp h
      rw [if_pos hlt, List.head?_cons]
    · rename_i hlt
      cases h
      rw [if_neg hlt, List.head?_nil]

/-- Each bucket starts where the one before it ends. -/
theorem bucketsFrom_next {toUs : Int} {room : Nat} {buckets : List Int} (h : bucketsFrom C interval toUs room start = .ok buckets) {k : Nat}
    {b b' : Int} (hb : buckets[k]? = some b) (hb' : buckets[k + 1]? = some b') : b' = nextBucket C b interval := by
  induction room generalizing start buckets k with
  | zero =>
    rw [bucketsFrom] at h
    split at h <;> cases h
    cases hb
  | succ room ih =>
    rw [bucketsFrom] at h
    split at h
    · obtain ⟨rest, hrest, rfl⟩ := map_ok.mp h
      rw [List.getElem?_cons_succ] at hb'
      cases k with
      | zero =>
        cases hb
        have hhead := bucketsFrom_head hrest
        rw [List.head?_eq_getElem?, hb'] at hhead
        split at hhead
        · exact Option.some.inj hhead
        · cases hhead
      | succ k =>
        rw [List.getElem?_cons_succ] at hb
        exact ih hrest hb hb'
    · cases h
      cases hb

theorem ResolvedRange.buckets_starts (hC : C.Gregorian) {range : ResolvedRange} {buckets : List Int} (h : range.buckets C = .ok buckets)
    (hmin : minUs ≤ range.fromUs) (hlt : range.fromUs < range.toUs) (hmax : range.toUs ≤ maxUs + 1) :
    ∀ bucket ∈ buckets, Starts range.interval bucket ∧ bucket < range.toUs := by
  refine bucketsFrom_forall (fun us hus _ => ?_) h fun _ => (starts_trunc hC hmin (by omega) range.interval).1
  by_cases hnext : nextBucket C us range.interval ≤ maxUs
  · exact .inl (hus.next hC hnext)
  · exact .inr (by omega)

end buckets

/-! The calendar of the instance. -/

theorem Chrono.ofYmd_iff {year : Int} {month day : Nat} {date : Date} :
    Chrono.ofYmd year month day = some date ↔ civil date.days = ⟨year, month, day⟩ := by
  rw [Chrono.ofYmd, Option.filter_eq_some_iff, decide_eq_true_eq]
  constructor
  · exact fun h => h.2
  · intro h
    refine ⟨?_, h⟩
    rw [ofDays_days]
    have hle := (monthIndex_spec date.days).1
    rw [civil_eq] at h
    generalize monthIndex date.days = n at *
    obtain ⟨era, y, m, hy, hm, rfl⟩ := exists_month n
    rw [monthFirst_eq era hy hm] at h hle
    have hstart : yearStart y = y * 365 + y / 4 - y / 100 := by
      simp only [yearStart]
      omega
    have hquotient : ((era * 400 + y) * 12 + m) / 12 = era * 400 + y := by omega
    have hmonth : ((era * 400 + y) * 12 + m) % 12 = m := by omega
    simp only [monthDay, hquotient, hmonth, Civil.mk.injEq] at h
    obtain ⟨hyear, hmonth', hday⟩ := h
    have hshifted : (if month ≤ 2 then year - 1 else year) = era * 400 + y := by split <;> omega
    have hindex : (if month ≤ 2 then month + 9 else month - 3) = m := by split <;> omega
    rw [hshifted, hindex]
    simp only [monthStart] at hle hday
    omega

/-- A day `0` is no date, so that the first of a month goes to the first of the other or nowhere. -/
theorem Chrono.shiftMonths_first {date next : Date} {months : Int} (h : (civil date.days).day = 1) :
    Chrono.shiftMonths date months = some next ↔ (civil next.days).day = 1 ∧ (civil next.days).months = (civil date.days).months + months := by
  have hzero : ∀ year month, Chrono.ofYmd year month 0 = none := by
    intro year month
    refine Option.eq_none_iff_forall_ne_some.mpr fun date h => ?_
    have hpos := day_pos date.days
    rw [Chrono.ofYmd_iff.mp h] at hpos
    exact absurd hpos (Nat.lt_irrefl 0)
  rw [Chrono.shiftMonths]
  simp only [h, List.findSome?_cons, Nat.sub_zero, Nat.sub_self, Nat.reduceSub, hzero, List.findSome?_nil]
  have hone : ∀ index : Int, Chrono.ofYmd (index / 12) ((index % 12).toNat + 1) 1 = some next ↔
      (civil next.days).day = 1 ∧ (civil next.days).months = index := by
    intro index
    rw [Chrono.ofYmd_iff]
    constructor
    · intro hcivil
      rw [hcivil]
      refine ⟨rfl, ?_⟩
      simp only [Civil.months]
      omega
    · rintro ⟨hday, rfl⟩
      rw [months_civil, civil_eq, monthDay_eq]
      rw [civil_eq] at hday
      exact congrArg (Civil.mk _ _) hday
  have hindex : (civil date.days).year * 12 + ((civil date.days).month - 1 : Int) + months = (civil date.days).months + months := by
    rw [Civil.months]
    ring
  rw [hindex, ← hone]
  cases Chrono.ofYmd (((civil date.days).months + months) / 12) ((((civil date.days).months + months) % 12).toNat + 1) 1 with
  | none => rfl
  | some _ => rfl

theorem Chrono.small_gregorian : Chrono.small.Gregorian := by
  constructor
  · intro year month day date
    exact Chrono.ofYmd_iff
  · intro date n next hday hn
    change (Chrono.shiftMonths date n).filter (fun next => date.days < next.days) = some next ↔ _
    rw [Option.filter_eq_some_iff, Chrono.shiftMonths_first hday, decide_eq_true_eq]
    refine and_iff_left_of_imp ?_
    rintro ⟨hday', hmonths⟩
    rw [day_eq_one_iff] at hday hday'
    rw [months_civil, months_civil] at hmonths
    rw [hday, hday']
    exact monthFirst_mono (by omega)
  · intro date n previous hday _
    change Chrono.shiftMonths date (-n) = some previous ↔ _
    exact Chrono.shiftMonths_first hday

end Hoglet.Query
