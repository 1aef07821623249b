import Hoglet.Capture.TextOrder
import Hoglet.Explore.Dates

/-! The dates of a web query are found without a panic but in the calendar's first days, and the buckets then tile the
range. -/
namespace Hoglet.Explore
open Capture
open Query (Interval Chrono Date floorTo dateNaive toDatetime le_monthFirst)

/-- The calendar starts on a Thursday. -/
def firstMondayNs : Int := minNs + 4 * nsPerDay

/-! Buckets of one interval. -/
section interval
variable {C : Chrono} {interval : Interval} {time start following t : DateTime}

theorem truncate_month : truncate time .month = some start ↔ start.ns = monthFirst (monthIndex (time.ns / nsPerDay)) * nsPerDay := by
  rw [truncate, ofNs_eq_some, sub_day_add_one]
  rfl

/-- Only the week of the calendar's first days starts before the calendar. -/
theorem exists_truncate (time : DateTime) (interval : Interval) (h : interval = .week → firstMondayNs ≤ time.ns) : ∃ start, truncate time interval = some start := by
  have hmin := time.min_le
  have hmax := time.le_max
  cases interval with
  | hour | day =>
    refine exists_ofNs ?_ ?_
    all_goals
      simp only [floorTo, nsPerHour, nsPerDay, minNs, maxNs] at *
      omega
  | week =>
    have hmonday := h rfl
    refine exists_ofNs ?_ ?_
    all_goals
      simp only [floorTo, firstMondayNs, nsPerDay, minNs, maxNs] at *
      omega
  | month =>
    have hspec := monthIndex_spec (time.ns / nsPerDay)
    have hin : -96465292 ≤ monthFirst (monthIndex (time.ns / nsPerDay)) := le_monthFirst (dateNaive time)
    rw [truncate, sub_day_add_one]
    refine exists_ofNs ?_ ?_
    all_goals
      simp only [dateNaive, nsPerDay, minNs, maxNs] at *
      omega

theorem truncate_week_none (h : time.ns < firstMondayNs) : truncate time .week = none := by
  have hmin := time.min_le
  refine dif_neg ?_
  simp only [floorTo, firstMondayNs, nsPerDay, minNs] at *
  omega

/-- A bucket starts with itself, and not after what is in it. -/
theorem truncate_start (h : truncate time interval = some start) : truncate start interval = some start ∧ start ≤ time := by
  change _ ∧ start.ns ≤ time.ns
  cases interval with
  | hour | day | week =>
    rw [truncate, ofNs_eq_some] at h ⊢
    simp only [floorTo, nsPerHour, nsPerDay] at *
    omega
  | month =>
    rw [truncate_month] at h ⊢
    have hspec := monthIndex_spec (time.ns / nsPerDay)
    rw [h, Int.mul_ediv_cancel _ (by decide), monthIndex_monthFirst]
    refine ⟨rfl, ?_⟩
    simp only [nsPerDay] at *
    omega

private theorem next_month (hC : C.Gregorian) (h : truncate start .month = some start) :
    ∃ n, start.ns = monthFirst n * nsPerDay ∧ (next C start .month = some following → following.ns = monthFirst (n + 1) * nsPerDay) := by
  rw [truncate_month] at h
  refine ⟨_, h, fun hnext => ?_⟩
  have hday : (dateNaive start).days = monthFirst (monthIndex (start.ns / nsPerDay)) := by
    change start.ns / nsPerDay = _
    nth_rewrite 1 [h]
    exact Int.mul_ediv_cancel _ (by decide)
  have hmidnight : start.ns % nsPerDay = 0 := by
    rw [h]
    exact Int.mul_emod_left _ _
  obtain ⟨date, hdate, htime⟩ := Option.bind_eq_some_iff.mp hnext
  rw [hC.addMonths_first hday, Query.ofDays_days] at hdate
  rw [Date.atTime, ofNs_eq_some, hmidnight, hdate, add_zero] at htime
  exact htime

theorem lt_of_next (h : next C time interval = some following) : time < following := by
  change time.ns < following.ns
  cases interval with
  | hour | day | week =>
    rw [next, ofNs_eq_some] at h
    simp only [nsPerHour, nsPerDay] at h
    omega
  | month =>
    obtain ⟨date, hdate, htime⟩ := Option.bind_eq_some_iff.mp h
    have hlater := C.later _ _ _ Nat.one_pos hdate
    rw [Date.atTime, ofNs_eq_some] at htime
    simp only [dateNaive, nsPerDay] at *
    omega

/-- The successor of a bucket starts a bucket. -/
theorem truncate_next (hC : C.Gregorian) (h : truncate start interval = some start) (hnext : next C start interval = some following) :
    truncate following interval = some following := by
  cases interval with
  | hour | day | week =>
    rw [truncate, ofNs_eq_some] at h ⊢
    rw [next, ofNs_eq_some] at hnext
    simp only [floorTo, nsPerHour, nsPerDay] at *
    omega
  | month =>
    obtain ⟨n, -, hfollowing⟩ := next_month hC h
    rw [truncate_month, hfollowing hnext, Int.mul_ediv_cancel _ (by decide), monthIndex_monthFirst]

/-- A bucket is named by every instant up to its successor. -/
theorem truncate_of_mem (hC : C.Gregorian) (h : truncate start interval = some start) (hnext : next C start interval = some following)
    (hle : start ≤ t) (hlt : t < following) : truncate t interval = some start := by
  change start.ns ≤ t.ns at hle
  change t.ns < following.ns at hlt
  cases interval with
  | hour | day | week =>
    rw [truncate, ofNs_eq_some] at h ⊢
    rw [next, ofNs_eq_some] at hnext
    simp only [floorTo, nsPerHour, nsPerDay] at *
    omega
  | month =>
    obtain ⟨n, hstart, hfollowing⟩ := next_month hC h
    rw [hfollowing hnext] at hlt
    have hmonth : monthIndex (t.ns / nsPerDay) = n := by
      rw [monthIndex_eq_iff, Int.le_ediv_iff_mul_le (by decide), Int.ediv_lt_iff_lt_mul (by decide)]
      exact ⟨hstart ▸ hle, hlt⟩
    rw [truncate_month, hmonth]
    exact hstart

end interval
/-! The buckets of a range. -/
section buckets
variable {C : Chrono} {interval : Interval} {fromTime toTime start : DateTime} {room : Nat} {days : List DateTime}

theorem bucketsFrom_tiles (h : bucketsFrom C toTime interval room start = some days) :
    Tiles (fun a b => next C a interval = some b) toTime start days := by
  induction room generalizing start days with
  | zero =>
    rw [bucketsFrom] at h
    split at h
    · cases h
    · rename_i hlt
      cases h
      exact .done (not_lt.mp hlt)
  | succ room ih =>
    rw [bucketsFrom] at h
    split at h
    · rename_i hlt
      obtain ⟨following, hnext, h⟩ := Option.bind_eq_some_iff.mp h
      obtain ⟨rest, hrest, rfl⟩ := Option.map_eq_some_iff.mp h
      exact .more hlt hnext (ih hrest)
    · rename_i hlt
      cases h
      exact .done (not_lt.mp hlt)

theorem length_bucketsFrom (h : bucketsFrom C toTime interval room start = some days) : days.length ≤ room := by
  induction room generalizing start days with
  | zero =>
    rw [bucketsFrom] at h
    split at h <;> cases h
    exact le_rfl
  | succ room ih =>
    rw [bucketsFrom] at h
    split at h
    · obtain ⟨following, -, h⟩ := Option.bind_eq_some_iff.mp h
      obtain ⟨rest, hrest, rfl⟩ := Option.map_eq_some_iff.mp h
      exact Nat.succ_le_succ (ih hrest)
    · cases h
      exact Nat.zero_le _

variable (C interval fromTime toTime days) in
/-- The buckets returned: few, in order, each the successor of the one before, and every instant of the range in the one
that `truncate` names and in no other. -/
structure WebTiled : Prop where
  length : days.length ≤ maxBuckets
  sorted : days.Pairwise fun a b => a.ns < b.ns
  first : ∃ b rest, days = b :: rest ∧ b.ns ≤ fromTime.ns
  next : ∀ k a b, days[k]? = some a → days[k + 1]? = some b → next C a interval = some b
  covers : ∀ t : DateTime, fromTime.ns ≤ t.ns → t.ns < toTime.ns → ∃ a ∈ days, truncate t interval = some a ∧
    (∃ b, Explore.next C a interval = some b ∧ a.ns ≤ t.ns ∧ t.ns < b.ns) ∧
    ∀ a' ∈ days, ∀ b', Explore.next C a' interval = some b' → a'.ns ≤ t.ns → t.ns < b'.ns → a' = a

theorem webTiled (hC : C.Gregorian) (hlt : fromTime.ns < toTime.ns) (hstart : truncate fromTime interval = some start)
    (h : bucketsFrom C toTime interval maxBuckets start = some days) : WebTiled C interval fromTime toTime days := by
  have htiles := bucketsFrom_tiles h
  obtain ⟨haligned, hle⟩ := truncate_start hstart
  have hall : ∀ a ∈ days, truncate a interval = some a ∧ a < toTime :=
    htiles.forall_mem (fun _ => haligned) fun a b ha _ hab _ => truncate_next hC ha hab
  have hnamed : ∀ (t : DateTime), ∀ a ∈ days, ∀ b, next C a interval = some b → a.ns ≤ t.ns → t.ns < b.ns → truncate t interval = some a :=
    fun t a ha b hab hat htb => truncate_of_mem hC (hall a ha).1 hab hat htb
  refine ⟨length_bucketsFrom h, htiles.pairwise_lt fun a b _ hab => lt_of_next hab, ?_, fun k a b => htiles.follows_getElem, fun t hfrom hto => ?_⟩
  · cases htiles with
    | done hstop => exact absurd (hle.trans_lt hlt) (not_lt.mpr hstop)
    | more _ _ _ => exact ⟨start, _, rfl, hle⟩
  · obtain ⟨a, ha, b, hab, hat, htb⟩ := htiles.covers (le_trans hle hfrom) hto
    refine ⟨a, ha, hnamed t a ha b hab hat htb, ⟨b, hab, hat, htb⟩, fun a' ha' b' hab' hat' htb' => ?_⟩
    exact Option.some.inj ((hnamed t a' ha' b' hab' hat' htb').symm.trans (hnamed t a ha b hab hat htb))

/-- Where every step adds one length, the buckets fit when their lengths reach the end. -/
theorem bucketsFrom_fits {unit : Int} (hunit : ∀ time following, next C time interval = some following ↔ following.ns = time.ns + unit)
    (hpos : 0 ≤ unit) (hto : toTime.ns ≤ start.ns + room * unit) (hmax : start.ns + room * unit ≤ maxNs) :
    ∃ days, bucketsFrom C toTime interval room start = some days := by
  induction room generalizing start with
  | zero =>
    rw [bucketsFrom, if_neg (by push_cast at hto; omega)]
    exact ⟨[], rfl⟩
  | succ room ih =>
    have hsplit : start.ns + ((room + 1 : Nat) : Int) * unit = start.ns + unit + room * unit := by
      push_cast
      ring
    have hroom : 0 ≤ (room : Int) * unit := mul_nonneg (Int.natCast_nonneg _) hpos
    rw [hsplit] at hto hmax
    rw [bucketsFrom]
    split
    · obtain ⟨following, hfollowing⟩ := exists_ofNs (show minNs ≤ start.ns + unit by linarith [start.min_le]) (by linarith)
      rw [ofNs_eq_some] at hfollowing
      obtain ⟨rest, hrest⟩ := ih (hfollowing ▸ hto) (hfollowing ▸ hmax)
      rw [(hunit start following).mpr hfollowing, Option.bind_some, hrest]
      exact ⟨_, rfl⟩
    · exact ⟨[], rfl⟩

/-- The buckets are too many when their lengths end before the end. -/
theorem bucketsFrom_exceeds {unit : Int} (hunit : ∀ time following, next C time interval = some following ↔ following.ns = time.ns + unit)
    (hpos : 0 ≤ unit) (hto : start.ns + room * unit < toTime.ns) : bucketsFrom C toTime interval room start = none := by
  induction room generalizing start with
  | zero => rw [bucketsFrom, if_pos (by push_cast at hto; omega)]
  | succ room ih =>
    have hsplit : start.ns + ((room + 1 : Nat) : Int) * unit = start.ns + unit + room * unit := by
      push_cast
      ring
    have hroom : 0 ≤ (room : Int) * unit := mul_nonneg (Int.natCast_nonneg _) hpos
    rw [hsplit] at hto
    rw [bucketsFrom, if_pos (by linarith)]
    cases hnext : next C start interval with
    | none => rfl
    | some following =>
      have hfollowing := (hunit start following).mp hnext
      rw [Option.bind_some, ih (hfollowing ▸ hto)]
      rfl

theorem next_hour (time following : DateTime) : next C time .hour = some following ↔ following.ns = time.ns + nsPerHour := ofNs_eq_some

theorem next_day (time following : DateTime) : next C time .day = some following ↔ following.ns = time.ns + nsPerDay := ofNs_eq_some

end buckets
/-! Choosing the interval. -/
section choose
variable {C : Chrono} {interval : Interval} {requested : Option Interval} {fromTime toTime : DateTime} {days : List DateTime}

/-- Weeks are asked for, or the range has more days than buckets. -/
def WeekTried (requested : Option Interval) (fromTime toTime : DateTime) : Prop :=
  requested = some .week ∨ requested = none ∧ floorTo fromTime.ns nsPerDay 0 + maxBuckets * nsPerDay < toTime.ns

theorem bucketsChecked_eq {start : DateTime} (h : truncate fromTime interval = some start) :
    bucketsChecked C fromTime toTime interval = .ok (bucketsFrom C toTime interval maxBuckets start) := by
  rw [bucketsChecked, truncateChecked, h]
  rfl

theorem bucketsChecked_week (h : fromTime.ns < firstMondayNs) : bucketsChecked C fromTime toTime .week = .error .overflow := by
  rw [bucketsChecked, truncateChecked, truncate_week_none h]
  rfl

theorem bucketsChecked_some (h : bucketsChecked C fromTime toTime interval = .ok (some days)) :
    ∃ start, truncate fromTime interval = some start ∧ bucketsFrom C toTime interval maxBuckets start = some days := by
  cases hstart : truncate fromTime interval with
  | none =>
    rw [bucketsChecked, truncateChecked, hstart] at h
    cases h
  | some start =>
    rw [bucketsChecked_eq hstart, Except.ok.injEq] at h
    exact ⟨start, rfl, h⟩

theorem widen_some {intervals : List Interval} (h : widen C fromTime toTime intervals = .ok (.ok (interval, days))) :
    bucketsChecked C fromTime toTime interval = .ok (some days) := by
  induction intervals with
  | nil => cases h
  | cons narrow wider ih =>
    rw [widen] at h
    obtain ⟨found, hfound, h⟩ := bind_ok.mp h
    cases found with
    | some days' =>
      cases h
      exact hfound
    | none => exact ih h

theorem chooseChecked_some (h : chooseChecked C requested fromTime toTime = .ok (.ok (interval, days))) :
    bucketsChecked C fromTime toTime interval = .ok (some days) := by
  cases requested with
  | none => exact widen_some h
  | some asked =>
    obtain ⟨found, hfound, h⟩ := bind_ok.mp h
    cases found with
    | some days' =>
      cases h
      exact hfound
    | none => cases h

theorem asked_ok (h : interval = .week → firstMondayNs ≤ fromTime.ns) :
    ∃ chosen, chooseChecked C (some interval) fromTime toTime = .ok chosen := by
  obtain ⟨start, hstart⟩ := exists_truncate fromTime interval h
  rw [chooseChecked, bucketsChecked_eq hstart]
  cases bucketsFrom C toTime interval maxBuckets start with
  | some days => exact ⟨_, rfl⟩
  | none => exact ⟨_, rfl⟩

theorem widen_ok {intervals : List Interval} (h : .week ∈ intervals → firstMondayNs ≤ fromTime.ns) :
    ∃ chosen, widen C fromTime toTime intervals = .ok chosen := by
  induction intervals with
  | nil => exact ⟨_, rfl⟩
  | cons narrow wider ih =>
    obtain ⟨start, hstart⟩ := exists_truncate fromTime narrow fun hweek => h (by simp [hweek])
    rw [widen, bucketsChecked_eq hstart]
    cases bucketsFrom C toTime narrow maxBuckets start with
    | some days => exact ⟨_, rfl⟩
    | none => exact ih fun hmem => h (List.mem_cons_of_mem _ hmem)

private theorem widen_fits {intervals : List Interval} (h : bucketsChecked C fromTime toTime interval = .ok (some days)) :
    widen C fromTime toTime (interval :: intervals) = .ok (.ok (interval, days)) := by
  rw [widen, h]
  rfl

private theorem widen_exceeds {intervals : List Interval} (h : bucketsChecked C fromTime toTime interval = .ok none) :
    widen C fromTime toTime (interval :: intervals) = widen C fromTime toTime intervals := by
  rw [widen, h]
  rfl

/-- A day of the calendar's first ones starts a range of few enough days, in hours or in days. -/
private theorem widen_first (hmonday : fromTime.ns < firstMondayNs)
    (hdays : toTime.ns ≤ floorTo fromTime.ns nsPerDay 0 + maxBuckets * nsPerDay) (intervals : List Interval) :
    ∃ chosen, widen C fromTime toTime ((if toTime.ns - fromTime.ns ≤ hours 48 then .hour else .day) :: intervals) = .ok chosen := by
  have hmin := fromTime.min_le
  split
  · rename_i hshort
    obtain ⟨start, hstart⟩ := exists_truncate fromTime .hour fun h => by cases h
    have hns := ofNs_eq_some.mp hstart
    obtain ⟨found, hfound⟩ : ∃ days, bucketsFrom C toTime .hour maxBuckets start = some days := bucketsFrom_fits next_hour (by decide)
      (by simp only [hns, floorTo, hours, nsPerHour, maxBuckets] at *; omega)
      (by simp only [hns, floorTo, firstMondayNs, nsPerHour, nsPerDay, minNs, maxNs, maxBuckets] at *; omega)
    exact ⟨_, widen_fits (by rw [bucketsChecked_eq hstart, hfound])⟩
  · obtain ⟨start, hstart⟩ := exists_truncate fromTime .day fun h => by cases h
    have hns := ofNs_eq_some.mp hstart
    obtain ⟨found, hfound⟩ : ∃ days, bucketsFrom C toTime .day maxBuckets start = some days := bucketsFrom_fits next_day (by decide)
      (hns ▸ hdays) (by simp only [hns, floorTo, firstMondayNs, nsPerDay, minNs, maxNs, maxBuckets] at *; omega)
    exact ⟨_, widen_fits (by rw [bucketsChecked_eq hstart, hfound])⟩

/-- Choosing the interval panics exactly when it comes to weeks in the calendar's first days. -/
theorem chooseChecked_ok_iff : (∃ chosen, chooseChecked C requested fromTime toTime = .ok chosen) ↔
    (fromTime.ns < firstMondayNs → ¬ WeekTried requested fromTime toTime) := by
  rcases lt_or_ge fromTime.ns firstMondayNs with hmonday | hmonday
  · simp only [hmonday, true_implies]
    cases requested with
    | some asked =>
      cases asked with
      | week =>
        rw [chooseChecked, bucketsChecked_week hmonday]
        refine iff_of_false ?_ fun h => h (.inl rfl)
        rintro ⟨chosen, h⟩
        cases h
      | hour | day | month => exact iff_of_true (asked_ok fun h => by cases h) (by simp [WeekTried])
    | none =>
      rcases lt_or_ge (floorTo fromTime.ns nsPerDay 0 + maxBuckets * nsPerDay) toTime.ns with hlong | hdays
      · refine iff_of_false ?_ fun h => h (.inr ⟨rfl, hlong⟩)
        -- days are too many twice over, and the week has no start
        have hlater : ¬ toTime.ns - fromTime.ns ≤ hours 48 := by
          simp only [floorTo, hours, nsPerDay, maxBuckets] at *
          omega
        obtain ⟨start, hstart⟩ := exists_truncate fromTime .day fun h => by cases h
        have hday : bucketsChecked C fromTime toTime .day = .ok none := by
          rw [bucketsChecked_eq hstart, bucketsFrom_exceeds next_day (by decide) (ofNs_eq_some.mp hstart ▸ hlong)]
        rintro ⟨chosen, h⟩
        rw [chooseChecked, if_neg hlater, widen_exceeds hday, widen_exceeds hday, widen, bucketsChecked_week hmonday] at h
        cases h
      · refine iff_of_true (widen_first hmonday hdays _) ?_
        rintro (h | ⟨-, h⟩)
        · cases h
        · exact absurd h (not_lt.mpr hdays)
  · refine iff_of_true ?_ fun h => absurd h (not_lt.mpr hmonday)
    cases requested with
    | some asked => exact asked_ok fun _ => hmonday
    | none => exact widen_ok fun _ => hmonday

end choose
/-! The whole of a query's dates. -/
section dates
variable {C : Chrono} {lookup : Lookup} {query : WebQuery} {now fromTime toTime time : DateTime} {range : Resolved} {ns : Int}

theorem minus_ok (h : minNs + ns ≤ time.ns) (hns : 0 ≤ ns) : ∃ before, minus time ns = .ok before ∧ before.ns = time.ns - ns := by
  obtain ⟨before, hbefore⟩ := exists_ofNs (show minNs ≤ time.ns - ns by omega) (by linarith [time.le_max])
  exact ⟨before, by rw [minus, hbefore], ofNs_eq_some.mp hbefore⟩

theorem minus_error (h : time.ns < minNs + ns) : minus time ns = .error .overflow := by
  have hnone : DateTime.ofNs (time.ns - ns) = none := dif_neg (by omega)
  rw [minus, hnone]

theorem daySpan_ok (h : minNs + oneMicro ≤ toTime.ns) (fromTime : DateTime) : ∃ span, daySpan fromTime toTime = .ok span := by
  obtain ⟨last, hlast, -⟩ := minus_ok h (by decide)
  rw [daySpan, hlast]
  exact ⟨_, rfl⟩

theorem daySpan_error (h : toTime.ns < minNs + oneMicro) (fromTime : DateTime) : daySpan fromTime toTime = .error .overflow := by
  rw [daySpan, minus_error h]
  rfl

theorem oldestEvent_ok (lookup : Lookup) (h : minNs + oneMicro ≤ toTime.ns) : ∃ found, oldestEvent lookup toTime = .ok found := by
  obtain ⟨before, hbefore, -⟩ := minus_ok h (by decide)
  obtain ⟨span, hspan⟩ := daySpan_ok h before
  exact ⟨_, bind_ok.mpr ⟨before, hbefore, bind_ok.mpr ⟨span, hspan, rfl⟩⟩⟩

theorem truncateChecked_day (time : DateTime) : truncateChecked time .day = .ok (startOfDay time) := by
  have hday : truncate time .day = some (startOfDay time) := by
    rw [truncate, ofNs_eq_some]
    simp only [startOfDay, dayStart, dateNaive, floorTo, nsPerDay]
    omega
  rw [truncateChecked, hday]

/-- Where a range begins: where its text says, or at the oldest event before its end, or with the last day. -/
def Begins (lookup : Lookup) (range : Resolved) (fromTime : DateTime) : Prop :=
  range.fromTime = some fromTime ∨ range.fromTime = none ∧
    ∃ found, oldestEvent lookup range.toTime = .ok (.ok found) ∧ fromTime = found.getD (startOfDay range.toTime)

theorem Begins.unique {fromTime' : DateTime} (h : Begins lookup range fromTime) (h' : Begins lookup range fromTime') : fromTime = fromTime' := by
  rcases h with h | ⟨h, found, hfound, rfl⟩
  · rcases h' with h' | ⟨h', -⟩
    · exact Option.some.inj (h.symm.trans h')
    · rw [h] at h'
      cases h'
  · rcases h' with h' | ⟨-, found', hfound', rfl⟩
    · rw [h] at h'
      cases h'
    · rw [hfound] at hfound'
      cases hfound'
      rfl

/-- The plan of a range that ends a microsecond into the calendar or later. -/
theorem planDates_eq (hrange : resolve C query.dateFrom query.dateTo now = .ok range) (hcompiled : lookup.compiled = .ok ())
    (hto : minNs + oneMicro ≤ range.toTime.ns) :
    (∃ fromTime previousFrom, Begins lookup range fromTime ∧ planDates C lookup query now = .ok (ordered fromTime range.toTime previousFrom)) ∨
      (∀ fromTime, ¬ Begins lookup range fromTime) ∧ ∃ e, planDates C lookup query now = .ok (.error e) := by
  simp only [planDates, hrange, hcompiled]
  cases hfrom : range.fromTime with
  | some fromTime => exact .inl ⟨fromTime, _, .inl hfrom, rfl⟩
  | none =>
    obtain ⟨found, hfound⟩ := oldestEvent_ok lookup hto
    dsimp only
    rw [hfound]
    cases found with
    | error e =>
      refine .inr ⟨?_, e, rfl⟩
      rintro fromTime (h | ⟨-, found', hfound', -⟩)
      · rw [hfrom] at h
        cases h
      · rw [hfound] at hfound'
        cases hfound'
    | ok found =>
      cases found with
      | some fromTime => exact .inl ⟨fromTime, none, .inr ⟨hfrom, some fromTime, hfound, rfl⟩, rfl⟩
      | none =>
        refine .inl ⟨startOfDay range.toTime, none, .inr ⟨hfrom, none, hfound, rfl⟩, ?_⟩
        change (truncateChecked range.toTime .day >>= _) = _
        rw [truncateChecked_day]
        rfl

/-- The first bucket of the calendar, of any interval but weeks, has a successor. -/
private theorem early_next (hC : C.Gregorian) {start : DateTime} {interval : Interval} (haligned : truncate start interval = some start)
    (hstart : start.ns < minNs + oneMicro) (hweek : interval ≠ .week) :
    ∃ following, next C start interval = some following ∧ minNs + oneMicro ≤ following.ns := by
  have hmin := start.min_le
  cases interval with
  | week => exact absurd rfl hweek
  | hour =>
    obtain ⟨following, hfollowing⟩ := exists_ofNs (show minNs ≤ start.ns + nsPerHour by rw [nsPerHour]; omega)
      (by simp only [oneMicro, nsPerHour, minNs, maxNs] at *; omega)
    refine ⟨following, hfollowing, ?_⟩
    rw [ofNs_eq_some.mp hfollowing]
    simp only [oneMicro, nsPerHour]
    omega
  | day =>
    obtain ⟨following, hfollowing⟩ := exists_ofNs (show minNs ≤ start.ns + nsPerDay by rw [nsPerDay]; omega)
      (by simp only [oneMicro, nsPerDay, minNs, maxNs] at *; omega)
    refine ⟨following, hfollowing, ?_⟩
    rw [ofNs_eq_some.mp hfollowing]
    simp only [oneMicro, nsPerDay]
    omega
  | month =>
    have hdays : (dateNaive start).days = -96465292 := by
      simp only [dateNaive, oneMicro, nsPerDay, minNs] at *
      omega
    have hfirst : monthFirst (monthIndex (-96465292)) = -96465292 := by decide +kernel
    have hnext : Date.ofDays (monthFirst (monthIndex (-96465292) + 1)) = some ⟨-96465261, by decide, by decide⟩ := by decide +kernel
    obtain ⟨following, hfollowing⟩ : ∃ time, DateTime.ofNs (-96465261 * nsPerDay + start.ns % nsPerDay) = some time :=
      exists_ofNs (by simp only [nsPerDay, minNs]; omega) (by simp only [nsPerDay, maxNs]; omega)
    refine ⟨following, ?_, ?_⟩
    · rw [next, hC.addMonths_first (hdays.trans hfirst.symm), hnext]
      exact hfollowing
    · rw [ofNs_eq_some.mp hfollowing]
      simp only [oneMicro, nsPerDay, minNs]
      omega

/-- A range within the calendar's first microsecond has one bucket, but no week. -/
private theorem early_fits (hC : C.Gregorian) (hlt : fromTime.ns < toTime.ns) (hto : toTime.ns < minNs + oneMicro) {interval : Interval}
    (hweek : interval ≠ .week) : ∃ days, bucketsChecked C fromTime toTime interval = .ok (some days) := by
  obtain ⟨start, hstart⟩ := exists_truncate fromTime interval fun h => absurd h hweek
  obtain ⟨haligned, hle⟩ := truncate_start hstart
  change start.ns ≤ fromTime.ns at hle
  obtain ⟨following, hfollowing, hend⟩ := early_next hC haligned (by omega) hweek
  have hrest : bucketsFrom C toTime interval (maxBuckets - 1) following = some [] := by
    change bucketsFrom C toTime interval (998 + 1) following = some []
    rw [bucketsFrom, if_neg (by omega)]
  refine ⟨[start], ?_⟩
  rw [bucketsChecked_eq hstart]
  change Except.ok (bucketsFrom C toTime interval (maxBuckets - 1 + 1) start) = _
  rw [bucketsFrom, if_pos (by omega), hfollowing, Option.bind_some, hrest]
  rfl

/-- Such a range panics, in its weeks or in its days. -/
private theorem early_panics (hC : C.Gregorian) (hlt : fromTime.ns < toTime.ns) (hto : toTime.ns < minNs + oneMicro) {requested : Option Interval}
    {chosen : Chosen} (h : chooseChecked C requested fromTime toTime = .ok chosen) : ∃ interval days, chosen = .ok (interval, days) := by
  cases requested with
  | some asked =>
    by_cases hweek : asked = .week
    · have hmonday : fromTime.ns < firstMondayNs := by
        simp only [firstMondayNs, oneMicro, nsPerDay] at *
        omega
      rw [hweek, chooseChecked, bucketsChecked_week hmonday] at h
      cases h
    · obtain ⟨days, hdays⟩ := early_fits hC hlt hto hweek
      rw [chooseChecked, hdays] at h
      cases h
      exact ⟨asked, days, rfl⟩
  | none =>
    have hshort : toTime.ns - fromTime.ns ≤ hours 48 := by
      have hmin := fromTime.min_le
      simp only [hours, oneMicro] at *
      omega
    obtain ⟨days, hdays⟩ : ∃ days, bucketsChecked C fromTime toTime .hour = .ok (some days) := early_fits hC hlt hto fun h => by cases h
    rw [chooseChecked, if_pos hshort, widen_fits hdays] at h
    cases h
    exact ⟨.hour, days, rfl⟩

variable (C lookup query now) in
/-- The dates are found without a panic, and buckets returned tile the range. -/
def Fine : Prop := ∃ found, webDates C lookup query now = .ok found ∧
  ∀ dates, found = .ok dates → WebTiled C dates.interval dates.plan.fromTime dates.plan.toTime dates.days

variable (C lookup query now) in
/-- The range ends a microsecond into chrono's calendar or later, and does not begin before the calendar's first Monday when
weeks are tried. -/
def Safe : Prop := ∀ range, resolve C query.dateFrom query.dateTo now = .ok range → lookup.compiled = .ok () →
  minNs + oneMicro ≤ range.toTime.ns ∧ ∀ fromTime, Begins lookup range fromTime → fromTime.ns < range.toTime.ns →
    fromTime.ns < firstMondayNs → ¬ WeekTried query.interval fromTime range.toTime

theorem resolve_ordered (h : resolve C query.dateFrom query.dateTo now = .ok range) (hfrom : range.fromTime = some fromTime) :
    fromTime.ns < range.toTime.ns := by
  obtain ⟨from', -, h⟩ := bind_ok.mp h
  obtain ⟨to', -, h⟩ := bind_ok.mp h
  split at h
  · cases h
  · rename_i hany
    cases h
    change from' = some fromTime at hfrom
    rw [hfrom, Option.any_some, decide_eq_true_eq] at hany
    exact not_le.mp hany

private theorem webDates_error {e : ExploreError} (h : planDates C lookup query now = .ok (.error e)) :
    webDates C lookup query now = .ok (.error e) := by
  rw [webDates, h]
  rfl

private theorem webDates_plan {plan : Planned} (h : planDates C lookup query now = .ok (.ok plan)) :
    webDates C lookup query now = (chooseChecked C query.interval plan.fromTime plan.toTime >>= fun
      | .error e => .ok (.error e)
      | .ok (interval, days) => daySpan (plan.previousFrom.getD plan.fromTime) plan.toTime >>= fun span => .ok (.ok ⟨plan, interval, days, span⟩)) := by
  rw [webDates, h]
  rfl

/-- A range that ends within the calendar's first microsecond panics. -/
private theorem webDates_early (hC : C.Gregorian) (hrange : resolve C query.dateFrom query.dateTo now = .ok range)
    (hcompiled : lookup.compiled = .ok ()) (hto : range.toTime.ns < minNs + oneMicro) (found : Except ExploreError WebDates) :
    webDates C lookup query now ≠ .ok found := by
  intro h
  cases hfrom : range.fromTime with
  | some fromTime =>
    have hlt := resolve_ordered hrange hfrom
    have hplan : planDates C lookup query now = .ok (.ok ⟨fromTime, range.toTime, fromTime.checkedSubSigned (range.toTime.ns - fromTime.ns), hlt⟩) := by
      simp only [planDates, hrange, hcompiled, hfrom]
      exact congrArg _ (dif_pos hlt)
    rw [webDates_plan hplan] at h
    obtain ⟨chosen, hchosen, h⟩ := bind_ok.mp h
    obtain ⟨interval, days, rfl⟩ := early_panics hC hlt hto hchosen
    dsimp only at h
    rw [daySpan_error hto] at h
    cases h
  | none =>
    have hplan : planDates C lookup query now = .error .overflow := by
      simp only [planDates, hrange, hcompiled, hfrom]
      rw [oldestEvent, minus_error hto]
      rfl
    rw [webDates, hplan] at h
    cases h

/-- The dates of a query are found, and its buckets tile the range, exactly when no subtraction leaves the calendar: at the end
of the range, or at the week it begins in. -/
theorem fine_iff_safe (hC : C.Gregorian) : Fine C lookup query now ↔ Safe C lookup query now := by
  constructor
  · rintro ⟨found, hfound, -⟩ range hrange hcompiled
    have hto : minNs + oneMicro ≤ range.toTime.ns := by
      by_contra hearly
      exact webDates_early hC hrange hcompiled (not_le.mp hearly) found hfound
    refine ⟨hto, fun fromTime hbegins hlt => ?_⟩
    rcases planDates_eq hrange hcompiled hto with ⟨fromTime', previousFrom, hbegins', hplan⟩ | ⟨hnone, -⟩
    · obtain rfl := hbegins.unique hbegins'
      rw [ordered, dif_pos hlt] at hplan
      rw [webDates_plan hplan] at hfound
      obtain ⟨chosen, hchosen, -⟩ := bind_ok.mp hfound
      exact chooseChecked_ok_iff.mp ⟨chosen, hchosen⟩
    · exact absurd hbegins (hnone fromTime)
  · intro hsafe
    have herror : ∀ e, planDates C lookup query now = .ok (.error e) → Fine C lookup query now :=
      fun e h => ⟨.error e, webDates_error h, fun dates h => by cases h⟩
    cases hrange : resolve C query.dateFrom query.dateTo now with
    | error e => exact herror e (by simp only [planDates, hrange])
    | ok range =>
      cases hcompiled : lookup.compiled with
      | error e => exact herror e (by simp only [planDates, hrange, hcompiled])
      | ok u =>
        obtain ⟨hto, hweek⟩ := hsafe range hrange hcompiled
        rcases planDates_eq hrange hcompiled hto with ⟨fromTime, previousFrom, hbegins, hplan⟩ | ⟨-, e, hplan⟩
        · by_cases hlt : fromTime.ns < range.toTime.ns
          · rw [ordered, dif_pos hlt] at hplan
            obtain ⟨chosen, hchosen⟩ := chooseChecked_ok_iff.mpr (hweek fromTime hbegins hlt)
            cases chosen with
            | error e =>
              refine ⟨.error e, ?_, fun dates h => by cases h⟩
              rw [webDates_plan hplan, hchosen]
              rfl
            | ok chosen =>
              obtain ⟨interval, days⟩ := chosen
              obtain ⟨span, hspan⟩ := daySpan_ok hto (previousFrom.getD fromTime)
              refine ⟨.ok ⟨⟨fromTime, range.toTime, previousFrom, hlt⟩, interval, days, span⟩, ?_, fun dates h => ?_⟩
              · rw [webDates_plan hplan, hchosen]
                change (daySpan (previousFrom.getD fromTime) range.toTime >>= _) = _
                rw [hspan]
                rfl
              · cases h
                obtain ⟨start, hstart, hdays⟩ := bucketsChecked_some (chooseChecked_some hchosen)
                exact webTiled hC hlt hstart hdays
          · rw [ordered, dif_neg hlt] at hplan
            exact herror _ hplan
        · exact herror e hplan

end dates

/-! A week of the calendar's first days, and one of this age. -/
section runs

def noEvents : Lookup := ⟨.ok (), fun _ => .ok none⟩

def newYear : DateTime := DateTime.ofSeconds 1767225600

theorem lastWeek_fine : Fine .small noEvents ⟨"-7d", none, some .week⟩ newYear := by
  refine (fine_iff_safe Query.Chrono.small_gregorian).mpr fun range hrange _ => ?_
  have hresolved : (resolve .small "-7d" none newYear).toOption.map (fun range => (range.fromTime.map DateTime.ns, range.toTime.ns)) =
      some (some (1766620800 * 1000000000), 1767225600 * 1000000000) := by decide +kernel
  rw [hrange, Except.toOption, Option.map_some, Option.some.injEq, Prod.mk.injEq, Option.map_eq_some_iff] at hresolved
  obtain ⟨⟨fromTime, hfrom, hns⟩, hto⟩ := hresolved
  refine ⟨by rw [hto]; decide, ?_⟩
  rintro fromTime' (hbegins | ⟨hnone, -⟩) - hmonday
  · rw [hfrom] at hbegins
    cases hbegins
    rw [hns] at hmonday
    exact absurd hmonday (by decide)
  · rw [hfrom] at hnone
    cases hnone

theorem firstWeek_panics : ¬ Fine .small noEvents ⟨"-262143-01-01", none, some .week⟩ newYear := by
  rintro ⟨found, hfound, -⟩
  have hpanic : (webDates .small noEvents ⟨"-262143-01-01", none, some .week⟩ newYear).toOption.isNone = true := by decide +kernel
  rw [hfound] at hpanic
  cases hpanic

end runs
end Hoglet.Explore
