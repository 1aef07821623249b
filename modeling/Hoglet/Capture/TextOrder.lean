import Hoglet.Capture.Calendar
import Mathlib.Data.String.Basic

/-! Times as texts: in the years 0 to 9999 the texts of two times are in the order of the times, also where one of them has
fewer digits of a second. -/
namespace Hoglet.Capture

/-! Texts of equal length before other texts. -/
section fields
variable {width m n : Nat} {x y : List Char}

theorem append_lt_append {a b : List Char} (h : a.length = b.length) : a ++ x < b ++ y ↔ a < b ∨ a = b ∧ x < y := by
  induction a generalizing b with
  | nil =>
    obtain rfl : b = [] := List.length_eq_zero_iff.mp h.symm
    simp
  | cons c a ih =>
    cases b with
    | nil => cases h
    | cons d b =>
      rw [List.cons_append, List.cons_append, List.cons_lt_cons_iff, List.cons_lt_cons_iff, ih (Nat.succ.inj h), List.cons.injEq]
      tauto

private theorem digitChar_lt : ∀ a < 10, ∀ b < 10, (Nat.digitChar a < Nat.digitChar b ↔ a < b) ∧
    (Nat.digitChar a = Nat.digitChar b ↔ a = b) := by decide

private theorem padded_one (h : n < 10) : padded 1 n = [Nat.digitChar n] := by
  rw [padded, Nat.toDigits_of_lt_base h]
  rfl

private theorem padded_succ (h : 0 < width) : padded (width + 1) n = padded width (n / 10) ++ [Nat.digitChar (n % 10)] := by
  by_cases hn : n < 10
  · rw [padded, padded, Nat.toDigits_of_lt_base hn, Nat.div_eq_of_lt hn, Nat.mod_eq_of_lt hn, Nat.toDigits_zero]
    obtain ⟨w, rfl⟩ := Nat.exists_eq_succ_of_ne_zero h.ne'
    simp [List.replicate_succ']
  · rw [padded, padded, Nat.toDigits_of_base_le (by decide) (not_lt.mp hn), List.length_append, List.length_singleton,
      Nat.add_sub_add_right, List.append_assoc]

theorem padded_lt (h : 0 < width) (hm : m < 10 ^ width) (hn : n < 10 ^ width) :
    (padded width m < padded width n ↔ m < n) ∧ (padded width m = padded width n ↔ m = n) := by
  induction width, h using Nat.le_induction generalizing m n with
  | base =>
    rw [padded_one (by simpa using hm), padded_one (by simpa using hn)]
    obtain ⟨hlt, heq⟩ := digitChar_lt m (by simpa using hm) n (by simpa using hn)
    simp [List.cons_lt_cons_iff, hlt, heq]
  | succ width hw ih =>
    have hm' : m / 10 < 10 ^ width := Nat.div_lt_of_lt_mul (by rwa [pow_succ'] at hm)
    have hn' : n / 10 < 10 ^ width := Nat.div_lt_of_lt_mul (by rwa [pow_succ'] at hn)
    obtain ⟨hlt, heq⟩ := ih hm' hn'
    obtain ⟨hlast, hsame⟩ := digitChar_lt (m % 10) (Nat.mod_lt _ (by decide)) (n % 10) (Nat.mod_lt _ (by decide))
    have hlength : (padded width (m / 10)).length = (padded width (n / 10)).length := by
      rw [length_padded width hw hm', length_padded width hw hn']
    have happend : padded width (m / 10) ++ [Nat.digitChar (m % 10)] = padded width (n / 10) ++ [Nat.digitChar (n % 10)] ↔
        padded width (m / 10) = padded width (n / 10) ∧ [Nat.digitChar (m % 10)] = [Nat.digitChar (n % 10)] :=
      ⟨fun h => List.append_inj h hlength, fun ⟨h, h'⟩ => by rw [h, h']⟩
    rw [padded_succ hw, padded_succ hw, append_lt_append hlength, hlt, heq, happend, heq]
    constructor
    · simp only [List.cons_lt_cons_iff, hlast]
      simp
      omega
    · simp [hsame]
      omega

/-- Numbers of the same width go before what follows them. -/
theorem padded_append_lt (h : 0 < width) (hm : m < 10 ^ width) (hn : n < 10 ^ width) :
    padded width m ++ x < padded width n ++ y ↔ m < n ∨ m = n ∧ x < y := by
  obtain ⟨hlt, heq⟩ := padded_lt h hm hn
  rw [append_lt_append (by rw [length_padded width h hm, length_padded width h hn]), hlt, heq]

theorem padded_add (hw : 0 < width) {more : Nat} (hm : 0 < more) (h : n < 10 ^ more) :
    padded (width + more) (m * 10 ^ more + n) = padded width m ++ padded more n := by
  induction more, hm using Nat.le_induction generalizing n with
  | base =>
    have hn : n < 10 := by simpa using h
    have hdiv : (m * 10 ^ 1 + n) / 10 = m := by omega
    have hmod : (m * 10 ^ 1 + n) % 10 = n := by omega
    rw [padded_succ hw, hdiv, hmod, padded_one hn]
  | succ more hmore ih =>
    have hdiv : (m * 10 ^ (more + 1) + n) / 10 = m * 10 ^ more + n / 10 := by
      rw [pow_succ, ← mul_assoc]
      omega
    have hmod : (m * 10 ^ (more + 1) + n) % 10 = n % 10 := by
      rw [pow_succ, ← mul_assoc]
      omega
    have hn : n / 10 < 10 ^ more := Nat.div_lt_of_lt_mul (by rwa [pow_succ'] at h)
    rw [← Nat.add_assoc, padded_succ (Nat.add_pos_left hw more), hdiv, hmod, ih hn, List.append_assoc, padded_succ hmore]

end fields

/-! Groups of three digits that end with the last one that is not zero. -/
section groups

/-- What follows the fraction of a second. -/
def utcOffset : List Char := ['+', '0', '0', ':', '0', '0']

/-- The digits of some groups after others, left out when they are all zero. -/
def grouped (rest : Nat → List Char) (unit n : Nat) : List Char :=
  if n = 0 then utcOffset else padded 3 (n / unit) ++ rest (n % unit)

private theorem utcOffset_lt_padded (n : Nat) (x : List Char) : utcOffset < padded 3 n ++ x := by
  obtain ⟨c, cs, hcs⟩ : ∃ c cs, padded 3 n = c :: cs := by
    have h := le_length_padded 3 n
    cases hcs : padded 3 n with
    | nil =>
      rw [hcs] at h
      cases h
    | cons c cs => exact ⟨c, cs, rfl⟩
  have hdigit : c.isDigit = true := by
    have hc : c ∈ padded 3 n := by simp [hcs]
    rcases List.mem_append.mp hc with hzero | hdigits
    · rw [List.eq_of_mem_replicate hzero]
      decide
    · exact Nat.isDigit_of_mem_toDigits (by decide) (by decide) hdigits
  rw [hcs]
  simp only [Char.isDigit, ge_iff_le, Bool.and_eq_true, decide_eq_true_eq] at hdigit
  have hplus : '+' < c := by
    rw [Char.lt_def]
    exact UInt32.lt_of_lt_of_le (show '+'.val < '0'.val by decide) hdigit.1
  exact List.cons_lt_cons_iff.mpr (.inl hplus)

private theorem grouped_lt {rest : Nat → List Char} {unit m n : Nat} (hunit : 0 < unit) (hm : m < 1000 * unit) (hn : n < 1000 * unit)
    (h : ∀ a b, a < unit → b < unit → (rest a < rest b ↔ a < b)) : grouped rest unit m < grouped rest unit n ↔ m < n := by
  have hdivm : m / unit < 10 ^ 3 := Nat.div_lt_of_lt_mul (by omega)
  have hdivn : n / unit < 10 ^ 3 := Nat.div_lt_of_lt_mul (by omega)
  have hlexes : m < n ↔ m / unit < n / unit ∨ m / unit = n / unit ∧ m % unit < n % unit := by
    have hmdiv := Nat.div_add_mod m unit
    have hndiv := Nat.div_add_mod n unit
    constructor
    · intro hlt
      rcases (Nat.div_le_div_right hlt.le : m / unit ≤ n / unit).lt_or_eq with hdiv | hdiv
      · exact .inl hdiv
      · refine .inr ⟨hdiv, ?_⟩
        rw [hdiv] at hmdiv
        omega
    · rintro (hdiv | ⟨hdiv, hmod⟩)
      · exact lt_of_not_ge fun hle => absurd (Nat.div_le_div_right hle) (not_le.mpr hdiv)
      · rw [hdiv] at hmdiv
        omega
  rw [grouped, grouped]
  by_cases hm0 : m = 0
  · rw [if_pos hm0, hm0]
    by_cases hn0 : n = 0
    · rw [if_pos hn0, hn0]
      simp
    · rw [if_neg hn0]
      exact iff_of_true (utcOffset_lt_padded _ _) (Nat.pos_of_ne_zero hn0)
  rw [if_neg hm0]
  by_cases hn0 : n = 0
  · rw [if_pos hn0, hn0]
    exact iff_of_false (List.lt_asymm (utcOffset_lt_padded _ _)) (Nat.not_lt_zero m)
  · rw [if_neg hn0, padded_append_lt (by decide) hdivm hdivn, h _ _ (Nat.mod_lt _ hunit) (Nat.mod_lt _ hunit), hlexes]

/-- The end of a text: the fraction of a second and the offset. -/
def fractionText (nanos : Nat) : List Char :=
  if nanos = 0 then utcOffset else '.' :: grouped (grouped (grouped (fun _ => utcOffset) 1) 1000) 1000000 nanos

theorem fractionText_lt {m n : Nat} (hm : m < 1000000000) (hn : n < 1000000000) : fractionText m < fractionText n ↔ m < n := by
  have hnanos : ∀ a b, a < 1000 → b < 1000 → (grouped (fun _ => utcOffset) 1 a < grouped (fun _ => utcOffset) 1 b ↔ a < b) :=
    fun a b ha hb => grouped_lt (by decide) (by omega) (by omega) fun a b ha hb => by
      rw [Nat.lt_one_iff.mp ha, Nat.lt_one_iff.mp hb]
      simp
  have hmicros : ∀ a b, a < 1000000 → b < 1000000 → (grouped (grouped (fun _ => utcOffset) 1) 1000 a < grouped (grouped (fun _ => utcOffset) 1) 1000 b ↔ a < b) :=
    fun a b ha hb => grouped_lt (by decide) (by omega) (by omega) hnanos
  have hpoint : ∀ x, utcOffset < '.' :: x := fun x => List.cons_lt_cons_iff.mpr (.inl (by decide))
  rw [fractionText, fractionText]
  by_cases hm0 : m = 0
  · rw [if_pos hm0, hm0]
    by_cases hn0 : n = 0
    · rw [if_pos hn0, hn0]
      simp
    · rw [if_neg hn0]
      exact iff_of_true (hpoint _) (Nat.pos_of_ne_zero hn0)
  rw [if_neg hm0]
  by_cases hn0 : n = 0
  · rw [if_pos hn0, hn0]
    exact iff_of_false (List.lt_asymm (hpoint _)) (Nat.not_lt_zero m)
  · rw [if_neg hn0, List.cons_lt_cons_self, grouped_lt (by decide) (by omega) (by omega) hmicros]

theorem fractionText_eq (nanos : Nat) : (if nanos = 0 then []
    else if nanos % 1000000 = 0 then '.' :: padded 3 (nanos / 1000000)
    else if nanos % 1000 = 0 then '.' :: padded 6 (nanos / 1000)
    else '.' :: padded 9 nanos) ++ utcOffset = fractionText nanos := by
  have hsix : padded 6 (nanos / 1000) = padded 3 (nanos / 1000000) ++ padded 3 (nanos / 1000 % 1000) := by
    have hsplit : nanos / 1000 = nanos / 1000000 * 10 ^ 3 + nanos / 1000 % 1000 := by omega
    have hadd : padded (3 + 3) (nanos / 1000000 * 10 ^ 3 + nanos / 1000 % 1000) = _ :=
      padded_add (by decide) (by decide) (Nat.mod_lt _ (by decide))
    rwa [← hsplit] at hadd
  have hnine : padded 9 nanos = padded 6 (nanos / 1000) ++ padded 3 (nanos % 1000) := by
    have hsplit : nanos = nanos / 1000 * 10 ^ 3 + nanos % 1000 := by omega
    have hadd : padded (6 + 3) (nanos / 1000 * 10 ^ 3 + nanos % 1000) = _ :=
      padded_add (by decide) (by decide) (Nat.mod_lt _ (by decide))
    rwa [← hsplit] at hadd
  have hmicros : nanos % 1000000 / 1000 = nanos / 1000 % 1000 := by omega
  have hnanos : nanos % 1000000 % 1000 = nanos % 1000 := by omega
  by_cases h0 : nanos = 0
  · rw [if_pos h0, fractionText, if_pos h0, List.nil_append]
  rw [if_neg h0, fractionText, if_neg h0, grouped, if_neg h0]
  by_cases h3 : nanos % 1000000 = 0
  · rw [if_pos h3, h3, grouped, if_pos rfl, List.cons_append]
  rw [if_neg h3, grouped, if_neg h3, hmicros, hnanos]
  by_cases h6 : nanos % 1000 = 0
  · rw [if_pos h6, h6, grouped, if_pos rfl, hsix, List.cons_append, List.append_assoc]
  · rw [if_neg h6, grouped, if_neg h6, hnine, hsix, Nat.div_one, List.cons_append, List.append_assoc, List.append_assoc]

end groups

/-! Times. -/
section times

theorem ns_injective : Function.Injective DateTime.ns := by
  rintro ⟨a, _, _⟩ ⟨b, _, _⟩ h
  cases h
  rfl

instance : LinearOrder DateTime := LinearOrder.lift' DateTime.ns ns_injective

/-- In the years 0 to 9999. -/
def DateTime.FourDigit (t : DateTime) : Prop := 0 ≤ t.date.year ∧ t.date.year ≤ 9999

/-- The second of the day. -/
def DateTime.second (t : DateTime) : Nat := (t.ns % nsPerDay / 1000000000).toNat

theorem civil_lt (a b : Int) : a < b ↔ (civil a).year < (civil b).year ∨ (civil a).year = (civil b).year ∧
    ((civil a).month < (civil b).month ∨ (civil a).month = (civil b).month ∧ (civil a).day < (civil b).day) := by
  have ha := monthIndex_spec a
  have hb := monthIndex_spec b
  have hindex : a < b ↔ monthIndex a < monthIndex b ∨ monthIndex a = monthIndex b ∧ a < b := by
    constructor
    · intro hlt
      have hle : monthIndex a < monthIndex b + 1 := monthFirst_mono.lt_iff_lt.mp (by omega)
      omega
    · rintro (hlt | ⟨-, hlt⟩)
      · have hle : monthFirst (monthIndex a + 1) ≤ monthFirst (monthIndex b) := monthFirst_mono.monotone (by omega)
        omega
      · exact hlt
  rw [hindex, civil_eq, civil_eq b, monthDay_eq, monthDay_eq]
  dsimp only
  generalize monthIndex a = i at *
  generalize monthIndex b = j at *
  by_cases hij : i = j
  · subst hij
    omega
  · omega

/-- The date and the clock of a text, and what follows them. -/
def DateTime.secondsText (t : DateTime) (rest : List Char) : List Char :=
  padded 4 t.date.year.toNat ++ '-' :: (padded 2 t.date.month ++ '-' :: (padded 2 t.date.day ++ 'T' ::
    (padded 2 (t.second / 3600) ++ ':' :: (padded 2 (t.second / 60 % 60) ++ ':' :: (padded 2 (t.second % 60) ++ rest)))))

section texts
variable {t t' : DateTime}

theorem toRfc3339_eq (h : t.FourDigit) : t.toRfc3339.toList = t.secondsText (fractionText t.subsecNanos) := by
  have hyear : yearText t.date.year = padded 4 t.date.year.toNat := if_pos h
  rw [DateTime.toRfc3339, ← fractionText_eq, Civil.text, DateTime.clockText, hyear]
  simp [DateTime.secondsText, DateTime.second, utcOffset]

theorem sortableTime_eq (h : t.FourDigit) :
    t.sortableTime.toList = t.secondsText ('.' :: (padded 6 (t.subsecNanos / 1000) ++ ['Z'])) := by
  have hyear : yearText t.date.year = padded 4 t.date.year.toNat := if_pos h
  rw [DateTime.sortableTime, Civil.text, DateTime.clockText, hyear]
  simp [DateTime.secondsText, DateTime.second]

/-- Hours, minutes and seconds are in the order of the seconds. -/
private theorem clock_lt {s s' : Nat} {x : Prop} :
    (s / 3600 < s' / 3600 ∨ s / 3600 = s' / 3600 ∧ (s / 60 % 60 < s' / 60 % 60 ∨ s / 60 % 60 = s' / 60 % 60 ∧
      (s % 60 < s' % 60 ∨ s % 60 = s' % 60 ∧ x))) ↔ s < s' ∨ s = s' ∧ x := by
  by_cases hx : x
  · simp only [hx, and_true]
    omega
  · simp only [hx, and_false, or_false]
    omega

/-- Texts are in the order of their seconds first. -/
theorem secondsText_lt (h : t.FourDigit) (h' : t'.FourDigit) (x y : List Char) : t.secondsText x < t'.secondsText y ↔
    t.ns / 1000000000 < t'.ns / 1000000000 ∨ t.ns / 1000000000 = t'.ns / 1000000000 ∧ x < y := by
  obtain ⟨hmonth, hday⟩ := civil_bounds (t.ns / nsPerDay)
  obtain ⟨hmonth', hday'⟩ := civil_bounds (t'.ns / nsPerDay)
  have hsecond : t.second < 86400 := by
    simp only [DateTime.second, nsPerDay]
    omega
  have hsecond' : t'.second < 86400 := by
    simp only [DateTime.second, nsPerDay]
    omega
  obtain ⟨hyear, hyear9⟩ := h
  obtain ⟨hyear', hyear9'⟩ := h'
  have hdate := civil_lt (t.ns / nsPerDay) (t'.ns / nsPerDay)
  have hsame : t.ns / nsPerDay = t'.ns / nsPerDay ↔ t.date.year = t'.date.year ∧ t.date.month = t'.date.month ∧ t.date.day = t'.date.day := by
    constructor
    · intro heq
      rw [DateTime.date, DateTime.date, heq]
      exact ⟨rfl, rfl, rfl⟩
    · rintro ⟨hy, hm, hd⟩
      refine civil_inj ?_
      change t.date = t'.date
      cases hdate : t.date
      cases hdate' : t'.date
      rw [hdate, hdate'] at hy hm hd
      rw [Civil.mk.injEq]
      exact ⟨hy, hm, hd⟩
  have hseconds : t.ns / 1000000000 = t.ns / nsPerDay * 86400 + t.second := by
    simp only [DateTime.second, nsPerDay]
    omega
  have hseconds' : t'.ns / 1000000000 = t'.ns / nsPerDay * 86400 + t'.second := by
    simp only [DateTime.second, nsPerDay]
    omega
  rw [DateTime.secondsText, DateTime.secondsText, padded_append_lt (by decide) (by omega) (by omega), List.cons_lt_cons_self,
    padded_append_lt (by decide) hmonth hmonth', List.cons_lt_cons_self, padded_append_lt (by decide) hday hday', List.cons_lt_cons_self,
    padded_append_lt (by decide) (by omega) (by omega), List.cons_lt_cons_self, padded_append_lt (by decide) (by omega) (by omega),
    List.cons_lt_cons_self, padded_append_lt (by decide) (by omega) (by omega), clock_lt, hseconds, hseconds']
  change _ ↔ t.date.year < t'.date.year ∨ t.date.year = t'.date.year ∧
    (t.date.month < t'.date.month ∨ t.date.month = t'.date.month ∧ t.date.day < t'.date.day) at hdate
  clear hmonth hday hmonth' hday' hseconds hseconds' hyear9 hyear9'
  generalize t.ns / nsPerDay = days at *
  generalize t'.ns / nsPerDay = days' at *
  by_cases hxy : x < y
  · simp only [hxy, and_true]
    omega
  · simp only [hxy, and_false, or_false]
    omega

/-- In the years 0 to 9999 the texts of times are in the order of the times. -/
theorem toRfc3339_lt (h : t.FourDigit) (h' : t'.FourDigit) : t.toRfc3339 < t'.toRfc3339 ↔ t < t' := by
  rw [String.lt_iff_toList_lt, toRfc3339_eq h, toRfc3339_eq h', secondsText_lt h h', fractionText_lt (by simp only [DateTime.subsecNanos]; omega)
    (by simp only [DateTime.subsecNanos]; omega)]
  change _ ↔ t.ns < t'.ns
  simp only [DateTime.subsecNanos]
  omega

/-- The same for texts to the microsecond. -/
theorem sortableTime_lt (h : t.FourDigit) (h' : t'.FourDigit) : t.sortableTime < t'.sortableTime ↔ t.ns / 1000 < t'.ns / 1000 := by
  have hmicros : t.subsecNanos / 1000 < 10 ^ 6 := by
    simp only [DateTime.subsecNanos]
    omega
  have hmicros' : t'.subsecNanos / 1000 < 10 ^ 6 := by
    simp only [DateTime.subsecNanos]
    omega
  rw [String.lt_iff_toList_lt, sortableTime_eq h, sortableTime_eq h', secondsText_lt h h', List.cons_lt_cons_self,
    padded_append_lt (by decide) hmicros hmicros']
  simp only [DateTime.subsecNanos, lt_self_iff_false, and_false, or_false]
  omega

end texts
end times
end Hoglet.Capture
