import Hoglet.Explore.Web

/-! Events that tie at the start of a visit: what counting some of them towards the visit before does to the totals. -/
namespace Hoglet.Explore
variable {U : Type}

/-- What one session adds to the totals. -/
def sessionTotals (rows : List (Row U)) : Totals := if 0 < pageviews rows then (1, if isBounce rows then 1 else 0, duration rows) else 0

theorem totals_eq_sum (sessions : List (List (Row U))) : totals sessions = (sessions.map sessionTotals).sum := by
  induction sessions with
  | nil => rfl
  | cons rows sessions ih =>
    rw [List.map_cons, List.sum_cons, ← ih]
    simp only [totals, sessionTotals, List.filter_cons]
    by_cases hp : 0 < pageviews rows
    · simp only [hp, decide_true, if_true, List.length_cons, List.countP_cons, List.map_cons, List.sum_cons, Prod.mk_add_mk]
      congr 1
      · exact Nat.add_comm _ _
      · congr 1
        exact Nat.add_comm _ _
    · simp [hp]

theorem sessionTotals_of_none {rows : List (Row U)} (h : pageviews rows = 0) : sessionTotals rows = 0 := by
  rw [sessionTotals, if_neg (by omega)]

theorem sessionTotals_of_some {rows : List (Row U)} (h : pageviews rows ≠ 0) :
    sessionTotals rows = (1, if isBounce rows then 1 else 0, duration rows) := if_pos (by omega)

theorem sessionTotals_count (rows : List (Row U)) : (sessionTotals rows).1 = if pageviews rows = 0 then 0 else 1 := by
  by_cases h : pageviews rows = 0
  · rw [sessionTotals_of_none h, if_pos h]
    rfl
  · rw [sessionTotals_of_some h, if_neg h]

theorem sessionTotals_bounces (rows : List (Row U)) : (sessionTotals rows).2.1 = if isBounce rows then 1 else 0 := by
  by_cases h : pageviews rows = 0
  · have hnot : isBounce rows = false := by simp [isBounce, h]
    rw [sessionTotals_of_none h, hnot]
    rfl
  · rw [sessionTotals_of_some h]

theorem sessionTotals_duration (rows : List (Row U)) : (sessionTotals rows).2.2 = if pageviews rows = 0 then 0 else duration rows := by
  by_cases h : pageviews rows = 0
  · rw [sessionTotals_of_none h, if_pos h]
    rfl
  · rw [sessionTotals_of_some h, if_neg h]

section duration
variable {rows rows' : List (Row U)}

/-- A duration is the time from the first event to the last. -/
theorem exists_duration (h : rows ≠ []) : ∃ a ∈ rows, ∃ c ∈ rows, (∀ r ∈ rows, a.ts ≤ r.ts ∧ r.ts ≤ c.ts) ∧ duration rows = c.ts - a.ts := by
  have hne : rows.map Row.ts ≠ [] := by simpa using h
  obtain ⟨lo, hlo⟩ := Option.isSome_iff_exists.mp (List.isSome_min?_of_ne_nil hne)
  obtain ⟨hi, hhi⟩ := Option.isSome_iff_exists.mp (List.isSome_max?_of_ne_nil hne)
  obtain ⟨hlo', hmin⟩ := List.min?_eq_some_iff.mp hlo
  obtain ⟨hhi', hmax⟩ := List.max?_eq_some_iff.mp hhi
  obtain ⟨a, ha, rfl⟩ := List.mem_map.mp hlo'
  obtain ⟨c, hc, rfl⟩ := List.mem_map.mp hhi'
  refine ⟨a, ha, c, hc, fun r hr => ⟨hmin _ (List.mem_map_of_mem hr), hmax _ (List.mem_map_of_mem hr)⟩, ?_⟩
  rw [duration, hlo, hhi]
  rfl

theorem le_duration {a c : Row U} (ha : a ∈ rows) (hc : c ∈ rows) : c.ts - a.ts ≤ duration rows := by
  obtain ⟨first, -, last, -, hbounds, hduration⟩ := exists_duration (List.ne_nil_of_mem ha)
  have := (hbounds a ha).1
  have := (hbounds c hc).2
  omega

/-- Events at the same instants last equally long. -/
theorem duration_congr (h : ∀ t, (∃ a ∈ rows, a.ts = t) ↔ ∃ a ∈ rows', a.ts = t) : duration rows = duration rows' := by
  by_cases hrows : rows = []
  · have hrows' : rows' = [] := by
      refine List.eq_nil_iff_forall_not_mem.mpr fun a ha => ?_
      obtain ⟨c, hc, -⟩ := (h a.ts).mpr ⟨a, ha, rfl⟩
      rw [hrows] at hc
      cases hc
    rw [hrows, hrows']
  · obtain ⟨a, ha, c, hc, hbounds, hduration⟩ := exists_duration hrows
    obtain ⟨a', ha', hats⟩ := (h a.ts).mp ⟨a, ha, rfl⟩
    obtain ⟨c', hc', hcts⟩ := (h c.ts).mp ⟨c, hc, rfl⟩
    obtain ⟨first, hfirst, last, hlast, hbounds', hduration'⟩ := exists_duration (List.ne_nil_of_mem ha')
    obtain ⟨r, hr, hrts⟩ := (h first.ts).mpr ⟨first, hfirst, rfl⟩
    obtain ⟨s, hs, hsts⟩ := (h last.ts).mpr ⟨last, hlast, rfl⟩
    have := hbounds r hr
    have := hbounds s hs
    have := hbounds' a' ha'
    have := hbounds' c' hc'
    omega

end duration

theorem sessionTotals_perm {rows rows' : List (Row U)} (h : rows.Perm rows') : sessionTotals rows = sessionTotals rows' := by
  have hduration : duration rows = duration rows' := duration_congr fun t => by simp only [h.mem_iff]
  have hpages : pageviews rows = pageviews rows' := h.countP_eq _
  have hauto : autocaptures rows = autocaptures rows' := h.countP_eq _
  rw [sessionTotals, sessionTotals, isBounce, isBounce, hduration, hpages, hauto]

/-- The events of a visit at the instant it starts. -/
def tied (t : Int) (visit : List (Row U)) : List (Row U) := visit.filter fun row => row.ts = t

/-- Some of the events at a visit's start, but not all, may count towards the visit before it, or as a visit of their own when there is
none, without a difference to the totals: the start has one event only, or none of the visit before is a pageview, the start has either no
pageview or the visit's only one, in a visit as long as the other one becomes (and without autocaptures, as the event on its own has none),
and a short visit with one pageview keeps an autocapture where it has some. -/
def Harmless (t : Int) (before visit : List (Row U)) : Prop :=
  (tied t visit).length ≤ 1 ∨ pageviews before = 0 ∧
    (pageviews (tied t visit) = 0 ∨
      pageviews visit = 1 ∧ duration visit = duration (before ++ tied t visit) ∧ (before = [] → autocaptures visit = 0)) ∧
    (pageviews visit = 1 → duration visit < bounceMicros → autocaptures visit = autocaptures (tied t visit) →
      autocaptures visit = 0 ∨ autocaptures visit = (tied t visit).length)

instance (t : Int) (before visit : List (Row U)) : Decidable (Harmless t before visit) := inferInstanceAs (Decidable (_ ∨ _))

/-- Some of the events at the start, but not all, are early. -/
structure Moves (t : Int) (visit : List (Row U)) (early : Row U → Bool) : Prop where
  early_at : ∀ a ∈ visit, early a = true → a.ts = t
  stays : ∃ a ∈ visit, a.ts = t ∧ early a = false

section moves
variable {t : Int} {before visit : List (Row U)} {early : Row U → Bool}

private theorem pageviews_split (visit : List (Row U)) (early : Row U → Bool) :
    pageviews visit = pageviews (visit.filter early) + pageviews (visit.filter (!early ·)) := by
  have h := List.countP_eq_countP_filter_add visit Row.isPageview early
  simpa [pageviews] using h

private theorem autocaptures_split (visit : List (Row U)) (early : Row U → Bool) :
    autocaptures visit = autocaptures (visit.filter early) + autocaptures (visit.filter (!early ·)) := by
  have h := List.countP_eq_countP_filter_add visit Row.isAutocapture early
  simpa [autocaptures] using h

theorem Moves.instants (hm : Moves t visit early) (u : Int) : (∃ a ∈ visit.filter (!early ·), a.ts = u) ↔ ∃ a ∈ visit, a.ts = u := by
  constructor
  · rintro ⟨a, ha, hu⟩
    exact ⟨a, List.mem_of_mem_filter ha, hu⟩
  · rintro ⟨a, ha, rfl⟩
    cases hearly : early a with
    | false => exact ⟨a, List.mem_filter.mpr ⟨ha, by simp [hearly]⟩, rfl⟩
    | true =>
      obtain ⟨r, hr, hrt, hstays⟩ := hm.stays
      exact ⟨r, List.mem_filter.mpr ⟨hr, by simp [hstays]⟩, hrt.trans (hm.early_at a ha hearly).symm⟩

private theorem Moves.tied_two (hm : Moves t visit early) {a : Row U} (ha : a ∈ visit) (hearly : early a = true) :
    ¬ (tied t visit).length ≤ 1 := by
  obtain ⟨r, hr, hrt, hstays⟩ := hm.stays
  have hat : a ∈ tied t visit := List.mem_filter.mpr ⟨ha, by simpa using hm.early_at a ha hearly⟩
  have hrt' : r ∈ tied t visit := List.mem_filter.mpr ⟨hr, by simpa using hrt⟩
  intro hle
  have heq : a = r := by
    obtain ⟨c, hc⟩ := List.length_eq_one_iff.mp (le_antisymm hle (List.length_pos_iff.mpr (List.ne_nil_of_mem hat)))
    rw [hc, List.mem_singleton] at hat hrt'
    rw [hat, hrt']
  rw [heq, hstays] at hearly
  cases hearly

/-- An early event finds no pageview in the visit before. -/
theorem Moves.before_none (hm : Moves t visit early) (h : Harmless t before visit) {a : Row U} (ha : a ∈ visit) (hearly : early a = true) :
    pageviews before = 0 := (h.resolve_left (hm.tied_two ha hearly)).1

private theorem Moves.autocaptures_le (hm : Moves t visit early) : autocaptures (visit.filter early) ≤ autocaptures (tied t visit) := by
  rw [autocaptures, autocaptures, tied, List.countP_filter, List.countP_filter]
  refine List.countP_mono_left fun a ha hp => ?_
  obtain ⟨hauto, hearly⟩ := (Bool.and_eq_true _ _).mp hp
  simpa [hauto] using hm.early_at a ha hearly

private theorem Moves.duration_kept (hm : Moves t visit early) : duration (visit.filter (!early ·)) = duration visit :=
  duration_congr hm.instants

/-- Where no early event is a pageview, the visit counts without them as it does with them. -/
theorem Moves.kept_same (hm : Moves t visit early) (h : Harmless t before visit)
    (hnone : ∀ a ∈ visit, early a = true → a.isPageview = false) : sessionTotals (visit.filter (!early ·)) = sessionTotals visit := by
  by_cases hany : ∃ a ∈ visit, early a = true
  · obtain ⟨a, ha, hearly⟩ := hany
    obtain ⟨-, -, hbounce⟩ := h.resolve_left (hm.tied_two ha hearly)
    have hmoved : pageviews (visit.filter early) = 0 := by
      refine List.countP_eq_zero.mpr fun c hc => ?_
      obtain ⟨hc, hearly⟩ := List.mem_filter.mp hc
      simp [hnone c hc hearly]
    have hpages := pageviews_split visit early
    rw [hmoved, Nat.zero_add] at hpages
    have hauto := autocaptures_split visit early
    -- An autocapture that keeps the visit from being a bounce stays with it.
    have hkeeps (hone : pageviews visit = 1) (hshort : duration visit < bounceMicros) :
        autocaptures (visit.filter (!early ·)) = 0 ↔ autocaptures visit = 0 := by
      refine ⟨fun hzero => ?_, fun hzero => by omega⟩
      have hle := hm.autocaptures_le
      have hle' := (List.filter_sublist (p := fun row => row.ts = t) (l := visit)).countP_le (p := Row.isAutocapture)
      refine (hbounce hone hshort (by simp only [autocaptures, tied] at *; omega)).resolve_right fun hfull => ?_
      obtain ⟨r, hr, hrt, hstays⟩ := hm.stays
      have hlength : (tied t visit).countP Row.isAutocapture = (tied t visit).length := by
        have hcount := (tied t visit).countP_le_length (p := Row.isAutocapture)
        simp only [autocaptures, tied] at *
        omega
      have hrauto := List.countP_eq_length.mp hlength r (List.mem_filter.mpr ⟨hr, by simpa using hrt⟩)
      have hrkept : r ∈ visit.filter (!early ·) := List.mem_filter.mpr ⟨hr, by simp [hstays]⟩
      exact absurd hrauto (List.countP_eq_zero.mp hzero r hrkept)
    have hsame : isBounce (visit.filter (!early ·)) = isBounce visit := by
      rw [isBounce, isBounce, ← hpages, hm.duration_kept, decide_eq_decide]
      constructor
      · rintro ⟨hone, hzero, hshort⟩
        exact ⟨hone, (hkeeps hone hshort).mp hzero, hshort⟩
      · rintro ⟨hone, hzero, hshort⟩
        exact ⟨hone, (hkeeps hone hshort).mpr hzero, hshort⟩
    rw [sessionTotals, sessionTotals, ← hpages, hsame, hm.duration_kept]
  · have hall : visit.filter (!early ·) = visit := List.filter_eq_self.mpr fun a ha => by simpa using fun hearly => hany ⟨a, ha, hearly⟩
    rw [hall]

/-- An early pageview takes the visit with it to the visit before. -/
theorem Moves.moved_same (hm : Moves t visit early) (h : Harmless t before visit) {a : Row U} (ha : a ∈ visit) (hearly : early a = true)
    (hpage : a.isPageview = true) (hbefore : ∀ b ∈ before, sessionGapMicros < t - b.ts) {before' : List (Row U)}
    (hsame : ∀ u, (∃ b ∈ before', b.ts = u) ↔ ∃ b ∈ before, b.ts = u) (hnone : pageviews before' = 0) :
    sessionTotals (visit.filter (!early ·)) = 0 ∧ sessionTotals (before' ++ visit.filter early) = sessionTotals visit := by
  obtain ⟨-, htied, -⟩ := h.resolve_left (hm.tied_two ha hearly)
  have hat : a ∈ tied t visit := List.mem_filter.mpr ⟨ha, by simpa using hm.early_at a ha hearly⟩
  have hmoved : a ∈ visit.filter early := List.mem_filter.mpr ⟨ha, hearly⟩
  obtain ⟨hone, hduration, hauto⟩ := htied.resolve_left (Nat.pos_iff_ne_zero.mp (List.countP_pos_iff.mpr ⟨a, hat, hpage⟩))
  have hpos : 0 < pageviews (visit.filter early) := List.countP_pos_iff.mpr ⟨a, hmoved, hpage⟩
  have hsplit := pageviews_split visit early
  refine ⟨sessionTotals_of_none (by omega), ?_⟩
  have hjoined : pageviews (before' ++ visit.filter early) = 1 := by
    have happend : pageviews (before' ++ visit.filter early) = pageviews before' + pageviews (visit.filter early) := List.countP_append
    omega
  have hlasts : duration (before' ++ visit.filter early) = duration visit := by
    rw [hduration]
    refine duration_congr fun u => ?_
    simp only [List.mem_append, or_and_right, exists_or, hsame]
    apply or_congr_right
    constructor
    · rintro ⟨c, hc, rfl⟩
      obtain ⟨hc, hearly⟩ := List.mem_filter.mp hc
      exact ⟨c, List.mem_filter.mpr ⟨hc, by simpa using hm.early_at c hc hearly⟩, rfl⟩
    · rintro ⟨c, hc, rfl⟩
      obtain ⟨-, hct⟩ := List.mem_filter.mp hc
      exact ⟨a, hmoved, (hm.early_at a ha hearly).trans (of_decide_eq_true hct).symm⟩
  have hbounce : isBounce (before' ++ visit.filter early) = isBounce visit := by
    rw [isBounce, isBounce, hjoined, hone, hlasts, decide_eq_decide]
    by_cases hfirst : before = []
    · have hnil : before' = [] := by
        refine List.eq_nil_iff_forall_not_mem.mpr fun b hb => ?_
        obtain ⟨c, hc, -⟩ := (hsame b.ts).mp ⟨b, hb, rfl⟩
        rw [hfirst] at hc
        cases hc
      have hzero := autocaptures_split visit early
      rw [hauto hfirst] at hzero
      rw [hnil, List.nil_append, hauto hfirst, (by omega : autocaptures (visit.filter early) = 0)]
    · -- Across the gap neither is short.
      obtain ⟨b, hb⟩ := List.exists_mem_of_ne_nil before hfirst
      have hlong := le_duration (List.mem_append_left (tied t visit) hb) (List.mem_append_right before hat)
      have hgap := hbefore b hb
      have hats := hm.early_at a ha hearly
      have hnot : ¬ duration visit < bounceMicros := by
        simp only [bounceMicros, sessionGapMicros] at *
        omega
      simp [hnot]
  rw [sessionTotals_of_some (by omega), sessionTotals_of_some (by omega), hbounce, hlasts]

end moves

/-- These events count towards the visit before, and make a difference to the totals. -/
structure Harms (t : Int) (before visit : List (Row U)) (early : Row U → Bool) : Prop where
  early_of : ∀ a, early a = true → a ∈ visit ∧ a.ts = t
  stays : ∃ r ∈ visit, r.ts = t ∧ early r = false
  differ : sessionTotals (before ++ visit.filter early) + sessionTotals (visit.filter (!early ·)) ≠ sessionTotals before + sessionTotals visit

theorem Harms.moves {t : Int} {before visit : List (Row U)} {early : Row U → Bool} (h : Harms t before visit early) : Moves t visit early :=
  ⟨fun a _ hearly => (h.early_of a hearly).2, h.stays⟩

section harms
variable [DecidableEq U] {t : Int} {before visit : List (Row U)}

private theorem exists_other (hv : visit.Nodup) (htwo : ¬ (tied t visit).length ≤ 1) {a : Row U} : ∃ r ∈ tied t visit, r ≠ a := by
  by_contra hnone
  push Not at hnone
  have hnodup : (tied t visit).Nodup := hv.filter _
  apply htwo
  cases hl : tied t visit with
  | nil => exact Nat.zero_le 1
  | cons c rest =>
    cases rest with
    | nil => exact le_rfl
    | cons d rest =>
      rw [hl] at hnone hnodup
      have hcd : c = d := (hnone c (by simp)).trans (hnone d (by simp)).symm
      simp [hcd] at hnodup

private theorem moves_one (hv : visit.Nodup) (htwo : ¬ (tied t visit).length ≤ 1) {a : Row U} (ha : a ∈ tied t visit) :
    Moves t visit fun row => decide (row = a) := by
  obtain ⟨-, hat⟩ := List.mem_filter.mp ha
  obtain ⟨r, hr, hne⟩ := exists_other hv htwo
  obtain ⟨hr, hrt⟩ := List.mem_filter.mp hr
  refine ⟨fun c _ hearly => ?_, r, hr, by simpa using hrt, by simpa using hne⟩
  obtain rfl := of_decide_eq_true hearly
  simpa using hat

private theorem filter_one (hv : visit.Nodup) {a : Row U} (ha : a ∈ visit) : (visit.filter fun row => decide (row = a)) = [a] := by
  apply List.perm_singleton.mp
  rw [List.perm_ext_iff_of_nodup (hv.filter _) (List.nodup_singleton a)]
  intro c
  rw [List.mem_filter, List.mem_singleton, decide_eq_true_eq]
  constructor
  · exact And.right
  · rintro rfl
    exact ⟨ha, rfl⟩

private theorem of_one {a : Row U} (ha : a ∈ tied t visit) : ∀ c, decide (c = a) = true → c ∈ visit ∧ c.ts = t := by
  intro c hc
  obtain rfl := of_decide_eq_true hc
  simpa [tied] using ha

/-- An event after the gap lengthens a visit with a pageview. -/
private theorem harms_before (hv : visit.Nodup) (hbefore : ∀ b ∈ before, sessionGapMicros < t - b.ts) (htwo : ¬ (tied t visit).length ≤ 1)
    (hpages : pageviews before ≠ 0) : ∃ early, Harms t before visit early := by
  obtain ⟨a, ha⟩ := List.exists_mem_of_length_pos (by omega : 0 < (tied t visit).length)
  have hm := moves_one hv htwo ha
  refine ⟨fun row => decide (row = a), of_one ha, hm.stays, fun heq => ?_⟩
  obtain ⟨hmem, hat⟩ := of_one ha a (decide_eq_true rfl)
  have hmoved : a ∈ visit.filter fun row => decide (row = a) := List.mem_filter.mpr ⟨hmem, decide_eq_true rfl⟩
  have hne : before ≠ [] := by
    rintro rfl
    exact hpages rfl
  obtain ⟨first, hfirst, last, hlast, -, hduration⟩ := exists_duration hne
  have hlonger := le_duration (List.mem_append_left (visit.filter fun row => decide (row = a)) hfirst) (List.mem_append_right before hmoved)
  have hgap := hbefore last hlast
  have happend : pageviews (before ++ visit.filter fun row => decide (row = a)) ≠ 0 := by
    have hsum : pageviews (before ++ visit.filter fun row => decide (row = a)) = _ := List.countP_append
    simp only [pageviews] at *
    omega
  have hcount := congrArg Prod.fst heq
  have hsum := congrArg (fun totals => totals.2.2) heq
  simp only [Prod.fst_add, Prod.snd_add, sessionTotals_count, sessionTotals_duration, happend, hpages, if_false, hm.duration_kept,
    sessionGapMicros] at hcount hsum hgap
  split at hcount <;> split at hcount <;> simp_all <;> omega

/-- A pageview of its own counts unless the visit has no other, and counts as the visit only if it is as long. -/
private theorem harms_tied (hv : visit.Nodup) (htwo : ¬ (tied t visit).length ≤ 1) (hnone : pageviews before = 0)
    (hpages : pageviews (tied t visit) ≠ 0)
    (hnot : ¬ (pageviews visit = 1 ∧ duration visit = duration (before ++ tied t visit) ∧ (before = [] → autocaptures visit = 0))) :
    ∃ early, Harms t before visit early := by
  obtain ⟨a, ha, hpage⟩ := List.countP_pos_iff.mp (Nat.pos_of_ne_zero hpages)
  have hm := moves_one hv htwo ha
  refine ⟨fun row => decide (row = a), of_one ha, hm.stays, fun heq => hnot ?_⟩
  obtain ⟨hmem, hat⟩ := of_one ha a (decide_eq_true rfl)
  have hsplit := pageviews_split visit fun row => decide (row = a)
  rw [filter_one hv hmem] at heq hsplit
  have hone : pageviews [a] = 1 := List.countP_singleton.trans (if_pos hpage)
  have happend : pageviews (before ++ [a]) = pageviews before + pageviews [a] := List.countP_append
  rw [hnone, hone, Nat.zero_add] at happend
  have hcount := congrArg Prod.fst heq
  have hbounces := congrArg (fun totals => totals.2.1) heq
  have hsum := congrArg (fun totals => totals.2.2) heq
  simp only [Prod.fst_add, Prod.snd_add, sessionTotals_count, sessionTotals_bounces, sessionTotals_duration, happend, hnone] at hcount hbounces hsum
  have hvisit : pageviews visit ≠ 0 := by omega
  have hkept : pageviews (visit.filter fun row => !decide (row = a)) = 0 := by
    rw [if_neg hvisit] at hcount
    by_contra hne
    simp [hne] at hcount
  have hsame : duration (before ++ [a]) = duration (before ++ tied t visit) := by
    refine duration_congr fun u => ?_
    simp only [List.mem_append, or_and_right, exists_or]
    apply or_congr_right
    constructor
    · rintro ⟨c, hc, rfl⟩
      obtain rfl := List.mem_singleton.mp hc
      exact ⟨c, ha, rfl⟩
    · rintro ⟨c, hc, rfl⟩
      exact ⟨a, List.mem_singleton_self a, hat.trans (of_decide_eq_true (List.mem_filter.mp hc).2).symm⟩
  refine ⟨by omega, ?_, ?_⟩
  · simpa [hkept, hvisit, hsame] using hsum.symm
  · rintro rfl
    have hevent : a.isAutocapture = false := by
      simp only [Row.isPageview, decide_eq_true_eq] at hpage
      simp [Row.isAutocapture, hpage]
    have hbounce : isBounce [a] = true := by
      simp [isBounce, hone, autocaptures, hevent, duration, bounceMicros]
    have hkeptBounce : isBounce (visit.filter fun row => !decide (row = a)) = false := by simp [isBounce, hkept]
    have hnil : isBounce ([] : List (Row U)) = false := rfl
    rw [List.nil_append, hbounce, hkeptBounce, hnil] at hbounces
    by_contra hsome
    have hvisitBounce : isBounce visit = false := by simp [isBounce, hsome]
    simp [hvisitBounce] at hbounces

/-- Without its autocaptures the visit is a bounce. -/
private theorem harms_bounce (hnone : pageviews before = 0) (hone : pageviews visit = 1) (hshort : duration visit < bounceMicros)
    (hauto : autocaptures visit = autocaptures (tied t visit)) (hsome : autocaptures visit ≠ 0)
    (hrest : autocaptures visit ≠ (tied t visit).length) : ∃ early, Harms t before visit early := by
  obtain ⟨r, hr, hrauto⟩ : ∃ r ∈ tied t visit, r.isAutocapture = false := by
    by_contra hall
    push Not at hall
    exact hrest (hauto.trans (List.countP_eq_length.mpr fun a ha => by simpa using hall a ha))
  obtain ⟨hr, hrt⟩ := List.mem_filter.mp hr
  obtain ⟨early, hearly⟩ : ∃ early : Row U → Bool, ∀ a, early a = true ↔ (a ∈ visit ∧ a.ts = t) ∧ a.isAutocapture = true :=
    ⟨fun a => decide ((a ∈ visit ∧ a.ts = t) ∧ a.isAutocapture = true), fun a => decide_eq_true_iff⟩
  have hstays : early r = false := Bool.eq_false_iff.mpr fun h => by
    have := ((hearly r).mp h).2
    rw [hrauto] at this
    cases this
  have hm : Moves t visit early := ⟨fun a _ h => ((hearly a).mp h).1.2, r, hr, by simpa using hrt, hstays⟩
  refine ⟨early, fun a h => ((hearly a).mp h).1, hm.stays, fun heq => ?_⟩
  have hmoved : pageviews (visit.filter early) = 0 := by
    refine List.countP_eq_zero.mpr fun a ha => ?_
    have hevent := ((hearly a).mp (List.mem_filter.mp ha).2).2
    simp only [Row.isAutocapture, decide_eq_true_eq] at hevent
    simp [Row.isPageview, hevent]
  have happend : pageviews (before ++ visit.filter early) = pageviews before + pageviews (visit.filter early) := List.countP_append
  have hkept := pageviews_split visit early
  -- All autocaptures are at the start, so that all of them are early.
  have hall : autocaptures (visit.filter early) = autocaptures (tied t visit) := by
    rw [autocaptures, autocaptures, tied, List.countP_filter, List.countP_filter]
    refine List.countP_congr fun a ha => ?_
    simp [hearly, ha, and_comm]
  have hkeptAuto := autocaptures_split visit early
  have hbounce : isBounce (visit.filter (!early ·)) = true := by
    rw [isBounce, hm.duration_kept]
    exact decide_eq_true ⟨by omega, by omega, hshort⟩
  have hvisitBounce : isBounce visit = false := decide_eq_false fun h => hsome h.2.1
  rw [sessionTotals_of_none (by omega), sessionTotals_of_none hnone, zero_add, zero_add] at heq
  have hbounces := congrArg (fun totals => totals.2.1) heq
  simp only [sessionTotals_bounces, hbounce, hvisitBounce] at hbounces
  cases hbounces

/-- Where the start is not harmless, some of its events harm. -/
theorem exists_harms (hv : visit.Nodup) (hbefore : ∀ b ∈ before, sessionGapMicros < t - b.ts) (h : ¬ Harmless t before visit) :
    ∃ early, Harms t before visit early := by
  rw [Harmless, not_or, not_and_or, not_and_or] at h
  obtain ⟨htwo, hpages | htied | hbounce⟩ := h
  · exact harms_before hv hbefore htwo hpages
  · by_cases hnone : pageviews before = 0
    · exact harms_tied hv htwo hnone (not_or.mp htied).1 (not_or.mp htied).2
    · exact harms_before hv hbefore htwo hnone
  · by_cases hnone : pageviews before = 0
    · push Not at hbounce
      obtain ⟨hone, hshort, hauto, hsome, hrest⟩ := hbounce
      exact harms_bounce hnone hone hshort hauto hsome hrest
    · exact harms_before hv hbefore htwo hnone

end harms

end Hoglet.Explore
