import Hoglet.Lake.Publisher
import Hoglet.Query.Plans

/-! A query's evaluation builds its relations within the span that its files are leased for; so it reads every
event it asks for, except on the days that no lease reaches. -/
namespace Hoglet.Query
open Capture Hoglet.Lake

/-- Every instant that one pair of bounds admits, the other admits too. -/
structure Bounds.Within (bounds span : Bounds) : Prop where
  start : ∀ t ∈ span.1, ∃ us ∈ bounds.1, t ≤ us
  stop : ∀ t ∈ span.2, ∃ us ∈ bounds.2, us ≤ t

theorem Bounds.Within.admits {bounds span : Bounds} (h : bounds.Within span) {us : Int} (hb : bounds.Admits us) :
    span.Admits us := by
  constructor
  · intro t ht
    obtain ⟨start, hstart, hle⟩ := h.start t ht
    exact hle.trans (hb.1 start hstart)
  · intro t ht
    obtain ⟨stop, hstop, hle⟩ := h.stop t ht
    exact (hb.2 stop hstop).trans_le hle

theorem Bounds.within_some {a b c d : Int} (hac : c ≤ a) (hbd : b ≤ d) : Bounds.Within (some a, some b) (some c, some d) := by
  constructor
  · rintro t ⟨⟩
    exact ⟨a, rfl, hac⟩
  · rintro t ⟨⟩
    exact ⟨b, rfl, hbd⟩

theorem Bounds.within_refl (bounds : Bounds) : bounds.Within bounds := ⟨fun t ht => ⟨t, ht, le_rfl⟩, fun t ht => ⟨t, ht, le_rfl⟩⟩

section fold
variable {α : Type} {f : Int → α → Int} {g : α → Int}

private theorem foldl_le (hf : ∀ us a, f us a ≤ us) (l : List α) (us : Int) : l.foldl f us ≤ us := by
  induction l generalizing us with
  | nil => exact le_rfl
  | cons a l ih => exact (ih (f us a)).trans (hf us a)

private theorem foldl_le_of_mem (hf : ∀ us a, f us a ≤ us) (hg : ∀ us a, f us a ≤ g a) {l : List α} {a : α} (ha : a ∈ l)
    (us : Int) : l.foldl f us ≤ g a := by
  induction l generalizing us with
  | nil => cases ha
  | cons b l ih =>
    rcases List.mem_cons.mp ha with rfl | ha
    · exact (foldl_le hf l _).trans (hg us a)
    · exact ih ha _

end fold

section trends
variable {C : Chrono}

/-- What the plan of a trends query holds. -/
structure TrendsPlan.Resolved (C : Chrono) (q : TrendsQuery) (plan : TrendsPlan) : Prop where
  buckets : ∀ period ∈ plan.periods, period.range.buckets C = .ok period.buckets
  toUs : ∀ period ∈ plan.periods, period.range.toUs ≤ plan.main.range.toUs
  calendar : plan.main.range.toUs ≤ maxUs + 1
  windows : ∀ node ∈ q.series, ∀ days ∈ node.math.windowDays, ∃ longest ∈ plan.windowDays, days ≤ longest

theorem ResolvedRange.period_ok {range : ResolvedRange} {period : Period} (h : range.period C = .ok period) :
    period.range = range ∧ range.buckets C = .ok period.buckets := by
  obtain ⟨buckets, hbuckets, h⟩ := bind_ok.mp h
  cases h
  exact ⟨rfl, hbuckets⟩

theorem trendsPlan_resolved {q : TrendsQuery} {now : DateTime} {first : Except QueryError (Option Int)} {plan : TrendsPlan}
    (h : trendsPlan C q now first = .ok plan) : plan.Resolved C q := by
  obtain ⟨range, hrange, h⟩ := bind_ok.mp h
  obtain ⟨main, hmain, h⟩ := bind_ok.mp h
  obtain ⟨previous, hprevious, h⟩ := bind_ok.mp h
  cases h
  obtain ⟨hne, hcalendar⟩ := resolve_within hrange
  obtain ⟨rfl, hbuckets⟩ := ResolvedRange.period_ok hmain
  have hprev : ∀ period ∈ previous, period.range = main.range.previous ∧ period.range.buckets C = .ok period.buckets := by
    rintro period ⟨⟩
    rw [comparePeriod] at hprevious
    split at hprevious
    · obtain ⟨before, hbefore, heq⟩ := bind_ok.mp hprevious
      cases heq
      obtain ⟨heq, hb⟩ := ResolvedRange.period_ok hbefore
      exact ⟨heq, by rwa [heq]⟩
    · cases hprevious
  have hcases : ∀ {period : Period}, period ∈ (TrendsPlan.mk main previous
      (q.series.filterMap fun node => node.math.windowDays).max?).periods → period = main ∨ period ∈ previous := fun {period} hp => by
    simpa [TrendsPlan.periods] using hp
  constructor
  · intro period hp
    rcases hcases hp with rfl | hp
    · exact hbuckets
    · exact (hprev period hp).2
  · intro period hp
    rcases hcases hp with rfl | hp
    · exact le_rfl
    · rw [(hprev period hp).1]
      exact hne.le
  · exact hcalendar
  · intro node hnode days hdays
    have hmem : days ∈ q.series.filterMap fun node => node.math.windowDays := List.mem_filterMap.mpr ⟨node, hnode, hdays⟩
    cases hmax : (q.series.filterMap fun node => node.math.windowDays).max? with
    | none => rw [List.max?_eq_none_iff.mp hmax] at hmem; cases hmem
    | some longest => exact ⟨longest, rfl, (List.max?_eq_some_iff.mp hmax).2 days hmem⟩

theorem TrendsPlan.loadFrom_le {plan : TrendsPlan} {period : Period} (hp : period ∈ plan.periods) : plan.loadFrom C ≤ period.range.fromUs := by
  refine foldl_le_of_mem (g := fun period => period.range.fromUs) ?_ ?_ hp _
  · intro us period
    split <;> simp
  · intro us period
    split <;> simp

namespace TrendsPlan.Resolved
variable {q : TrendsQuery} {plan : TrendsPlan} (h : plan.Resolved C q) {period : Period} (hp : period ∈ plan.periods)
include h hp

/-- The window of every bucket starts within the span, for it ends no earlier than the first bucket does. -/
theorem loadFrom_le_window {node : EventNode} (hn : node ∈ q.series) {days : Int} (hd : node.math.windowDays = some days)
    {bucket : Int} (hb : bucket ∈ period.buckets) : plan.loadFrom C ≤ windowStart C days period.range.interval bucket := by
  obtain ⟨longest, hlongest, hle⟩ := h.windows node hn days hd
  obtain ⟨first, hfirst⟩ : ∃ first, period.buckets.head? = some first := by
    cases hbuckets : period.buckets with
    | nil => rw [hbuckets] at hb; cases hb
    | cons first rest => exact ⟨first, rfl⟩
  have hstart : plan.loadFrom C ≤ windowStart C longest period.range.interval first := by
    have hload : plan.loadFrom C ≤ (period.buckets.head?.map fun first =>
        windowStart C longest period.range.interval first).getD period.range.fromUs := by
      refine foldl_le_of_mem (g := fun period => (period.buckets.head?.map fun first =>
        windowStart C longest period.range.interval first).getD period.range.fromUs) ?_ ?_ hp _
      · intro us period
        split <;> simp
      · intro us period
        rw [hlongest]
        cases period.buckets.head? <;> simp
    rwa [hfirst] at hload
  have hbuckets := h.buckets period hp
  have hnext := nextBucket_le ((h.toUs period hp).trans h.calendar) hbuckets hb
  rw [← buckets_head hbuckets hfirst] at hnext
  simp only [windowStart] at hstart ⊢
  have hdays : days * dayUs ≤ longest * dayUs := Int.mul_le_mul_of_nonneg_right hle (by decide)
  omega

theorem loadFrom_le_windowFrom {node : EventNode} (hn : node ∈ q.series) {days : Int} (hd : node.math.windowDays = some days) :
    plan.loadFrom C ≤ windowFrom C days period := by
  refine le_min ?_ (TrendsPlan.loadFrom_le hp)
  cases hmin : (period.buckets.map (windowStart C days period.range.interval)).min? with
  | none => exact TrendsPlan.loadFrom_le hp
  | some us =>
    obtain ⟨bucket, hb, rfl⟩ := List.mem_map.mp (List.min?_eq_some_iff.mp hmin).1
    exact h.loadFrom_le_window hp hn hd hb

end TrendsPlan.Resolved

theorem maskFrom_eq {keys : List String} {math : Math} {period : Period} {us : Int} (h : maskFrom C keys math period = some us) :
    us = period.range.fromUs ∨ ∃ days ∈ math.windowDays, us = windowFrom C days period := by
  rw [maskFrom] at h
  split at h
  · cases h
  split at h
  · cases h
  obtain ⟨⟨loadFrom, base, unit⟩, hgranules, h⟩ := Option.bind_eq_some_iff.mp h
  dsimp only at h
  split at h
  · cases h
  cases h
  rw [maskGranules] at hgranules
  split at hgranules
  · split at hgranules <;> cases hgranules <;> exact .inl rfl
  · split at hgranules
    · cases hgranules
    · cases hgranules
      exact .inr ⟨_, ‹_›, rfl⟩

theorem topReads_within {q : TrendsQuery} {plan : TrendsPlan} {bounds : Bounds} (hb : bounds ∈ topReads q plan) :
    bounds.Within (some (plan.loadFrom C), some plan.main.range.toUs) := by
  rw [topReads] at hb
  split at hb
  · obtain rfl := List.mem_singleton.mp hb
    exact Bounds.within_some (TrendsPlan.loadFrom_le (List.mem_cons_self ..)) le_rfl
  · cases hb

section within
variable {q : TrendsQuery} {plan : TrendsPlan} (h : plan.Resolved C q)
include h

theorem computeReads_within {keys : List String} {period : Period} (hp : period ∈ plan.periods) {node : EventNode}
    (hn : node ∈ q.series) {bounds : Bounds} (hb : bounds ∈ computeReads C keys period node) :
    bounds.Within (some (plan.loadFrom C), some plan.main.range.toUs) := by
  have hto := h.toUs period hp
  have hplain : Bounds.Within period.range.bounds (some (plan.loadFrom C), some plan.main.range.toUs) :=
    Bounds.within_some (TrendsPlan.loadFrom_le hp) hto
  rw [computeReads] at hb
  split at hb
  · obtain rfl := List.mem_singleton.mp hb
    rcases maskFrom_eq ‹_› with rfl | ⟨days, hdays, rfl⟩
    · exact hplain
    · exact Bounds.within_some (h.loadFrom_le_windowFrom hp hn hdays) hto
  · rename_i days hmask hdays
    rcases List.mem_cons.mp hb with rfl | hb
    · exact Bounds.within_some (h.loadFrom_le_windowFrom hp hn hdays) hto
    · obtain rfl := List.mem_singleton.mp hb
      exact hplain
  · obtain rfl := List.mem_singleton.mp hb
    exact hplain

theorem trendsReads_within {keys : List String} {bounds : Bounds} (hb : bounds ∈ trendsReads C keys q plan) :
    bounds.Within (some (plan.loadFrom C), some plan.main.range.toUs) := by
  rcases List.mem_append.mp hb with hb | hb
  · obtain ⟨-, -, hb⟩ := List.mem_flatMap.mp hb
    exact topReads_within hb
  · obtain ⟨period, hp, hb⟩ := List.mem_flatMap.mp hb
    obtain ⟨node, hn, hb⟩ := List.mem_flatMap.mp hb
    exact computeReads_within h hp hn hb

theorem trendsActorReads_within {seriesIndex : Nat} {day : String} {bounds : Bounds}
    (hb : bounds ∈ trendsActorReads C q plan seriesIndex day) : bounds.Within (some (plan.loadFrom C), some plan.main.range.toUs) := by
  have hmain : plan.main ∈ plan.periods := List.mem_cons_self ..
  rw [trendsActorReads] at hb
  split at hb
  · rename_i node bucket hnode hbucket
    have hn : node ∈ q.series := List.mem_of_getElem? hnode
    have hmem : bucket ∈ plan.main.buckets := by
      simpa using (Option.filter_eq_some_iff.mp hbucket).2
    rcases List.mem_append.mp hb with hb | hb
    · exact topReads_within hb
    · obtain rfl := List.mem_singleton.mp hb
      cases hdays : node.math.windowDays with
      | some days => exact Bounds.within_some (h.loadFrom_le_window hmain hn hdays hmem) (min_le_right _ _)
      | none => exact Bounds.within_some (TrendsPlan.loadFrom_le hmain) le_rfl
  · cases hb

end within
end trends

theorem RetentionPlan.reads_within {plan : RetentionPlan} {bounds : Bounds} (hb : bounds ∈ plan.reads) :
    bounds.Within (plan.loadFrom, some plan.endUs) := by
  rw [RetentionPlan.reads] at hb
  split at hb
  · cases hb
  · rename_i start rest hstarts
    have hload : ∀ t ∈ plan.loadFrom, plan.firstTime = false ∧ t = start := fun t ht => by
      rw [RetentionPlan.loadFrom, hstarts] at ht
      cases hfirst : plan.firstTime <;> simp_all
    refine ⟨fun t ht => ?_, fun t ht => ?_⟩
    · obtain ⟨hfirst, rfl⟩ := hload t ht
      rcases List.mem_cons.mp hb with rfl | hb
      · exact ⟨t, by simp [hfirst], le_rfl⟩
      · obtain rfl := List.mem_singleton.mp hb
        exact ⟨t, rfl, le_rfl⟩
    · cases ht
      rcases List.mem_cons.mp hb with rfl | hb
      · exact ⟨_, rfl, le_rfl⟩
      · obtain rfl := List.mem_singleton.mp hb
        exact ⟨_, rfl, le_rfl⟩

section calendar
variable (C : Chrono)

/-- The last period of a retention query ends after the calendar: its end falls on the calendar's first day. -/
def PastCalendar (now : DateTime) : InsightQuery → Prop
  | .retention q => maxUs + 1 < nextBucket C (trunc C (fromDatetime now) q.period.interval) q.period.interval
  | _ => False

variable {C} {query : InsightQuery} {now : DateTime} {first : Except QueryError (Option Int)} {prepared : Prepared}

theorem resolve_stop {dates : DateRange} {interval : Interval} {range : ResolvedRange}
    (h : resolveRange C dates interval now first = .ok range) {stop : Int} (hs : stop ∈ range.bounds.2) : stop ≤ maxUs + 1 := by
  cases hs
  exact (resolve_within h).2

/-- Only a retention query reads on past the calendar. -/
theorem loadSpan_past (h : prepare C now first query = .ok prepared) :
    (∃ stop ∈ (prepared.loadSpan C).2, maxUs + 1 < stop) ↔ PastCalendar C now query := by
  have hwithin : (∀ stop ∈ (prepared.loadSpan C).2, stop ≤ maxUs + 1) →
      ((∃ stop ∈ (prepared.loadSpan C).2, maxUs + 1 < stop) ↔ False) := fun hle =>
    iff_false_intro fun ⟨stop, hs, hlt⟩ => absurd hlt (not_lt.mpr (hle stop hs))
  cases query with
  | trends q =>
    obtain ⟨plan, hplan, h⟩ := bind_ok.mp h
    cases h
    apply hwithin
    rintro stop ⟨⟩
    exact (trendsPlan_resolved hplan).calendar
  | funnels q =>
    obtain ⟨range, hrange, h⟩ := bind_ok.mp h
    cases h
    exact hwithin fun stop hs => resolve_stop hrange hs
  | retention q =>
    cases h
    exact ⟨fun ⟨stop, hs, hlt⟩ => by cases hs; exact hlt, fun hlt => ⟨_, rfl, hlt⟩⟩
  | lifecycle q =>
    obtain ⟨range, hrange, h⟩ := bind_ok.mp h
    obtain ⟨plan, hplan, h⟩ := bind_ok.mp h
    cases h
    rw [← (ResolvedRange.period_ok hplan).1] at hrange
    exact hwithin fun stop hs => resolve_stop hrange hs
  | stickiness q =>
    obtain ⟨range, hrange, h⟩ := bind_ok.mp h
    obtain ⟨plan, hplan, h⟩ := bind_ok.mp h
    cases h
    rw [← (ResolvedRange.period_ok hplan).1] at hrange
    exact hwithin fun stop hs => resolve_stop hrange hs
  | paths q =>
    obtain ⟨range, hrange, h⟩ := bind_ok.mp h
    cases h
    exact hwithin fun stop hs => resolve_stop hrange hs
  | sql =>
    cases h
    apply hwithin
    rintro stop ⟨⟩

/-- Every relation of an evaluation lies within the span. -/
theorem reads_within (h : prepare C now first query = .ok prepared) {work : Work} {bounds : Bounds}
    (hb : bounds ∈ reads C query prepared work) : bounds.Within (prepared.loadSpan C) := by
  have hself : ∀ {span : Bounds} {P : Prop} [Decidable P], bounds ∈ (if P then [] else [span]) → bounds.Within span :=
    fun {span P} _ hmem => by
      split at hmem
      · cases hmem
      · obtain rfl := List.mem_singleton.mp hmem
        exact Bounds.within_refl _
  cases query with
  | trends q =>
    obtain ⟨plan, hplan, h⟩ := bind_ok.mp h
    cases h
    cases work with
    | result => exact trendsReads_within (trendsPlan_resolved hplan) hb
    | actors selection =>
      cases selection with
      | trendsPoint => exact trendsActorReads_within (trendsPlan_resolved hplan) hb
      | funnelStep | retentionCell | lifecycleCell | stickinessBar | pathsLink => cases hb
  | funnels q =>
    obtain ⟨range, hrange, h⟩ := bind_ok.mp h
    cases h
    cases work with
    | result =>
      obtain rfl := List.mem_singleton.mp hb
      exact Bounds.within_refl _
    | actors selection =>
      cases selection with
      | funnelStep => exact hself hb
      | trendsPoint | retentionCell | lifecycleCell | stickinessBar | pathsLink => cases hb
  | retention q =>
    cases h
    cases work with
    | result => exact RetentionPlan.reads_within hb
    | actors selection =>
      cases selection with
      | retentionCell cohortDate interval =>
        simp only [reads, actorsReads, retentionActorReads] at hb
        split at hb
        · split at hb
          · cases hb
          · exact RetentionPlan.reads_within hb
        · cases hb
      | trendsPoint | funnelStep | lifecycleCell | stickinessBar | pathsLink => cases hb
  | lifecycle q =>
    obtain ⟨range, hrange, h⟩ := bind_ok.mp h
    obtain ⟨plan, hplan, h⟩ := bind_ok.mp h
    cases h
    cases work with
    | result =>
      obtain rfl := List.mem_singleton.mp hb
      exact Bounds.within_refl _
    | actors selection =>
      cases selection with
      | lifecycleCell day =>
        simp only [reads, actorsReads] at hb
        split at hb
        · obtain rfl := List.mem_singleton.mp hb
          exact Bounds.within_refl _
        · cases hb
      | trendsPoint | funnelStep | retentionCell | stickinessBar | pathsLink => cases hb
  | stickiness q =>
    obtain ⟨range, hrange, h⟩ := bind_ok.mp h
    obtain ⟨plan, hplan, h⟩ := bind_ok.mp h
    cases h
    cases work with
    | result =>
      obtain ⟨-, -, rfl⟩ := List.mem_map.mp hb
      exact Bounds.within_refl _
    | actors selection =>
      cases selection with
      | stickinessBar => exact hself hb
      | trendsPoint | funnelStep | retentionCell | lifecycleCell | pathsLink => cases hb
  | paths q =>
    obtain ⟨range, hrange, h⟩ := bind_ok.mp h
    cases h
    cases work with
    | result =>
      obtain rfl := List.mem_singleton.mp hb
      exact Bounds.within_refl _
    | actors selection =>
      cases selection with
      | pathsLink source target =>
        simp only [reads, actorsReads] at hb
        split at hb
        · split at hb
          · obtain rfl := List.mem_singleton.mp hb
            exact Bounds.within_refl _
          · cases hb
        · cases hb
      | trendsPoint | funnelStep | retentionCell | lifecycleCell | stickinessBar => cases hb
  | sql =>
    cases h
    cases work <;> cases hb

end calendar

section lease
variable {ν U : Type} {s : Snapshot} {content : LakeFile → Content ν U} {projectId : String}

/-- An event of the project, in some file of the lake. -/
def Stored (s : Snapshot) (content : LakeFile → Content ν U) (projectId : String) (e : CapturedEvent ν U) : Prop :=
  ∃ d, ∃ file ∈ s.files projectId d, e ∈ content file

/-- A file holds only events of the day it is filed under. -/
def OwnDays (s : Snapshot) (content : LakeFile → Content ν U) (projectId : String) : Prop :=
  ∀ d, ∀ file ∈ s.files projectId d, ∀ e ∈ content file, eventDay e = d

theorem stored_nonempty {e : CapturedEvent ν U} (h : Stored s content projectId e) : (s.project projectId).days.rows ≠ [] := by
  obtain ⟨d, file, hf, -⟩ := h
  intro hnil
  have hget : (s.project projectId).days.get d = none := Table.get_eq_none.mpr (by simp [hnil])
  simp [Snapshot.files, hget] at hf

/-- A stored event is leased when its day is. -/
theorem mem_leasedEvents (hown : OwnDays s content projectId) {e : CapturedEvent ν U} (he : Stored s content projectId e)
    (span : Bounds) : e ∈ leasedEvents content (leaseSpan s projectId span) ↔
      (spanDays span).1.days ≤ eventDay e ∧ eventDay e < (spanDays span).2.days := by
  simp only [leaseSpan]
  by_cases hrange : (spanDays span).2.days < (spanDays span).1.days
  · rw [if_pos ⟨hrange, stored_nonempty he⟩]
    constructor
    · intro h
      cases h
    · rintro ⟨hfirst, hlast⟩
      exact absurd (hlast.trans hrange) (not_lt.mpr hfirst)
  · rw [if_neg fun h => hrange h.1]
    simp only [leasedEvents, Option.map_some, Option.getD_some, List.mem_flatMap, Snapshot.mem_lease]
    constructor
    · rintro ⟨file, ⟨d, hfirst, hlast, hf⟩, hmem⟩
      rw [hown d file hf e hmem]
      exact ⟨hfirst, hlast⟩
    · rintro ⟨hfirst, hlast⟩
      obtain ⟨d, file, hf, hmem⟩ := he
      have hday := hown d file hf e hmem
      exact ⟨file, ⟨d, hday ▸ hfirst, hday ▸ hlast, hf⟩, hmem⟩

theorem spanDays_le {span : Bounds} {time : DateTime} (h : span.Admits (fromDatetime time)) :
    (spanDays span).1.days ≤ (dateNaive time).days := by
  obtain ⟨start, stop⟩ := span
  cases start with
  | none => exact (dateNaive time).min_le
  | some us => exact dayOf_le (h.1 us rfl)

/-- The day of an admitted instant is leased up to the day before the calendar's last one. -/
theorem lt_spanDays {span : Bounds} {time : DateTime} (h : span.Admits (fromDatetime time)) :
    (dateNaive time).days < (spanDays span).2.days ↔ (dateNaive time).days ≠ Date.max.days ∧
      ∀ stop ∈ span.2, maxUs + 1 < stop → (dateNaive time).days = Date.min.days := by
  have hmin : Date.min.days ≤ (dateNaive time).days := (dateNaive time).min_le
  have hmax : (dateNaive time).days ≤ Date.max.days := (dateNaive time).le_max
  have hne : Date.min.days < Date.max.days := by decide
  obtain ⟨start, stop⟩ := span
  cases stop with
  | none =>
    change (dateNaive time).days < Date.max.days ↔ _
    simp only [Option.mem_def, reduceCtorEq, false_implies, implies_true, and_true]
    omega
  | some stop =>
    have hbefore : fromDatetime time ≤ stop - 1 := Int.le_sub_one_of_lt (h.2 stop rfl)
    change (dateNaive time).days < ((dayOf (stop - 1)).succ.getD .max).days ↔ _
    simp only [Option.mem_def, Option.some.injEq, forall_eq']
    by_cases hstop : maxUs + 1 < stop
    · have hday : dayOf (stop - 1) = Date.min := Date.ext (by
        rw [dayOf_days, if_neg]
        rintro ⟨-, hle⟩
        omega)
      have hsucc : ((dayOf (stop - 1)).succ.getD .max).days = Date.min.days + 1 := by
        rw [hday]
        rfl
      rw [hsucc]
      omega
    · have hle : (dateNaive time).days ≤ (dayOf (stop - 1)).days := le_dayOf hbefore (by omega)
      have hsucc : ((dayOf (stop - 1)).succ.getD .max).days = min ((dayOf (stop - 1)).days + 1) Date.max.days := by
        have hfirst := (dayOf (stop - 1)).min_le
        have hlast := (dayOf (stop - 1)).le_max
        rw [Date.succ, Date.ofDays]
        split <;> simp only [Option.getD_some, Option.getD_none, Date.max] <;> omega
      rw [hsucc]
      omega

theorem mem_leaseSpan (hown : OwnDays s content projectId) {e : CapturedEvent ν U} (he : Stored s content projectId e)
    {span : Bounds} (h : span.Admits (timestampMicros e)) : e ∈ leasedEvents content (leaseSpan s projectId span) ↔
      eventDay e ≠ Date.max.days ∧ ∀ stop ∈ span.2, maxUs + 1 < stop → eventDay e = Date.min.days :=
  (mem_leasedEvents hown he span).trans ((and_iff_right (spanDays_le h)).trans (lt_spanDays h))

/-- What a session prepares, and what it leases: the span, or everything for a range from `all`. -/
theorem session_ok {C : Chrono} {query : InsightQuery} {now : DateTime} {prepared : Prepared} {lease : Option Lease}
    (h : session C s content projectId query now = .ok (prepared, lease)) :
    ∃ first, prepare C now first query = .ok prepared ∧ (lease = leaseSpan s projectId (prepared.loadSpan C) ∨
      lease = leaseSpan s projectId (none, none) ∧ ¬ PastCalendar C now query) := by
  rw [session] at h
  split at h
  · rename_i hall
    obtain ⟨prepared', hp, h⟩ := bind_ok.mp h
    cases h
    refine ⟨_, hp, .inr ⟨rfl, fun hpast => ?_⟩⟩
    cases query <;> first | exact hpast | cases hall
  · obtain ⟨prepared', hp, h⟩ := bind_ok.mp h
    cases h
    exact ⟨_, hp, .inl rfl⟩

/-- The event reads `e`: some relation of the evaluation admits its time. -/
def Reads (C : Chrono) (query : InsightQuery) (prepared : Prepared) (work : Work) (e : CapturedEvent ν U) : Prop :=
  ∃ bounds ∈ reads C query prepared work, bounds.Admits (timestampMicros e)

/-- The days that a lease reaches. -/
def InReach (C : Chrono) (now : DateTime) (query : InsightQuery) (e : CapturedEvent ν U) : Prop :=
  eventDay e ≠ Date.max.days ∧ (PastCalendar C now query → eventDay e = Date.min.days)

theorem leased_iff {C : Chrono} {query : InsightQuery} {now : DateTime} {prepared : Prepared} {lease files : Option Lease}
    (hown : OwnDays s content projectId) (h : session C s content projectId query now = .ok (prepared, lease))
    (hfiles : files = lease ∨ files = leaseSpan s projectId (prepared.loadSpan C)) {work : Work} {e : CapturedEvent ν U}
    (he : Stored s content projectId e) (hr : Reads C query prepared work e) :
    e ∈ leasedEvents content files ↔ InReach C now query e := by
  obtain ⟨first, hp, hlease⟩ := session_ok h
  obtain ⟨bounds, hb, hadmits⟩ := hr
  have hspan : e ∈ leasedEvents content (leaseSpan s projectId (prepared.loadSpan C)) ↔ InReach C now query e := by
    have hpast := loadSpan_past hp
    refine (mem_leaseSpan hown he ((reads_within hp hb).admits hadmits)).trans (and_congr_right fun _ => ⟨fun h hq => ?_, ?_⟩)
    · obtain ⟨stop, hs, hlt⟩ := hpast.mpr hq
      exact h stop hs hlt
    · intro h stop hs hlt
      exact h (hpast.mp ⟨stop, hs, hlt⟩)
  rcases hfiles with rfl | rfl
  · rcases hlease with rfl | ⟨rfl, hpast⟩
    · exact hspan
    · have hall : Bounds.Admits (none, none) (timestampMicros e) := ⟨by simp, by simp⟩
      refine (mem_leaseSpan hown he hall).trans (and_congr_right fun _ => ⟨fun _ hq => absurd hq hpast, fun _ stop hs => ?_⟩)
      cases hs
  · exact hspan

end lease

namespace Chrono

/-- The day of a civil date, if there is one. -/
def ofYmd (year : Int) (month day : Nat) : Option Date :=
  let shifted := if month ≤ 2 then year - 1 else year
  let monthIndex : Nat := if month ≤ 2 then month + 9 else month - 3
  let yearOfEra := shifted % 400
  let days := shifted / 400 * 146097 + (yearOfEra * 365 + yearOfEra / 4 - yearOfEra / 100) +
    ((153 * monthIndex + 2) / 5 : Nat) + day - 1 - 719468
  (Date.ofDays days).filter fun date => civil date.days = ⟨year, month, day⟩

/-- The same day of the month some months on, or the last one before it. -/
def shiftMonths (date : Date) (months : Int) : Option Date :=
  let old := civil date.days
  let index := old.year * 12 + (old.month - 1 : Int) + months
  [0, 1, 2, 3].findSome? fun early => ofYmd (index / 12) ((index % 12).toNat + 1) (old.day - early)

/-- A year with or without a sign, month and day. -/
def parseYmd (text : String) : Option Date :=
  let (sign, digits) : Int × List Char :=
    match text.toList with
    | '-' :: digits => (-1, digits)
    | '+' :: digits => (1, digits)
    | digits => (1, digits)
  match digits.splitOn '-' with
  | [year, month, day] =>
    if [year, month, day].all fun part => part ≠ [] ∧ part.all Char.isDigit then
      ofYmd (sign * Nat.ofDigitChars 10 year 0) (Nat.ofDigitChars 10 month 0) (Nat.ofDigitChars 10 day 0)
    else none
  | _ => none

def small : Chrono where
  parseRfc3339 := Crates.small.parseRfc3339
  parseNaive := Crates.small.parseNaive
  parseDate := parseYmd
  fromYmd := ofYmd
  addMonths date months := (shiftMonths date months).filter fun next => date.days < next.days
  subMonths date months := shiftMonths date (-months)
  later _ _ _ _ h := by simpa using (Option.filter_eq_some_iff.mp h).2

end Chrono

section oneDay

def visit (time : DateTime) : CapturedEvent Int Small.Uuid := ⟨Small.nilUuid, "$pageview", "a", "phc_t", time, Json.Map.empty⟩

def dayFile (day : Int) : LakeFile := ⟨1, "p", day, ⟨"p", "day", .published 1 0, false⟩, 1, 1, 0, 0⟩

/-- A lake with one file of one event. -/
def oneDay (day : Int) : Snapshot := (Snapshot.activate ⟨0, .empty⟩ 1 [dayFile day] []).1

def paths (date : String) : InsightQuery := .paths ⟨⟨date, some date⟩⟩

theorem oneDay_files {day d : Int} {file : LakeFile} : file ∈ (oneDay day).files "p" d ↔ d = day ∧ file = dayFile day := by
  have hempty : (Snapshot.mk 0 .empty).files "p" d = [] := rfl
  rw [oneDay, Snapshot.activate_files, hempty]
  by_cases hd : d = day <;> simp [dayFile, hd, Ne.symm, eq_comm]

theorem oneDay_own {time : DateTime} : OwnDays (oneDay (dateNaive time).days) (fun _ => [visit time]) "p" := by
  intro d file hf e he
  obtain ⟨rfl, -⟩ := oneDay_files.mp hf
  obtain rfl := List.mem_singleton.mp he
  rfl

theorem oneDay_stored {time : DateTime} : Stored (oneDay (dateNaive time).days) (fun _ => [visit time]) "p" (visit time) :=
  ⟨_, _, oneDay_files.mpr ⟨rfl, rfl⟩, List.mem_singleton_self _⟩

theorem paths_session (date : String) (time : DateTime) {range : ResolvedRange} (hall : dateFromIsAll ⟨date, some date⟩ = false)
    (h : resolveRange Chrono.small ⟨date, some date⟩ .day Small.noon (.ok none) = .ok range) :
    session Chrono.small (oneDay (dateNaive time).days) (fun _ => [visit time]) "p" (paths date) Small.noon =
      .ok (.paths range, leaseSpan (oneDay (dateNaive time).days) "p" range.bounds) := by
  simp only [session, usesAll, paths, hall, Bool.false_eq_true, if_false, prepare, h]
  rfl

private theorem minNs_le_maxNs : minNs ≤ maxNs := by decide

def lastInstant : DateTime := ⟨maxNs, minNs_le_maxNs, Int.le_refl maxNs⟩

/-- The calendar's last day. -/
def lastRange : ResolvedRange := ⟨8210266790400000000, 8210266876800000000, .day⟩

end oneDay

end Hoglet.Query
