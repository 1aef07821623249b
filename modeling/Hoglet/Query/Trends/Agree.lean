import Hoglet.Query.Spans
import Hoglet.Query.Trends.Masks

/-! The mask path and the general SQL give the same series, and both count the distinct persons of each bucket or window. -/
namespace Hoglet.Query
open Capture
variable {C : Chrono}

/-! The periods of a plan. -/

/-- A range has no more than the buckets that fit. -/
private theorem bucketsFrom_cover {interval : Interval} (hi : interval ≠ .month) {toUs : Int} {room : Nat} {start : Int} {buckets : List Int}
    (hstart : minI64 ≤ start) (h : bucketsFrom C interval toUs room start = .ok buckets) : toUs ≤ start + room * weekUs := by
  induction room generalizing start buckets with
  | zero =>
    rw [bucketsFrom] at h
    split at h
    · cases h
    · omega
  | succ room ih =>
    rw [bucketsFrom] at h
    split at h
    · obtain ⟨rest, hrest, -⟩ := map_ok.mp h
      have hnext : minI64 ≤ nextBucket C start interval ∧ nextBucket C start interval ≤ start + weekUs := by
        cases interval with
        | month => exact absurd rfl hi
        | hour | day | week =>
          simp only [nextBucket, saturatingAdd, minI64, maxI64, weekUs, dayUs, hourUs] at *
          omega
      have hcover := ih hnext.1 hrest
      push_cast
      linarith [hnext.2]
    · have hweek : 0 ≤ weekUs := by decide
      have : (0 : Int) ≤ ((room + 1 : Nat) : Int) * weekUs := mul_nonneg (Nat.cast_nonneg _) hweek
      omega

private theorem le_trunc_month (us : Int) : minI64 ≤ trunc C us .month := by
  have hmin := (dateStartUs_within ((C.fromYmd (civil (dayOf us).days).year (civil (dayOf us).days).month 1).getD (dayOf us))).1
  simp only [trunc, minI64, minUs] at *
  omega

private theorem le_trunc {us : Int} (interval : Interval) (h : minI64 + weekUs ≤ us) : minI64 ≤ trunc C us interval := by
  cases interval with
  | month => exact le_trunc_month us
  | hour | day | week =>
    simp only [trunc, floorTo, minI64, weekUs, weekOriginUs, dayUs, hourUs] at *
    omega

/-- Every period of a plan is covered by its buckets. -/
theorem trendsPlan_covered {q : TrendsQuery} {now : DateTime} {first : Except QueryError (Option Int)} {plan : TrendsPlan}
    (hfirst : ∀ us, first = .ok (some us) → minUs ≤ us) (h : trendsPlan C q now first = .ok plan) :
    ∀ period ∈ plan.periods, period.Covered C := by
  have hresolved := trendsPlan_resolved h
  obtain ⟨range, hrange, h⟩ := bind_ok.mp h
  obtain ⟨main, hmain, h⟩ := bind_ok.mp h
  obtain ⟨previous, hprevious, h⟩ := bind_ok.mp h
  cases h
  obtain ⟨hne, hto⟩ := resolve_within hrange
  obtain ⟨hfrom, -⟩ := resolve_from hfirst hrange
  obtain ⟨rfl, hbuckets⟩ := ResolvedRange.period_ok hmain
  have htrunc : minI64 ≤ trunc C main.range.fromUs main.range.interval := by
    apply le_trunc
    simp only [minI64, weekUs, dayUs, hourUs, minUs] at *
    omega
  intro period hp
  have hcovers := hresolved.buckets period hp
  have hend := (hresolved.toUs period hp).trans hresolved.calendar
  rcases List.mem_cons.mp hp with rfl | hp
  · exact ⟨hcovers, hend, htrunc⟩
  · refine ⟨hcovers, hend, ?_⟩
    cases Option.mem_toList.mp hp
    rw [comparePeriod] at hprevious
    split at hprevious
    · obtain ⟨before, hbefore, heq⟩ := bind_ok.mp hprevious
      cases heq
      rw [(ResolvedRange.period_ok hbefore).1]
      by_cases hi : main.range.interval = .month
      · simp only [ResolvedRange.previous, hi]
        exact le_trunc_month _
      · -- the period is as long as the main one, which at most ten thousand buckets cover
        apply le_trunc
        have hlong := bucketsFrom_cover hi htrunc hbuckets
        have hstart : trunc C main.range.fromUs main.range.interval ≤ main.range.fromUs := by
          cases hc : main.range.interval with
          | month => exact absurd hc hi
          | hour | day | week =>
            simp only [trunc, floorTo, weekUs, weekOriginUs, dayUs, hourUs]
            omega
        simp only [ResolvedRange.previous, saturatingAdd, maxBuckets, minI64, maxI64, weekUs, dayUs, hourUs, minUs, maxUs] at *
        omega
    · cases hprevious

end Hoglet.Query

namespace Hoglet.Query.Trends
variable {C : Chrono} {ctx : Ctx} {q : TrendsQuery} {node : EventNode} {period : Period} {top : Option Top}

/-- What a bucket's value is about: the window that ends with the bucket, or the bucket; within the range. -/
def window (C : Chrono) (math : Math) (period : Period) (bucket : Int) : Int × Int :=
  let stop := min (nextBucket C bucket period.range.interval) period.range.toUs
  match math.windowDays with
  | some days => (nextBucket C bucket period.range.interval - days * dayUs, stop)
  | none => (max bucket period.range.fromUs, stop)

/-- The distinct persons with a matching event between two instants. -/
def personsBetween (ctx : Ctx) (q : TrendsQuery) (node : EventNode) (top : Option Top) (key : Option String) (span : Int × Int) : List String :=
  (((ctx.relation span.1 span.2).filter (matching ctx q node top key)).map ctx.person).dedup

/-- What the active-person maths are to show for a breakdown value. -/
def personValues (C : Chrono) (ctx : Ctx) (q : TrendsQuery) (node : EventNode) (period : Period) (top : Option Top) (key : Option String) :
    Computed where
  breakdown := key
  data := period.buckets.map fun bucket => ((personsBetween ctx q node top key (window C node.math period bucket)).length : Rat)
  aggregated := (personsBetween ctx q node top key (period.range.fromUs, period.range.toUs)).length

theorem PersonAnswer.entry_persons {rows : Masked} (hp : period.Covered C) (h : PersonAnswer C ctx q node period top rows)
    (key : Option String) : (byKey period.buckets rows).entry period.buckets key =
      ⟨key, period.buckets.map fun bucket => ((bucketPersons C ctx q node period top bucket key).length : Rat),
        (rangePersons ctx q node period top key).length⟩ :=
  Answer.entry h (buckets_nodup hp) key

/-- Within days and weeks a bucket counts what lies between its ends. -/
theorem counts_window (hp : period.Covered C) {bucket : Int} (hb : bucket ∈ period.buckets)
    (hgrain : node.math.windowDays = none → period.range.interval = .day ∨ period.range.interval = .week) (ts : Int) :
    counts C node.math period bucket ts = true ↔ (window C node.math period bucket).1 ≤ ts ∧ ts < (window C node.math period bucket).2 := by
  rw [counts, window]
  cases hd : node.math.windowDays with
  | some days => simp only [decide_eq_true_eq]
  | none =>
    have hunit := nextBucket_unit hp hb
    simp only [decide_eq_true_eq]
    rcases hgrain hd with hi | hi
    · obtain ⟨⟨-, haligned⟩, -⟩ := bucket_aligned hp hb
      rw [hi] at haligned
      rw [hunit.1 hi, hi, bucketExpr, floorExpr_eq (by decide)]
      simp only [granuleUs, floorTo, dayUs, hourUs] at *
      omega
    · have haligned := week_aligned hp hi hb
      rw [hunit.2 hi, hi, bucketExpr, floorExpr_eq (by decide)]
      simp only [floorTo, weekUs, weekOriginUs, dayUs, hourUs] at *
      omega

theorem entry_values {rows : Masked} (hp : period.Covered C) (h : PersonAnswer C ctx q node period top rows)
    (hgrain : node.math.windowDays = none → period.range.interval = .day ∨ period.range.interval = .week) (key : Option String) :
    (byKey period.buckets rows).entry period.buckets key = personValues C ctx q node period top key := by
  rw [h.entry_persons hp, personValues]
  congr 1
  apply List.map_congr_left
  intro bucket hb
  refine congrArg (fun n : Nat => (n : Rat)) (length_bucketPersons fun person => ?_).symm
  rw [mem_bucketPersons, List.mem_map]
  simp only [List.mem_filter, matching_iff, mem_relation, ← counts_window hp hb hgrain, and_assoc]

/-- Where the masks are used the general SQL gives the same series, and each value is the number of distinct persons with
a matching event in the bucket, or in the window that ends with it. -/
theorem masks_agree (hp : period.Covered C) {rows : Masked} (h : activeMasks C ctx q node period top = some rows) :
    compute C ctx q node period top = listed period.buckets top (byKey period.buckets (generalRows C ctx q node period top)) ∧
      ∀ key, (byKey period.buckets rows).entry period.buckets key = personValues C ctx q node period top key ∧
        (byKey period.buckets (generalRows C ctx q node period top)).entry period.buckets key = personValues C ctx q node period top key := by
  have hmasks := activeMasks_answer hp h
  obtain ⟨us, hfrom, -⟩ := Option.bind_eq_some_iff.mp h
  obtain ⟨first, base, unit, hfits⟩ := fits_of_maskFrom hfrom
  have hgeneral : PersonAnswer C ctx q node period top (generalRows C ctx q node period top) := generalRows_answer hp hfits.needsPerson
  have hgrain : node.math.windowDays = none → period.range.interval = .day ∨ period.range.interval = .week := by
    intro hd
    have hgranules := hfits.granules
    rw [maskGranules, hd] at hgranules
    cases hi : period.range.interval with
    | day => exact .inl rfl
    | week => exact .inr rfl
    | hour | month =>
      rw [hi] at hgranules
      cases hgranules
  refine ⟨?_, fun key => ⟨entry_values hp hmasks hgrain key, entry_values hp hgeneral hgrain key⟩⟩
  rw [compute, h, Option.getD_some]
  apply listed_congr
  intro key
  rw [entry_values hp hmasks hgrain, entry_values hp hgeneral hgrain]


section sample

def seenAt (distinctId : String) (day : Int) (plan : String) : Event := ⟨"visit", 1784592000000000 + day * dayUs + 5, distinctId, none, plan⟩

/-- Two distinct ids of one person, and three days of events that carry the name of the folded rest. -/
def sampleCtx : Ctx where
  events := [seenAt "a" 0 "$$_other", seenAt "b" 1 "$$_other", seenAt "a'" 1 "$$_other", seenAt "c" 2 "x"]
  overrides distinctId := if distinctId = "a'" then some "a" else none
  eventText _ e := some e.properties
  personText _ _ := none
  quantity _ _ := none
  arrange := id
  arrange_perm := perm_id

def weekly : EventNode := ⟨none, [], .weeklyActive, fun _ => none⟩

def sampleQuery : TrendsQuery := ⟨[weekly], ⟨"2026-07-21", some "2026-07-23"⟩, .day, [], some ⟨⟨"plan", .event⟩, 1⟩, false⟩

/-- The three days from 2026-07-21. -/
def sampleRange : ResolvedRange := ⟨1784592000000000, 1784851200000000, .day⟩

def samplePeriod : Period := ⟨sampleRange, [1784592000000000, 1784678400000000, 1784764800000000]⟩

theorem samplePeriod_covered : samplePeriod.Covered Chrono.small := ⟨by decide +kernel, by decide, by decide⟩

/-- The days are few enough for the masks. -/
theorem sample_fits : (activeMasks Chrono.small sampleCtx sampleQuery weekly samplePeriod none).isSome = true := by decide +kernel

theorem sample_masks_agree : ∃ rows, activeMasks Chrono.small sampleCtx sampleQuery weekly samplePeriod none = some rows ∧
    (byKey samplePeriod.buckets rows).entry samplePeriod.buckets none =
      personValues Chrono.small sampleCtx sampleQuery weekly samplePeriod none none := by
  obtain ⟨rows, hrows⟩ := Option.isSome_iff_exists.mp sample_fits
  exact ⟨rows, hrows, ((masks_agree samplePeriod_covered hrows).2 none).1⟩

end sample
end Hoglet.Query.Trends
