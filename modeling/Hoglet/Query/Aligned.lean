import Hoglet.Query.Buckets
import Hoglet.Tiling

/-! The buckets of a range tile it, and each is the one that `trunc` and the SQL name for the instants in it. -/
namespace Hoglet.Query
open Trends (bucketExpr)
variable {C : Chrono} {range : ResolvedRange} {interval : Interval} {start toUs : Int} {buckets : List Int}

theorem bucketsFrom_tiles {room : Nat} (h : bucketsFrom C interval toUs room start = .ok buckets) :
    Tiles (fun a b => b = nextBucket C a interval) toUs start buckets := by
  induction room generalizing start buckets with
  | zero =>
    rw [bucketsFrom] at h
    split at h
    · cases h
    · rename_i hlt
      cases h
      exact .done (not_lt.mp hlt)
  | succ room ih =>
    rw [bucketsFrom] at h
    split at h
    · rename_i hlt
      obtain ⟨rest, hrest, rfl⟩ := map_ok.mp h
      exact .more hlt rfl (ih hrest)
    · rename_i hlt
      cases h
      exact .done (not_lt.mp hlt)

theorem bucketsFrom_error {room : Nat} {e : QueryError} (h : bucketsFrom C interval toUs room start = .error e) : e = tooManyBuckets := by
  induction room generalizing start with
  | zero =>
    rw [bucketsFrom] at h
    split at h
    · cases h
      rfl
    · cases h
  | succ room ih =>
    rw [bucketsFrom] at h
    split at h
    · cases hrest : bucketsFrom C interval toUs room (nextBucket C start interval) with
      | ok rest =>
        rw [hrest] at h
        cases h
      | error e' =>
        rw [hrest] at h
        cases h
        exact ih hrest
    · cases h

variable (C range buckets) in
/-- Every instant of the range lies in one bucket, the one `trunc` names. -/
structure RangeTiled : Prop where
  sorted : buckets.Pairwise (· < ·)
  next : ∀ k b b', buckets[k]? = some b → buckets[k + 1]? = some b' → b' = nextBucket C b range.interval
  covers : ∀ us, range.fromUs ≤ us → us < range.toUs → ∃! b, b ∈ buckets ∧ b ≤ us ∧ us < nextBucket C b range.interval
  named : ∀ us, range.fromUs ≤ us → us < range.toUs → ∀ b ∈ buckets, b ≤ us → us < nextBucket C b range.interval →
    trunc C us range.interval = b

theorem rangeTiled (hC : C.Gregorian) (h : range.buckets C = .ok buckets) (hmin : minUs ≤ range.fromUs) (hmax : range.toUs ≤ maxUs + 1) :
    RangeTiled C range buckets := by
  have htiles := bucketsFrom_tiles h
  have hnamed : ∀ us, range.fromUs ≤ us → us < range.toUs → ∀ b ∈ buckets, b ≤ us → us < nextBucket C b range.interval →
      trunc C us range.interval = b := by
    intro us hfrom hto b hb hle hlt
    obtain ⟨hstarts, -⟩ := ResolvedRange.buckets_starts hC h hmin (hfrom.trans_lt hto) hmax b hb
    rw [trunc_eq_bucketExpr hC (hmin.trans hfrom) (by omega)]
    exact (hstarts.covers hC (by omega)).mpr ⟨hle, hlt⟩
  refine ⟨bucketsFrom_sorted hmax h, fun k b b' hb hb' => htiles.follows_getElem hb hb', fun us hfrom hto => ?_, hnamed⟩
  have hstart : trunc C range.fromUs range.interval ≤ us := (starts_trunc hC hmin (by omega) range.interval).2.trans hfrom
  obtain ⟨b, hb, _, rfl, hle, hlt⟩ := htiles.covers hstart hto
  refine ⟨b, ⟨hb, hle, hlt⟩, ?_⟩
  rintro b' ⟨hb', hle', hlt'⟩
  rw [← hnamed us hfrom hto b hb hle hlt, hnamed us hfrom hto b' hb' hle' hlt']

/-- A range within the calendar is tiled by its buckets, unless they are too many; in the calendar the SQL agrees with `trunc`,
and the bucket before the next one is the bucket itself, but for the last month. -/
theorem buckets_correct (hC : C.Gregorian) (range : ResolvedRange) (hmin : minUs ≤ range.fromUs) (hmax : range.toUs ≤ maxUs + 1) :
    (range.buckets C = .error tooManyBuckets ∨ ∃ buckets, range.buckets C = .ok buckets ∧ RangeTiled C range buckets) ∧
      ∀ us interval, minUs ≤ us → us ≤ maxUs → trunc C us interval = bucketExpr interval us ∧
        ((interval = .month → nextBucket C (trunc C us interval) interval ≤ maxUs) →
          previousBucket C (nextBucket C (trunc C us interval) interval) interval = trunc C us interval) := by
  refine ⟨?_, fun us interval hus hus' => ⟨trunc_eq_bucketExpr hC hus hus' interval, fun hnext => ?_⟩⟩
  · cases h : range.buckets C with
    | error e => exact .inl (congrArg _ (bucketsFrom_error h))
    | ok buckets => exact .inr ⟨buckets, rfl, rangeTiled hC h hmin hmax⟩
  · exact (starts_trunc hC hus hus' interval).1.previous_next hC hnext

theorem january_correct : trunc .small 1767225600000001 .month = 1767225600000000 := by
  rw [((buckets_correct Chrono.small_gregorian ⟨0, 1, .month⟩ (by decide) (by decide)).2 1767225600000001 .month (by decide) (by decide)).1]
  decide +kernel

/-- At the end of the calendar the last month has no next bucket to come back from, and an instant past it no month of its own. -/
theorem lastMonth_not_inverted :
    ¬ (∀ us interval, minUs ≤ us → us ≤ maxUs →
      previousBucket .small (nextBucket .small (trunc .small us interval) interval) interval = trunc .small us interval) ∧
    ¬ ∀ us, minI64 ≤ us → us ≤ maxI64 → trunc .small us .month = bucketExpr .month us := by
  constructor
  · intro h
    exact absurd (h maxUs .month (by decide) le_rfl) (by decide +kernel)
  · intro h
    exact absurd (h (maxUs + 1) (by decide) (by decide)) (by decide +kernel)

end Hoglet.Query
