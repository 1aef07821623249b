import Hoglet.Query.Trends.Compute

/-! The buckets of a period and the granules of the masks: which instants a bucket counts, from the ends of its window
alone. -/
namespace Hoglet.Query

/-- The buckets are those of the range, and what is computed on the way to them is within `i64`. -/
structure Period.Covered (C : Chrono) (period : Period) : Prop where
  buckets : period.range.buckets C = .ok period.buckets
  toUs_le : period.range.toUs ≤ maxUs + 1
  le_trunc : minI64 ≤ trunc C period.range.fromUs period.range.interval

section buckets
variable {C : Chrono} {interval : Interval} {toUs : Int}

theorem lt_nextBucket {us : Int} (interval : Interval) (h : us ≤ maxUs) : us < nextBucket C us interval := by
  have hunit : ∀ unit : Int, 0 < unit → unit ≤ weekUs → us < saturatingAdd us unit := fun unit hu hw => by
    simp only [maxUs, weekUs, dayUs, hourUs] at h hw
    simp only [saturatingAdd, minI64, maxI64]
    omega
  cases interval with
  | hour => exact hunit hourUs (by decide) (by decide)
  | day => exact hunit dayUs (by decide) (by decide)
  | week => exact hunit weekUs (by decide) (by decide)
  | month =>
    rw [nextBucket]
    cases hnext : C.addMonths (dayOf us) 1 with
    | none =>
      simp only [maxUs] at h
      simp only [Option.map_none, Option.getD_none, maxI64]
      omega
    | some next =>
      have hlater := C.later _ _ _ Nat.one_pos hnext
      have hmin := next.min_le
      rw [dayOf_days] at hlater
      simp only [Option.map_some, Option.getD_some, dateStartUs, dayUs, hourUs]
      split at hlater <;> simp only [minUs, maxUs, dayUs, hourUs] at * <;> omega

/-- What a bucket passes on to the next one before the end, all of them have. -/
theorem bucketsFrom_forall {P : Int → Prop} (hnext : ∀ us, P us → us < toUs → P (nextBucket C us interval) ∨ toUs ≤ nextBucket C us interval)
    {room : Nat} {start : Int} {buckets : List Int} (h : bucketsFrom C interval toUs room start = .ok buckets) (hstart : start < toUs → P start) :
    ∀ bucket ∈ buckets, P bucket ∧ bucket < toUs := by
  induction room generalizing start buckets with
  | zero =>
    rw [bucketsFrom] at h
    split at h <;> cases h
    simp
  | succ room ih =>
    rw [bucketsFrom] at h
    split at h
    · rename_i hlt
      obtain ⟨rest, hrest, rfl⟩ := map_ok.mp h
      intro bucket hb
      rcases List.mem_cons.mp hb with rfl | hb
      · exact ⟨hstart hlt, hlt⟩
      · exact ih hrest (fun hlt' => (hnext start (hstart hlt) hlt).resolve_right (not_le.mpr hlt')) bucket hb
    · cases h
      simp

theorem bucketsFrom_sorted (hto : toUs ≤ maxUs + 1) {room : Nat} {start : Int} {buckets : List Int}
    (h : bucketsFrom C interval toUs room start = .ok buckets) : buckets.Pairwise (· < ·) := by
  induction room generalizing start buckets with
  | zero =>
    rw [bucketsFrom] at h
    split at h <;> cases h
    exact .nil
  | succ room ih =>
    rw [bucketsFrom] at h
    split at h
    · rename_i hlt
      obtain ⟨rest, hrest, rfl⟩ := map_ok.mp h
      refine List.pairwise_cons.mpr ⟨fun bucket hb => ?_, ih hrest⟩
      have hfirst := lt_nextBucket (C := C) interval (by omega : start ≤ maxUs)
      have hkeep : ∀ us, start < us → us < toUs → start < nextBucket C us interval ∨ toUs ≤ nextBucket C us interval :=
        fun us hus hlt' => .inl (hus.trans (lt_nextBucket interval (by omega)))
      exact (bucketsFrom_forall hkeep hrest (fun _ => hfirst) bucket hb).1
    · cases h
      exact .nil

end buckets
end Hoglet.Query

namespace Hoglet.Query.Trends

theorem floorExpr_eq {unit : Int} (hu : 0 < unit) (ts origin : Int) : floorExpr ts unit origin = floorTo ts unit origin := by
  have hlt := Int.lt_tmod_of_pos (ts - origin) hu
  have hdiv := Int.tmod_add_mul_tdiv (ts - origin) unit
  rw [floorExpr, floorTo, Int.tmod_eq_emod_of_nonneg (by omega), Int.add_emod_right]
  congr 1
  have hmod : (ts - origin).tmod unit = ts - origin - unit * (ts - origin).tdiv unit := by omega
  rw [hmod, Int.sub_mul_emod_self_left]

/-- The length of a granule of the general SQL. -/
def granuleUs : Interval → Int
  | .hour => hourUs
  | _ => dayUs

theorem bucketExpr_granule (interval : Interval) (ts : Int) :
    bucketExpr (granule interval) ts = floorTo ts (granuleUs interval) 0 := by
  cases interval with
  | hour => exact floorExpr_eq (by decide) ts 0
  | day | week | month => exact floorExpr_eq (by decide) ts 0

/-- Whether an instant is counted for a bucket: in the window that ends with it, or in the bucket within the range. -/
def counts (C : Chrono) (math : Math) (period : Period) (bucket ts : Int) : Bool :=
  match math.windowDays with
  | some days => nextBucket C bucket period.range.interval - days * dayUs ≤ ts ∧
      ts < min (nextBucket C bucket period.range.interval) period.range.toUs
  | none => period.range.fromUs ≤ ts ∧ ts < period.range.toUs ∧ bucketExpr period.range.interval ts = bucket

section covered
variable {C : Chrono} {math : Math} {period : Period} (h : period.Covered C) {bucket : Int} (hb : bucket ∈ period.buckets)

theorem windowDays_cases {days : Int} (hd : math.windowDays = some days) : days = 7 ∨ days = 30 := by
  cases math <;> cases hd <;> simp

include h

theorem buckets_nodup : period.buckets.Nodup := (bucketsFrom_sorted h.toUs_le h.buckets).imp fun hlt => hlt.ne

/-- A bucket starts with a granule. -/
theorem bucket_aligned (hb : bucket ∈ period.buckets) :
    (minI64 ≤ bucket ∧ bucket % granuleUs period.range.interval = 0) ∧ bucket < period.range.toUs := by
  have hto := h.toUs_le
  have htrunc := h.le_trunc
  refine bucketsFrom_forall (P := fun us => minI64 ≤ us ∧ us % granuleUs period.range.interval = 0) (fun us hus hlt => ?_) h.buckets
    (fun _ => ⟨htrunc, ?_⟩) bucket hb
  · cases hi : period.range.interval with
    | hour | day | week =>
      left
      rw [hi] at hus
      simp only [nextBucket, granuleUs, saturatingAdd, minI64, maxI64, maxUs, hourUs, dayUs, weekUs] at *
      omega
    | month =>
      rw [nextBucket]
      cases C.addMonths (dayOf us) 1 with
      | none =>
        right
        simp only [Option.map_none, Option.getD_none, maxI64, maxUs] at *
        omega
      | some next =>
        left
        have hmin := (dateStartUs_within next).1
        refine ⟨?_, Int.mul_emod_left _ _⟩
        simp only [Option.map_some, Option.getD_some, minI64, minUs] at *
        omega
  · cases period.range.interval with
    | hour | day | week =>
      simp only [trunc, floorTo, granuleUs, hourUs, dayUs, weekUs, weekOriginUs]
      omega
    | month => exact Int.mul_emod_left _ _

theorem week_aligned (hi : period.range.interval = .week) (hb : bucket ∈ period.buckets) : (bucket - weekOriginUs) % weekUs = 0 := by
  have hto := h.toUs_le
  have htrunc := h.le_trunc
  have hbuckets := h.buckets
  rw [ResolvedRange.buckets, hi] at hbuckets
  rw [hi] at htrunc
  refine (bucketsFrom_forall (P := fun us => minI64 ≤ us ∧ (us - weekOriginUs) % weekUs = 0) (fun us hus hlt => .inl ?_) hbuckets
    (fun _ => ⟨htrunc, ?_⟩) bucket hb).1.2
  · simp only [nextBucket, saturatingAdd, minI64, maxI64, maxUs, weekUs, weekOriginUs, dayUs, hourUs] at *
    omega
  · simp only [trunc, floorTo, weekUs, weekOriginUs, dayUs, hourUs]
    omega

theorem nextBucket_unit (hb : bucket ∈ period.buckets) :
    (period.range.interval = .day → nextBucket C bucket period.range.interval = bucket + dayUs) ∧
      (period.range.interval = .week → nextBucket C bucket period.range.interval = bucket + weekUs) := by
  obtain ⟨⟨hmin, -⟩, hlt⟩ := bucket_aligned h hb
  have hto := h.toUs_le
  constructor
  · intro hi
    rw [hi]
    simp only [nextBucket, saturatingAdd, minI64, maxI64, maxUs, dayUs, hourUs] at *
    omega
  · intro hi
    rw [hi]
    simp only [nextBucket, saturatingAdd, minI64, maxI64, maxUs, weekUs, dayUs, hourUs] at *
    omega

/-- A window ends with a granule, or after every instant. -/
theorem nextBucket_aligned (hb : bucket ∈ period.buckets) :
    nextBucket C bucket period.range.interval % granuleUs period.range.interval = 0 ∨
      nextBucket C bucket period.range.interval = maxI64 := by
  obtain ⟨⟨hmin, haligned⟩, hlt⟩ := bucket_aligned h hb
  have hto := h.toUs_le
  cases hi : period.range.interval with
  | hour | day | week =>
    left
    rw [hi] at haligned
    simp only [nextBucket, granuleUs, saturatingAdd, minI64, maxI64, maxUs, hourUs, dayUs, weekUs] at *
    omega
  | month =>
    rw [nextBucket]
    cases C.addMonths (dayOf bucket) 1 with
    | none => exact .inr rfl
    | some next => exact .inl (Int.mul_emod_left _ _)

/-- The coverage of a granule holds the ends of the windows that hold the instant. -/
theorem granule_covers (hb : bucket ∈ period.buckets) {days : Int} (hd : math.windowDays = some days) {ts : Int}
    (hts : ts < period.range.toUs) :
    (bucketExpr (granule period.range.interval) ts < nextBucket C bucket period.range.interval ∧
      nextBucket C bucket period.range.interval ≤ bucketExpr (granule period.range.interval) ts + days * dayUs) ↔
        counts C math period bucket ts = true := by
  have hto := h.toUs_le
  have hend := nextBucket_aligned h hb
  rw [bucketExpr_granule, counts, hd]
  simp only [decide_eq_true_eq, floorTo]
  generalize nextBucket C bucket period.range.interval = stop at *
  have hunit : granuleUs period.range.interval = 3600000000 ∨ granuleUs period.range.interval = 86400000000 := by
    cases period.range.interval <;> simp [granuleUs, hourUs, dayUs]
  simp only [maxUs, maxI64, dayUs, hourUs] at *
  rcases hunit with hunit | hunit <;> rw [hunit] at hend ⊢ <;> rcases windowDays_cases hd with rfl | rfl <;> omega

/-! The granules of the masks. -/

variable (C period) in
omit h in
theorem windowFrom_le (days : Int) : windowFrom C days period ≤ period.range.fromUs ∧
    ∀ bucket ∈ period.buckets, windowFrom C days period ≤ windowStart C days period.range.interval bucket := by
  refine ⟨min_le_right _ _, fun bucket hb => (min_le_left _ _).trans ?_⟩
  have hmem := List.mem_map_of_mem (f := windowStart C days period.range.interval) hb
  obtain ⟨least, hleast⟩ := Option.isSome_iff_exists.mp (List.isSome_min?_of_mem hmem)
  rw [hleast]
  exact (List.min?_eq_some_iff.mp hleast).2 _ hmem

/-- What fits the masks: no person property, and windows that begin and end with a granule. -/
structure Fits (C : Chrono) (keys : List String) (math : Math) (period : Period) (first loadFrom base unit : Int) : Prop where
  head : period.buckets.head? = some first
  noKeys : keys = []
  needsPerson : math.needsPerson = true
  granules : maskGranules C math period first = some (loadFrom, base, unit)
  room : max ((period.range.toUs - base + unit - 1) / unit) 1 ≤ 256
  aligned : ∀ bucket ∈ period.buckets,
    let stop := nextBucket C bucket period.range.interval
    let start := (math.windowDays.map fun days => stop - days * dayUs).getD bucket
    (start - base) % unit = 0 ∧ (stop - base) % unit = 0 ∧ base ≤ start

omit h in
theorem fits_of_maskFrom {keys : List String} {loadFrom : Int} (hm : maskFrom C keys math period = some loadFrom) :
    ∃ first base unit, Fits C keys math period first loadFrom base unit := by
  rw [maskFrom] at hm
  split at hm
  · cases hm
  rename_i first rest hbuckets
  split at hm
  · cases hm
  rename_i hkeys
  obtain ⟨⟨us, base, unit⟩, hgranules, hm⟩ := Option.bind_eq_some_iff.mp hm
  dsimp only at hm
  split at hm
  · cases hm
  rename_i hfits
  cases hm
  obtain ⟨hkeys, hperson⟩ := not_or.mp hkeys
  obtain ⟨hroom, haligned⟩ := not_or.mp hfits
  refine ⟨first, base, unit, by rw [hbuckets]; rfl, not_not.mp hkeys, not_not.mp hperson, hgranules, not_lt.mp hroom, ?_⟩
  intro bucket hb
  exact of_decide_eq_true (List.all_eq_true.mp (not_not.mp haligned) bucket hb)

/-- The instants that the masks read fall among their granules, and the span of a bucket has those that it counts. -/
structure Granules (C : Chrono) (math : Math) (period : Period) (loadFrom : Int) (granules : Nat) (index : Int → Int)
    (span : Int → Nat × Nat) : Prop where
  loadFrom_le : loadFrom ≤ period.range.fromUs
  index_lt : ∀ ts, loadFrom ≤ ts → ts < period.range.toUs → 0 ≤ index ts ∧ index ts < granules
  loaded : ∀ bucket ∈ period.buckets, ∀ ts, counts C math period bucket ts = true → loadFrom ≤ ts ∧ ts < period.range.toUs
  span : ∀ bucket ∈ period.buckets, ∀ ts, loadFrom ≤ ts → ts < period.range.toUs →
    (counts C math period bucket ts = true ↔ (span bucket).1 ≤ (index ts).toNat ∧ (index ts).toNat < (span bucket).2)

theorem Fits.bucketGranules {keys : List String} {first loadFrom base unit : Int} (hf : Fits C keys math period first loadFrom base unit)
    (hmath : math.windowDays = none) :
    Granules C math period loadFrom (max ((period.range.toUs - base + unit - 1) / unit) 1).toNat
      (fun ts => (bucketExpr period.range.interval ts - base) / unit)
      (granuleSpan C math period.range.interval base unit (max ((period.range.toUs - base + unit - 1) / unit) 1).toNat) := by
  have hgranules := hf.granules
  have hfirst := buckets_head h.buckets hf.head
  have hmem : first ∈ period.buckets := List.mem_of_mem_head? hf.head
  rw [maskGranules, hmath] at hgranules
  cases hi : period.range.interval with
  | hour | month =>
    rw [hi] at hgranules
    cases hgranules
  | day | week =>
    have hunit : ∀ bucket ∈ period.buckets, nextBucket C bucket period.range.interval = bucket + if period.range.interval = .day then dayUs else weekUs :=
      fun bucket hb => by
        first
        | simpa [hi] using (nextBucket_unit h hb).1 hi
        | simpa [hi] using (nextBucket_unit h hb).2 hi
    have hbase := hunit first hmem
    have haligned := hf.aligned
    rw [hi] at hgranules hfirst hunit hbase
    simp only [hmath, Option.map_none, Option.getD_none, hi] at haligned
    cases hgranules
    simp only [reduceCtorEq, if_true, if_false] at hunit hbase
    rw [hbase, add_sub_cancel_left] at haligned ⊢
    constructor
    · exact le_rfl
    · intro ts hts hlt
      rw [bucketExpr, floorExpr_eq (by decide)]
      simp only [trunc, floorTo, dayUs, weekUs, weekOriginUs, hourUs] at hfirst ⊢
      omega
    · intro bucket hb ts hc
      rw [counts, hmath] at hc
      exact ⟨(of_decide_eq_true hc).1, (of_decide_eq_true hc).2.1⟩
    · intro bucket hb ts hts hlt
      have hbucket := haligned bucket hb
      rw [counts, hmath, granuleSpan, hmath]
      simp only [decide_eq_true_eq, hi, Option.map_none, Option.getD_none, hunit bucket hb]
      rw [bucketExpr, floorExpr_eq (by decide)]
      simp only [trunc, floorTo, dayUs, weekUs, weekOriginUs, hourUs] at hfirst hbucket ⊢
      omega

omit h in
theorem Fits.windowGranules {keys : List String} {first loadFrom base unit : Int} (hf : Fits C keys math period first loadFrom base unit)
    {days : Int} (hmath : math.windowDays = some days) :
    Granules C math period loadFrom (max ((period.range.toUs - base + unit - 1) / unit) 1).toNat
      (fun ts => (bucketExpr .day ts - base) / unit)
      (granuleSpan C math period.range.interval base unit (max ((period.range.toUs - base + unit - 1) / unit) 1).toNat) := by
  have hgranules := hf.granules
  rw [maskGranules, hmath] at hgranules
  dsimp only at hgranules
  split at hgranules
  · cases hgranules
  obtain ⟨hle, hstart⟩ := windowFrom_le C period days
  have haligned := hf.aligned
  simp only [hmath, Option.map_some, Option.getD_some] at haligned
  cases hgranules
  generalize windowFrom C days period = loadFrom at *
  have hday : ∀ ts, bucketExpr .day ts = floorTo ts dayUs 0 := fun ts => floorExpr_eq (by decide) ts 0
  constructor
  · exact hle
  · intro ts hts hlt
    rw [hday]
    simp only [trunc, floorTo, dayUs, hourUs]
    omega
  · intro bucket hb ts hc
    have hload := hstart bucket hb
    rw [counts, hmath] at hc
    obtain ⟨hlo, hhi⟩ := of_decide_eq_true hc
    exact ⟨hload.trans hlo, hhi.trans_le (min_le_right _ _)⟩
  · intro bucket hb ts hts hlt
    have hbucket := haligned bucket hb
    rw [counts, hmath, granuleSpan, hmath, hday]
    simp only [decide_eq_true_eq, Option.map_some, Option.getD_some]
    generalize nextBucket C bucket period.range.interval = stop at *
    simp only [trunc, floorTo, dayUs, hourUs] at hbucket ⊢
    omega

end covered

/-! The persons that a value counts. -/
section persons
variable (C : Chrono) (ctx : Ctx) (q : TrendsQuery) (node : EventNode) (period : Period) (top : Option Top)

/-- Whether an event matches a series and falls in a breakdown value. -/
def matching (key : Option String) (e : Event) : Bool := predicate ctx q node e && breakdownKey ctx q top e = key

/-- The distinct persons with a matching event that the bucket counts. -/
def bucketPersons (bucket : Int) (key : Option String) : List String :=
  ((ctx.events.filter fun e => counts C node.math period bucket e.ts && matching ctx q node top key e).map ctx.person).dedup

/-- The distinct persons with a matching event in the range. -/
def rangePersons (key : Option String) : List String :=
  (((ctx.relation period.range.fromUs period.range.toUs).filter (matching ctx q node top key)).map ctx.person).dedup

variable {C ctx q node period top}

theorem matching_iff {key : Option String} {e : Event} :
    matching ctx q node top key e = true ↔ predicate ctx q node e = true ∧ breakdownKey ctx q top e = key := by
  rw [matching, Bool.and_eq_true, decide_eq_true_eq]

theorem mem_bucketPersons {bucket : Int} {key : Option String} {person : String} :
    person ∈ bucketPersons C ctx q node period top bucket key ↔ ∃ e ∈ ctx.events, counts C node.math period bucket e.ts = true ∧
      (predicate ctx q node e = true ∧ breakdownKey ctx q top e = key) ∧ ctx.person e = person := by
  rw [bucketPersons, List.mem_dedup, List.mem_map]
  simp only [List.mem_filter, Bool.and_eq_true, matching_iff, and_assoc]

theorem mem_rangePersons {key : Option String} {person : String} :
    person ∈ rangePersons ctx q node period top key ↔ ∃ e ∈ ctx.relation period.range.fromUs period.range.toUs,
      (predicate ctx q node e = true ∧ breakdownKey ctx q top e = key) ∧ ctx.person e = person := by
  rw [rangePersons, List.mem_dedup, List.mem_map]
  simp only [List.mem_filter, matching_iff, and_assoc]

theorem length_bucketPersons {bucket : Int} {key : Option String} {l : List String}
    (h : ∀ person, person ∈ l ↔ person ∈ bucketPersons C ctx q node period top bucket key) :
    l.dedup.length = (bucketPersons C ctx q node period top bucket key).length := by
  rw [length_dedup_congr h, bucketPersons, List.dedup_idem]

theorem length_rangePersons {key : Option String} {l : List String}
    (h : ∀ person, person ∈ l ↔ person ∈ rangePersons ctx q node period top key) :
    l.dedup.length = (rangePersons ctx q node period top key).length := by
  rw [length_dedup_congr h, rangePersons, List.dedup_idem]

theorem mem_relation {fromUs toUs : Int} {e : Event} : e ∈ ctx.relation fromUs toUs ↔ e ∈ ctx.events ∧ fromUs ≤ e.ts ∧ e.ts < toUs := by
  rw [Ctx.relation, List.mem_filter, decide_eq_true_eq]

end persons
end Hoglet.Query.Trends
