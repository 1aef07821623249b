import Hoglet.Groups
import Hoglet.Query.Funnels.Cells

/-! The breakdown buckets of a funnel are a partition of its persons, unless a real `$$_other` ranks among the top values while
others fold into the bucket of that name. -/
namespace Hoglet.Query.Funnels
variable {q : FunnelsQuery} {mapOrder : MapOrder} {outcomes : List PersonOutcome}

def countAt (steps : List FunnelStepResult) (step : Nat) : Nat := (steps[step]?.map FunnelStepResult.count).getD 0

/-- The listed values are distinct and at most one more than the limit; every person is in one of their buckets, and the counts
of the buckets add up. -/
structure Buckets (q : FunnelsQuery) (limit : Nat) (persons : List PersonOutcome) (result : FunnelsResult) : Prop where
  distinct : (result.breakdowns.map FunnelBreakdownResult.breakdownValue).Nodup
  length_le : result.breakdowns.length ≤ limit + 1
  one : ∀ p ∈ persons, result.breakdowns.countP (fun b => p.breakdown = some b.breakdownValue) = 1
  sum : ∀ step < q.series.length, (result.breakdowns.map fun b => countAt b.steps step).sum = countAt result.steps step

/-- Whether a value ranks before another. -/
def ranksBefore (outcomes : List PersonOutcome) (v w : String) : Bool :=
  (texts outcomes).count w < (texts outcomes).count v ∨ (texts outcomes).count v = (texts outcomes).count w ∧ v < w

/-- More values than the limit, and `$$_other` is one of them, with fewer than the limit before it. -/
def OtherOnTop (limit : Nat) (outcomes : List PersonOutcome) : Prop :=
  limit < (texts outcomes).dedup.length ∧ breakdownOther ∈ texts outcomes ∧
    ((texts outcomes).dedup.filter fun v => ranksBefore outcomes v breakdownOther).length < limit

instance (limit : Nat) (outcomes : List PersonOutcome) : Decidable (OtherOnTop limit outcomes) :=
  inferInstanceAs (Decidable (_ ∧ _ ∧ _))

/-! The top values. -/

private theorem ranksBefore_asymm (v w : String) (h : ranksBefore outcomes v w = true) : ranksBefore outcomes w v = false := by
  simp only [ranksBefore, decide_eq_true_eq] at h
  rw [ranksBefore, decide_eq_false_iff_not]
  rintro (hlt | ⟨heq, hlt⟩)
  · rcases h with h | ⟨h, -⟩ <;> omega
  · rcases h with h | ⟨-, h⟩
    · omega
    · exact absurd hlt h.asymm

/-- The values by rank. -/
theorem ranking_keys (mapOrder : MapOrder) (outcomes : List PersonOutcome) :
    ((ranking mapOrder outcomes).map Prod.fst).Perm (texts outcomes).dedup ∧
      ((ranking mapOrder outcomes).map Prod.fst).Pairwise fun v w => ranksBefore outcomes v w = true := by
  obtain ⟨keys, hnodup, hmem, heq⟩ := ranking_eq mapOrder outcomes
  have hkeys : (ranking mapOrder outcomes).map Prod.fst = keys := by
    rw [heq, List.map_map]
    exact List.map_id _
  rw [hkeys]
  constructor
  · rw [List.perm_ext_iff_of_nodup hnodup (List.nodup_dedup _)]
    intro v
    rw [hmem, List.mem_dedup]
  · have hsorted := ranking_sorted mapOrder outcomes
    rw [heq, List.pairwise_map] at hsorted
    refine (hsorted.and hnodup).imp fun {v w} hvw => ?_
    obtain ⟨hle, hne⟩ := hvw
    rw [ranksBefore, decide_eq_true_eq]
    rcases of_decide_eq_true hle with hlt | ⟨hcount, hle⟩
    · exact .inl hlt
    · exact .inr ⟨hcount, lt_of_le_of_ne hle hne⟩

theorem topValues_eq (limit : Nat) : topValues mapOrder limit outcomes = ((ranking mapOrder outcomes).map Prod.fst).take limit :=
  List.map_take ..

theorem other_mem_topValues (mapOrder : MapOrder) {limit : Nat} : breakdownOther ∈ topValues mapOrder limit outcomes ↔
    breakdownOther ∈ texts outcomes ∧ ((texts outcomes).dedup.filter fun v => ranksBefore outcomes v breakdownOther).length < limit := by
  obtain ⟨hperm, hsorted⟩ := ranking_keys mapOrder outcomes
  have hmem : breakdownOther ∈ (ranking mapOrder outcomes).map Prod.fst ↔ breakdownOther ∈ texts outcomes :=
    hperm.mem_iff.trans List.mem_dedup
  rw [topValues_eq]
  constructor
  · intro h
    have hin := List.mem_of_mem_take h
    rw [mem_take_iff ranksBefore_asymm hsorted hin, (hperm.filter _).length_eq] at h
    exact ⟨hmem.mp hin, h⟩
  · rintro ⟨hin, h⟩
    rw [mem_take_iff ranksBefore_asymm hsorted (hmem.mpr hin), (hperm.filter _).length_eq]
    exact h

private theorem ranking_length (mapOrder : MapOrder) : (ranking mapOrder outcomes).length = (texts outcomes).dedup.length := by
  rw [← (ranking_keys mapOrder outcomes).1.length_eq, List.length_map]

private theorem topValues_nodup {limit : Nat} : (topValues mapOrder limit outcomes).Nodup := by
  obtain ⟨hperm, -⟩ := ranking_keys mapOrder outcomes
  rw [topValues_eq]
  exact (hperm.nodup_iff.mpr (List.nodup_dedup _)).sublist (List.take_sublist _ _)

/-! The listed values. -/
section listed
variable {breakdown : Breakdown} (hq : q.breakdown = some breakdown)
include hq

theorem values_nodup_iff (mapOrder : MapOrder) : (assignBreakdowns mapOrder q outcomes).1.Nodup ↔ ¬ OtherOnTop breakdown.limit outcomes := by
  rw [assignBreakdowns_some hq, OtherOnTop, ← other_mem_topValues mapOrder, ← ranking_length mapOrder]
  dsimp only
  split_ifs with hmore
  · have hdisjoint : (∀ v ∈ topValues mapOrder breakdown.limit outcomes, ∀ w ∈ [breakdownOther], v ≠ w) ↔
        breakdownOther ∉ topValues mapOrder breakdown.limit outcomes := by
      constructor
      · exact fun h hmem => h _ hmem _ (List.mem_singleton_self _) rfl
      · rintro h v hv w hw rfl
        exact h (List.mem_singleton.mp hw ▸ hv)
    rw [List.nodup_append, hdisjoint]
    simp [topValues_nodup, hmore]
  · simp [topValues_nodup, hmore]

theorem values_length_le (mapOrder : MapOrder) (outcomes : List PersonOutcome) : (assignBreakdowns mapOrder q outcomes).1.length ≤ breakdown.limit + 1 := by
  have htop : (topValues mapOrder breakdown.limit outcomes).length ≤ breakdown.limit := by
    rw [topValues, List.length_map]
    exact List.length_take_le _ _
  rw [assignBreakdowns_some hq]
  dsimp only
  split_ifs
  · rw [List.length_append, List.length_singleton]
    omega
  · omega

/-- Every person is in a listed bucket. -/
theorem mem_values {p : PersonOutcome} (hp : p ∈ (assignBreakdowns mapOrder q outcomes).2) :
    ∃ v ∈ (assignBreakdowns mapOrder q outcomes).1, p.breakdown = some v := by
  rw [assignBreakdowns_some hq] at hp ⊢
  obtain ⟨outcome, houtcome, rfl⟩ := List.mem_map.mp hp
  refine ⟨_, ?_, rfl⟩
  rw [bucket]
  dsimp only
  by_cases htop : outcome.breakdown.getD breakdownNone ∈ topValues mapOrder breakdown.limit outcomes
  · rw [if_pos (List.contains_iff_mem.mpr htop)]
    split_ifs
    · exact List.mem_append_left _ htop
    · exact htop
  · rw [if_neg fun h => htop (List.contains_iff_mem.mp h)]
    split_ifs with hmore
    · exact List.mem_append_right _ (List.mem_singleton_self _)
    · -- all the values are listed
      exfalso
      apply htop
      rw [topValues_eq, List.take_of_length_le (by rw [List.length_map]; exact not_lt.mp hmore),
        (ranking_keys mapOrder outcomes).1.mem_iff, List.mem_dedup]
      exact List.mem_map.mpr ⟨outcome, houtcome, rfl⟩

private theorem buckets_of_nodup (h : (assignBreakdowns mapOrder q outcomes).1.Nodup) {result : FunnelsResult}
    (hrun : run mapOrder q outcomes = some result) : Buckets q breakdown.limit (assignBreakdowns mapOrder q outcomes).2 result := by
  obtain ⟨durations, heq⟩ := run_eq mapOrder q outcomes
  rw [heq] at hrun
  cases hrun
  have hlen := values_length_le hq mapOrder outcomes
  have hmem : ∀ p ∈ (assignBreakdowns mapOrder q outcomes).2, ∃ v ∈ (assignBreakdowns mapOrder q outcomes).1, p.breakdown = some v :=
    fun p => mem_values hq
  generalize (assignBreakdowns mapOrder q outcomes).1 = values at h hlen hmem ⊢
  generalize (assignBreakdowns mapOrder q outcomes).2 = persons at hmem ⊢
  refine ⟨?_, ?_, fun p hp => ?_, fun step hstep => ?_⟩
  · dsimp only
    rw [List.map_map]
    exact (List.map_id values).symm ▸ h
  · rwa [List.length_map]
  · obtain ⟨v, hv, hbreakdown⟩ := hmem p hp
    rw [List.countP_map, hbreakdown, ← List.count_eq_one_of_mem h hv, List.count_eq_countP]
    apply List.countP_congr
    intro w _
    simp only [Function.comp_apply, decide_eq_true_eq, Option.some.injEq, beq_iff_eq]
    exact eq_comm
  · have hat : ∀ persons, countAt (stepsOf q persons) step = reached persons step := fun persons => by
      simp [countAt, stepsOf, hstep]
    have hcells : values.Pairwise fun v w => ∀ p ∈ persons, (p.breakdown = some v && step < p.times.length : Bool) = true →
        (p.breakdown = some w && step < p.times.length : Bool) = false := by
      refine h.imp fun {v w} hne p _ hp => ?_
      have hv := of_decide_eq_true (Bool.and_eq_true_iff.mp hp).1
      rw [decide_eq_false fun hw : p.breakdown = some w => hne (Option.some.inj (hv.symm.trans hw)), Bool.false_and]
    have hsum := countP_cells hcells
    dsimp only
    rw [List.map_map, hat]
    calc (values.map ((fun b : FunnelBreakdownResult => countAt b.steps step) ∘ fun value =>
            ⟨value, stepsOf q (persons.filter fun p => p.breakdown = some value)⟩)).sum
        = (values.map fun v => persons.countP fun p => p.breakdown = some v && step < p.times.length).sum := by
          congr 1
          apply List.map_congr_left
          intro v _
          rw [Function.comp_apply, hat, reached, List.countP_filter]
          apply List.countP_congr
          intro p _
          simp [and_comm]
      _ = _ := hsum
      _ = reached persons step := by
          apply List.countP_congr
          intro p hp
          obtain ⟨v, hv, hbreakdown⟩ := hmem p hp
          simp [hbreakdown, hv]

private theorem not_otherOnTop {result : FunnelsResult} (hrun : run mapOrder q outcomes = some result) {limit : Nat}
    {persons : List PersonOutcome} (h : Buckets q limit persons result) : ¬ OtherOnTop breakdown.limit outcomes := by
  obtain ⟨durations, heq⟩ := run_eq mapOrder q outcomes
  rw [heq] at hrun
  cases hrun
  have hdistinct := h.distinct
  dsimp only at hdistinct
  rw [List.map_map] at hdistinct
  rw [← values_nodup_iff hq mapOrder]
  exact List.map_id (assignBreakdowns mapOrder q outcomes).1 ▸ hdistinct

/-- The buckets are a partition exactly when no real `$$_other` is on top of more values than the limit. -/
theorem buckets_iff : (∃ result, run mapOrder q outcomes = some result ∧
    Buckets q breakdown.limit (assignBreakdowns mapOrder q outcomes).2 result) ↔ ¬ OtherOnTop breakdown.limit outcomes := by
  constructor
  · rintro ⟨result, hrun, h⟩
    exact not_otherOnTop hq hrun h
  · intro h
    obtain ⟨durations, heq⟩ := run_eq mapOrder q outcomes
    exact ⟨_, heq, buckets_of_nodup hq ((values_nodup_iff hq mapOrder).mpr h) heq⟩

end listed

theorem missing_buckets : ∃ result, run mapOrderKept (paidQuery 1) [⟨"p", [0, 1], none⟩, ⟨"r", [0], some "a"⟩] = some result ∧
    Buckets (paidQuery 1) 1 (assignBreakdowns mapOrderKept (paidQuery 1) [⟨"p", [0, 1], none⟩, ⟨"r", [0], some "a"⟩]).2 result :=
  (buckets_iff (q := paidQuery 1) rfl).mpr fun h => absurd h.2.1 (by decide)

/-- Two persons with a real `$$_other` and one with another value: `$$_other` is listed twice. -/
theorem other_listed_twice : ¬ ∃ result, run mapOrderKept (paidQuery 1)
    [⟨"p", [0, 1], some "$$_other"⟩, ⟨"r", [0], some "$$_other"⟩, ⟨"s", [0], some "a"⟩] = some result ∧
      Buckets (paidQuery 1) 1 (assignBreakdowns mapOrderKept (paidQuery 1)
        [⟨"p", [0, 1], some "$$_other"⟩, ⟨"r", [0], some "$$_other"⟩, ⟨"s", [0], some "a"⟩]).2 result := by
  rintro ⟨result, hrun, h⟩
  exact not_otherOnTop (q := paidQuery 1) rfl hrun h (by decide)

end Hoglet.Query.Funnels
