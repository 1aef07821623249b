import Hoglet.Explore.Totals
import Hoglet.Explore.Visits

/-! The visitors and pageviews of both paths, by period and by bucket. -/
namespace Hoglet.Explore
open Capture
open Query (Interval Chrono fromDatetime)
variable {U : Type}

section read

private theorem mapIdx_slot (slots : List Nat) : (slots.mapIdx fun _ slot => slot) = slots :=
  List.ext_getElem (by simp) (by simp)

private theorem read_persons (visits : Visits) (l : List ((Bool × List Nat) × List Seen)) :
    (l.map fun g => VisitRow.person g.1.1 g.2.length g.1.2).foldl Visits.read visits =
      { visits with
        previousVisitors := visits.previousVisitors + (l.map fun g => if g.1.1 = true then g.2.length else 0).sum
        currentVisitors := visits.currentVisitors + (l.map fun g => if g.1.2.any (· ≠ 0) = true then g.2.length else 0).sum
        visitorsSeries := visits.visitorsSeries.mapIdx fun index slot =>
          slot + (l.map fun g => if hasBit g.1.2 index = true then g.2.length else 0).sum } := by
  induction l generalizing visits with
  | nil => simp only [List.map_nil, List.foldl_nil, List.sum_nil, Nat.add_zero, mapIdx_slot]
  | cons g l ih =>
    rw [List.map_cons, List.foldl_cons, ih]
    simp only [Visits.read, List.map_cons, List.sum_cons, List.mapIdx_mapIdx, Function.comp_def, Nat.add_assoc]

/-- The slot of the bucket is still zero. -/
private def Visits.Fresh (visits : Visits) (i : Int) : Prop :=
  (i < 0 → i = -1 ∧ visits.previousPageviews = 0) ∧
    ∀ (j : Nat) (hj : j < visits.pageviewsSeries.length), i = j → visits.pageviewsSeries[j] = 0

private theorem Visits.Fresh.read {visits : Visits} {i : Int} (h : visits.Fresh i) (n : Nat) : visits.read (.bucket i n) =
    { visits with
      previousPageviews := visits.previousPageviews + if i < 0 then n else 0
      currentPageviews := visits.currentPageviews + if 0 ≤ i then n else 0
      pageviewsSeries := visits.pageviewsSeries.mapIdx fun index slot => slot + if i = (index : Int) then n else 0 } := by
  by_cases hneg : i < 0
  · have hother : ∀ index : Nat, i ≠ index := fun index => by omega
    have hread : visits.read (.bucket i n) = { visits with previousPageviews := n } := if_pos hneg
    simp only [hread, if_pos hneg, if_neg (not_le.mpr hneg), (h.1 hneg).2, hother, if_false, Nat.add_zero, Nat.zero_add, mapIdx_slot]
  · have hread : visits.read (.bucket i n) = { visits with
        currentPageviews := visits.currentPageviews + n, pageviewsSeries := visits.pageviewsSeries.set i.toNat n } := if_neg hneg
    have hset : visits.pageviewsSeries.set i.toNat n =
        visits.pageviewsSeries.mapIdx fun index slot => slot + if i = (index : Int) then n else 0 := by
      refine List.ext_getElem (by simp) fun j hj _ => ?_
      rw [List.length_set] at hj
      rw [List.getElem_set, List.getElem_mapIdx]
      by_cases hij : i = j
      · rw [if_pos (by omega), if_pos hij, h.2 j hj hij, Nat.zero_add]
      · rw [if_neg (by omega), if_neg hij, Nat.add_zero]
    simp only [hread, if_neg hneg, if_pos (not_lt.mp hneg), hset, Nat.add_zero]

/-- Every bucket is read once, into a slot that is still zero. -/
private theorem read_buckets (visits : Visits) (l : List (Int × List (Row U))) (hl : (l.map Prod.fst).Nodup)
    (hfresh : ∀ g ∈ l, visits.Fresh g.1) :
    (l.map fun g => VisitRow.bucket g.1 g.2.length).foldl Visits.read visits =
      { visits with
        previousPageviews := visits.previousPageviews + (l.map fun g => if g.1 < 0 then g.2.length else 0).sum
        currentPageviews := visits.currentPageviews + (l.map fun g => if 0 ≤ g.1 then g.2.length else 0).sum
        pageviewsSeries := visits.pageviewsSeries.mapIdx fun index slot =>
          slot + (l.map fun g => if g.1 = (index : Int) then g.2.length else 0).sum } := by
  induction l generalizing visits with
  | nil => simp only [List.map_nil, List.foldl_nil, List.sum_nil, Nat.add_zero, mapIdx_slot]
  | cons g l ih =>
    obtain ⟨hg, hl⟩ := List.nodup_cons.mp hl
    have hthis := hfresh g (List.mem_cons_self ..)
    rw [List.map_cons, List.foldl_cons, hthis.read, ih _ hl fun g' hg' => ?_]
    · simp only [List.map_cons, List.sum_cons, List.mapIdx_mapIdx, Function.comp_def, Nat.add_assoc]
    · have hne : g'.1 ≠ g.1 := fun heq => hg (heq ▸ List.mem_map_of_mem hg')
      obtain ⟨hprevious, hslots⟩ := hfresh g' (List.mem_cons_of_mem g hg')
      constructor
      · intro hneg
        obtain ⟨hone, hzero⟩ := hprevious hneg
        refine ⟨hone, ?_⟩
        have hge : ¬ g.1 < 0 := fun hlt => hne (hone.trans (hthis.1 hlt).1.symm)
        simp only [hzero, if_neg hge]
      · intro j hj heq
        simp only [List.length_mapIdx] at hj
        simp only [List.getElem_mapIdx, hslots j hj heq, if_neg fun h : g.1 = j => hne (heq.trans h.symm)]

private theorem mapIdx_zeros (n : Nat) (f : Nat → Nat) :
    ((List.replicate n 0).mapIdx fun index slot => slot + f index) = (List.range n).map f :=
  List.ext_getElem (by simp) fun j _ _ => by simp

variable {overrides : String → Option String} {plan : Plan U} {base unit : Int} {words n : Nat} {pages : List (Row U)}

/-- The persons with a pageview of a kind, and the pageviews of that kind in some order. -/
private theorem countP_persons {c : Seen → Bool} {P : Row U → Bool} {l : List (Row U)} (hl : l.Perm (pages.filter P))
    (hc : ∀ seen ∈ seenPersons overrides words (seenIds plan base unit words pages),
      c seen = true ↔ ∃ row ∈ pages, row.person overrides = seen.id ∧ P row = true) :
    (seenPersons overrides words (seenIds plan base unit words pages)).countP c = (l.map (Row.person overrides)).dedup.length := by
  rw [countP_seenPersons hc]
  exact length_dedup_congr fun k => (hl.map _).mem_iff.symm

/-- The first pass counts the persons seen and the pageviews, by period and by bucket. -/
private theorem visits_eq (hindex : ∀ row ∈ pages, bucketIndex plan base unit row < 0 → bucketIndex plan base unit row = -1) :
    (visitRows overrides plan base unit words pages).foldl Visits.read ⟨0, 0, 0, 0, List.replicate n 0, List.replicate n 0⟩ =
      ⟨(seenPersons overrides words (seenIds plan base unit words pages)).countP Seen.prev,
        (seenPersons overrides words (seenIds plan base unit words pages)).countP fun seen => seen.masks.any (· ≠ 0),
        pages.countP fun row => bucketIndex plan base unit row < 0,
        pages.countP fun row => 0 ≤ bucketIndex plan base unit row,
        (List.range n).map fun index => (seenPersons overrides words (seenIds plan base unit words pages)).countP fun seen => hasBit seen.masks index,
        (List.range n).map fun index : Nat => pages.countP fun row => bucketIndex plan base unit row = (index : Int)⟩ := by
  rw [visitRows, List.foldl_append, read_persons, read_buckets _ _ groups_nodup fun g hg => ?_]
  · rw [sum_groups_length fun i => i < 0, sum_groups_length fun i => 0 ≤ i, sum_groups_length fun k : Bool × List Nat => k.1 = true,
      sum_groups_length fun k : Bool × List Nat => k.2.any (· ≠ 0) = true]
    simp only [mapIdx_zeros, Nat.zero_add, Bool.decide_eq_true, Visits.mk.injEq, true_and]
    constructor <;> refine List.map_congr_left fun index _ => ?_
    · rw [sum_groups_length fun k : Bool × List Nat => hasBit k.2 index = true]
      simp only [Bool.decide_eq_true]
    · exact sum_groups_length fun i : Int => i = index
  · obtain ⟨⟨row, hrow, hkey⟩, -⟩ := mem_groups.mp hg
    refine ⟨fun hneg => ⟨?_, rfl⟩, fun j hj _ => by simp⟩
    rw [← hkey] at hneg ⊢
    exact hindex row hrow hneg

end read

section pages
variable (overrides : String → Option String) (plan : Plan U) (rows : List (Row U))

/-- The general SQL tags every event once. -/
private theorem tagged_perm [LinearOrder U] (w₁ : Window (Row U) Row.order) (w₂ : Window (Row U × Nat) fun m => m.1.order) :
    ((tagged overrides plan rows w₁ w₂).map Prod.fst).Perm (rows.filter plan.admits) := by
  have hnamed (l : List (Row U)) : (l.filterMap fun row => row.sessionId.map fun sessionId => (row, SessionTag.named sessionId)).map Prod.fst =
      l.filter fun row => row.sessionId.isSome := by
    induction l with
    | nil => rfl
    | cons row l ih => cases hid : row.sessionId <;> simp [hid, ih]
  have hgaps : (((sessionless overrides plan rows).flatMap fun part =>
      (runNumbers sessionGapMicros (w₁.coarsen fun _ _ h => (Prod.Lex.toLex_le_toLex'.mp h).1)
        (w₂.coarsen fun _ _ h => (Prod.Lex.toLex_le_toLex'.mp h).1) part.2).map fun m => (m.1, SessionTag.gap part.1.2 m.2)).map
          Prod.fst).Perm ((rows.filter plan.admits).filter fun row => !row.sessionId.isSome) := by
    rw [List.map_flatMap, List.filter_filter]
    have hnone : (rows.filter fun row => !row.sessionId.isSome && plan.admits row) =
        rows.filter fun row => plan.admits row && row.sessionId.isNone :=
      List.filter_congr fun row _ => by rw [Bool.and_comm, Option.not_isSome]
    rw [hnone]
    refine (List.Perm.flatMap_left _ fun part _ => ?_).trans flatMap_groups_perm
    rw [List.map_map]
    exact runNumbers_perm _ _ _ _
  rw [tagged, List.map_append, hnamed]
  exact (hgaps.append_left _).trans (List.filter_append_perm _ _)

/-- The pageviews of a period are the same in both paths. -/
private theorem pages_perm [LinearOrder U] (w₁ : Window (Row U) Row.order) (w₂ : Window (Row U × Nat) fun m => m.1.order) (period : Nat) :
    (((tagged overrides plan rows w₁ w₂).map Prod.fst).filter fun row => row.isPageview && plan.period row = period).Perm
      ((rows.filter fun row => row.isPageview && plan.admits row).filter fun row => plan.period row = period) := by
  have h := (tagged_perm overrides plan rows w₁ w₂).filter fun row => row.isPageview && decide (plan.period row = period)
  rw [List.filter_filter] at h ⊢
  refine h.trans (List.Perm.of_eq (List.filter_congr fun row _ => ?_))
  cases row.isPageview <;> simp [Bool.and_comm]

section index
variable {plan} {interval : Interval} {unit base : Int} {days : List DateTime} (hc : Covers interval unit plan.fromTime plan.toTime days base)
include hc

private theorem bucketIndex_cases {row : Row U} (h : plan.admits row = true) :
    (plan.period row = 0 ∧ bucketIndex plan base unit row = -1) ∨
      (plan.period row = 1 ∧ base ≤ row.ts ∧ bucketIndex plan base unit row = (row.ts - base) / unit ∧
        0 ≤ bucketIndex plan base unit row ∧ bucketIndex plan base unit row < days.length) := by
  have hto : row.ts < fromDatetime plan.toTime := (of_decide_eq_true h).2.1
  rw [Plan.period, bucketIndex]
  by_cases hfrom : fromDatetime plan.fromTime ≤ row.ts
  · rw [if_pos hfrom, if_pos hfrom]
    have hbase := hc.base_le.trans hfrom
    have hend := hc.covers row.ts hto
    refine .inr ⟨rfl, hbase, rfl, Int.ediv_nonneg (by omega) hc.unit_pos.le, Int.ediv_lt_of_lt_mul hc.unit_pos (by omega)⟩
  · rw [if_neg hfrom, if_neg hfrom]
    exact .inl ⟨rfl, rfl⟩

private theorem bucketIndex_eq_iff {row : Row U} (h : plan.admits row = true) {j : Nat} (hj : j < days.length) :
    bucketIndex plan base unit row = j ↔ plan.period row = 1 ∧ dateTrunc row.ts interval = fromDatetime days[j] := by
  rcases bucketIndex_cases hc h with ⟨hperiod, hindex⟩ | ⟨hperiod, hbase, hindex, -, -⟩
  · rw [hperiod, hindex]
    simp
  · rw [hc.trunc _ hbase, hc.starts j hj, hindex, hperiod, Int.add_right_inj, Int.mul_eq_mul_right_iff hc.unit_pos.ne']
    simp

variable [LinearOrder U] (w₁ : Window (Row U) Row.order) (w₂ : Window (Row U × Nat) fun m => m.1.order)

private theorem previous_perm :
    (((tagged overrides plan rows w₁ w₂).map Prod.fst).filter fun row => row.isPageview && plan.period row = 0).Perm
      ((rows.filter fun row => row.isPageview && plan.admits row).filter fun row => bucketIndex plan base unit row < 0) := by
  refine (pages_perm overrides plan rows w₁ w₂ 0).trans (List.Perm.of_eq (List.filter_congr fun row hrow => decide_eq_decide.mpr ?_))
  rcases bucketIndex_cases hc (Bool.and_eq_true_iff.mp (List.mem_filter.mp hrow).2).2 with ⟨hperiod, hindex⟩ | ⟨hperiod, -, -, hpos, -⟩ <;> omega

private theorem current_perm :
    (((tagged overrides plan rows w₁ w₂).map Prod.fst).filter fun row => row.isPageview && plan.period row = 1).Perm
      ((rows.filter fun row => row.isPageview && plan.admits row).filter fun row => 0 ≤ bucketIndex plan base unit row) := by
  refine (pages_perm overrides plan rows w₁ w₂ 1).trans (List.Perm.of_eq (List.filter_congr fun row hrow => decide_eq_decide.mpr ?_))
  rcases bucketIndex_cases hc (Bool.and_eq_true_iff.mp (List.mem_filter.mp hrow).2).2 with ⟨hperiod, hindex⟩ | ⟨hperiod, -, -, hpos, -⟩ <;> omega

private theorem bucket_perm {j : Nat} (hj : j < days.length) :
    ((((tagged overrides plan rows w₁ w₂).map Prod.fst).filter fun row => row.isPageview && plan.period row = 1).filter fun row =>
      dateTrunc row.ts interval = fromDatetime days[j]).Perm
      ((rows.filter fun row => row.isPageview && plan.admits row).filter fun row => bucketIndex plan base unit row = j) := by
  refine ((pages_perm overrides plan rows w₁ w₂ 1).filter _).trans (List.Perm.of_eq ?_)
  rw [List.filter_filter]
  refine List.filter_congr fun row hrow => ?_
  rw [Bool.eq_iff_iff, Bool.and_eq_true, decide_eq_true_eq, decide_eq_true_eq, decide_eq_true_eq, and_comm,
    bucketIndex_eq_iff hc (Bool.and_eq_true_iff.mp (List.mem_filter.mp hrow).2).2 hj]

/-- The first pass finds the visitors and pageviews of the general SQL. -/
theorem visits_agree (words : Nat) (hwords : days.length ≤ 64 * words) :
    (visitRows overrides plan base unit words (rows.filter fun row => row.isPageview && plan.admits row)).foldl Visits.read
      ⟨0, 0, 0, 0, List.replicate days.length 0, List.replicate days.length 0⟩ =
      ⟨(generalStats overrides plan rows w₁ w₂ 0).visitors, (generalStats overrides plan rows w₁ w₂ 1).visitors,
        (generalStats overrides plan rows w₁ w₂ 0).pageviews, (generalStats overrides plan rows w₁ w₂ 1).pageviews,
        (overview overrides plan rows w₁ w₂ interval days).visitorsSeries,
        (overview overrides plan rows w₁ w₂ interval days).pageviewsSeries⟩ := by
  have hprevious := previous_perm overrides rows hc w₁ w₂
  have hcurrent := current_perm overrides rows hc w₁ w₂
  have hbucket (j : Nat) (hj : j < days.length) := bucket_perm overrides rows hc w₁ w₂ hj
  have hcases : ∀ row ∈ rows.filter fun row => row.isPageview && plan.admits row, bucketIndex plan base unit row = -1 ∨
      0 ≤ bucketIndex plan base unit row ∧ bucketIndex plan base unit row < days.length := fun row hrow => by
    rcases bucketIndex_cases hc (Bool.and_eq_true_iff.mp (List.mem_filter.mp hrow).2).2 with ⟨-, h⟩ | ⟨-, -, -, h⟩
    · exact .inl h
    · exact .inr h
  generalize hpages : (rows.filter fun row => row.isPageview && plan.admits row) = pages at hprevious hcurrent hbucket hcases ⊢
  rw [visits_eq fun row hrow hneg => by rcases hcases row hrow with h | h <;> omega, Visits.mk.injEq]
  refine ⟨?_, ?_, ?_, ?_, ?_, ?_⟩
  · refine countP_persons hprevious fun seen hs => (seenPersons_of hs).prev.trans ?_
    simp only [decide_eq_true_eq, and_assoc]
  · refine countP_persons hcurrent fun seen hs => (seenPersons_of hs).any_ne_zero.trans ?_
    simp only [decide_eq_true_eq, and_assoc]
    refine exists_congr fun row => and_congr_right fun hrow => and_congr_right fun _ => ⟨And.left, fun hpos => ⟨hpos, ?_⟩⟩
    rcases hcases row hrow with h | h <;> omega
  · exact (List.countP_eq_length_filter).trans hprevious.length_eq.symm
  · exact (List.countP_eq_length_filter).trans hcurrent.length_eq.symm
  · refine List.ext_getElem (by simp [overview]) fun j hj _ => ?_
    rw [List.length_map, List.length_range] at hj
    simp only [overview, List.getElem_map, List.getElem_range]
    refine countP_persons (hbucket j hj) fun seen hs => ((seenPersons_of hs).hasBit (by omega)).trans ?_
    simp only [decide_eq_true_eq, and_assoc]
  · refine List.ext_getElem (by simp [overview]) fun j hj _ => ?_
    rw [List.length_map, List.length_range] at hj
    simp only [overview, List.getElem_map, List.getElem_range]
    exact (List.countP_eq_length_filter).trans (hbucket j hj).length_eq.symm

end index

end pages
end Hoglet.Explore
