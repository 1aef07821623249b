import Hoglet.Query.Aligned
import Hoglet.Query.Trends.Answer
import Hoglet.Rollup

/-! Stickiness: how many persons were active in exactly one, two or more buckets of the range. -/
namespace Hoglet.Query.Stickiness
open Capture
open Trends (Ctx Event bucketExpr eventMatch)

def maxInternalRows : Nat := 5000000

structure StickinessQuery where
  series : List Trends.EventNode
  dateRange : DateRange
  interval : Interval
  properties : List Trends.Filter

structure StickinessSeries where
  seriesIndex : Nat
  data : List Nat
  labels : List String
  deriving DecidableEq, Repr

/-- What the plan of a query depends on. -/
def StickinessQuery.planned (q : StickinessQuery) : Query.StickinessQuery :=
  ⟨q.series.map fun node => ⟨node.properties.map Trends.Filter.toPropertyFilter, node.math⟩, q.dateRange, q.interval⟩

def unit : Interval → String
  | .hour => "hour"
  | .day => "day"
  | .week => "week"
  | .month => "month"

inductive Failure where
  | refused (error : QueryError)
  | tooLarge (message : String)
  deriving DecidableEq

/-- The rows of a query, of which there may be too many. -/
def rows {α : Type} (rows : List α) : Except Failure (List α) :=
  if maxInternalRows < rows.length then
    .error (.tooLarge "the query produced too many intermediate rows; narrow the date range or filters")
  else .ok rows

/-- The person counts go to the places of their numbers of buckets. -/
def place (data : List Nat) (row : Nat × Nat) : List Nat := if 1 ≤ row.1 then data.set (row.1 - 1) row.2 else data

section stickiness
variable (C : Chrono) (ctx : Ctx) (q : StickinessQuery) (range : ResolvedRange)

def predicate (node : Trends.EventNode) (e : Event) : Bool :=
  eventMatch node e && ctx.filters node.properties e && ctx.filters q.properties e

/-- Each person with the number of buckets that have an event of theirs. -/
def perPerson (node : Trends.EventNode) : List (String × Nat) :=
  (groups ctx.person ((ctx.relation range.fromUs range.toUs).filter (predicate ctx q node))).map fun g =>
    (g.1, (g.2.map fun e => bucketExpr range.interval e.ts).dedup.length)

/-- The texts of the series are left out. -/
def runSeries (intervals : Nat) (index : Nat) (node : Trends.EventNode) : Except Failure StickinessSeries := do
  let counts ← rows (ctx.arrange ((groups Prod.snd (perPerson ctx q range node)).map fun g => (g.1, g.2.length)))
  return ⟨index, counts.foldl place (List.replicate intervals 0),
    (List.range intervals).map fun n => toString (n + 1) ++ " " ++ unit range.interval ++ if n + 1 = 1 then "" else "s"⟩

def run : Except Failure (List StickinessSeries) := do
  let intervals := (← (range.buckets C).mapError .refused).length
  q.series.zipIdx.mapM fun node => runSeries ctx q range intervals node.2 node.1

def actors (seriesIndex intervals : Nat) : Except Failure (List String) :=
  match q.series[seriesIndex]? with
  | none => .error (.refused (.invalid "series_index is out of range"))
  | some node => rows ((((perPerson ctx q range node).filter (·.2 = intervals)).map Prod.fst).insertionSort (· ≤ ·))

end stickiness

section bars
variable {C : Chrono} {ctx : Ctx} {q : StickinessQuery} {range : ResolvedRange} {buckets : List Int} {node : Trends.EventNode}

/-- The buckets in which a person has a matching event of the range. -/
def activeIn (C : Chrono) (ctx : Ctx) (q : StickinessQuery) (range : ResolvedRange) (buckets : List Int) (node : Trends.EventNode)
    (person : String) : List Int :=
  buckets.filter fun b => ∃ e ∈ ctx.events, predicate ctx q node e = true ∧ ctx.person e = person ∧
    (range.fromUs ≤ e.ts ∧ e.ts < range.toUs) ∧ b ≤ e.ts ∧ e.ts < nextBucket C b range.interval

theorem mem_activeIn {person : String} {b : Int} : b ∈ activeIn C ctx q range buckets node person ↔ b ∈ buckets ∧
    ∃ e ∈ ctx.events, predicate ctx q node e = true ∧ ctx.person e = person ∧ (range.fromUs ≤ e.ts ∧ e.ts < range.toUs) ∧
      b ≤ e.ts ∧ e.ts < nextBucket C b range.interval := by
  unfold activeIn
  rw [List.mem_filter, decide_eq_true_eq]

private theorem mem_matching {e : Event} : e ∈ (ctx.relation range.fromUs range.toUs).filter (predicate ctx q node) ↔
    e ∈ ctx.events ∧ (range.fromUs ≤ e.ts ∧ e.ts < range.toUs) ∧ predicate ctx q node e = true := by
  rw [List.mem_filter, Ctx.relation, List.mem_filter, decide_eq_true_eq, and_assoc]

theorem perPerson_nodup : ((perPerson ctx q range node).map Prod.fst).Nodup := by
  rw [perPerson, List.map_map]
  exact groups_nodup

variable (hC : C.Gregorian) (hb : range.buckets C = .ok buckets) (hmin : minUs ≤ range.fromUs) (hmax : range.toUs ≤ maxUs + 1)
include hC hb hmin hmax

/-- The distinct buckets of a person's events are those the person was active in. -/
theorem distinct_buckets (person : String) : ((((ctx.relation range.fromUs range.toUs).filter (predicate ctx q node)).filter
      (ctx.person · = person)).map fun e => bucketExpr range.interval e.ts).dedup.Perm (activeIn C ctx q range buckets node person) := by
  have htiled := rangeTiled hC hb hmin hmax
  have hnamed : ∀ us, range.fromUs ≤ us → us < range.toUs → bucketExpr range.interval us = trunc C us range.interval := fun us hfrom hto =>
    (trunc_eq_bucketExpr hC (hmin.trans hfrom) (by omega) range.interval).symm
  have hnodup : (activeIn C ctx q range buckets node person).Nodup := (htiled.sorted.imp fun h => h.ne).filter _
  refine (List.perm_ext_iff_of_nodup (List.nodup_dedup _) hnodup).mpr fun b => ?_
  rw [List.mem_dedup, List.mem_map, mem_activeIn]
  constructor
  · rintro ⟨e, he, rfl⟩
    obtain ⟨he, hperson⟩ := List.mem_filter.mp he
    obtain ⟨hevent, hrange, hpred⟩ := mem_matching.mp he
    obtain ⟨b, ⟨hbucket, hle, hlt⟩, -⟩ := htiled.covers e.ts hrange.1 hrange.2
    rw [hnamed e.ts hrange.1 hrange.2, htiled.named e.ts hrange.1 hrange.2 b hbucket hle hlt]
    exact ⟨hbucket, e, hevent, hpred, of_decide_eq_true hperson, hrange, hle, hlt⟩
  · rintro ⟨hbucket, e, hevent, hpred, hperson, hrange, hle, hlt⟩
    refine ⟨e, List.mem_filter.mpr ⟨mem_matching.mpr ⟨hevent, hrange, hpred⟩, decide_eq_true hperson⟩, ?_⟩
    rw [hnamed e.ts hrange.1 hrange.2, htiled.named e.ts hrange.1 hrange.2 b hbucket hle hlt]

/-- Exactly the persons active in some bucket have a row, with the number of buckets. -/
theorem mem_perPerson {person : String} {n : Nat} : (person, n) ∈ perPerson ctx q range node ↔
    n = (activeIn C ctx q range buckets node person).length ∧ activeIn C ctx q range buckets node person ≠ [] := by
  have hperm : ((((ctx.relation range.fromUs range.toUs).filter (predicate ctx q node)).filter (ctx.person · = person)).map
      fun e => bucketExpr range.interval e.ts).dedup.Perm (activeIn C ctx q range buckets node person) := distinct_buckets hC hb hmin hmax person
  rw [perPerson, List.mem_map]
  constructor
  · rintro ⟨g, hg, heq⟩
    obtain ⟨⟨e, he, hkey⟩, hrows⟩ := mem_groups.mp hg
    obtain ⟨rfl, rfl⟩ := Prod.mk.inj heq
    rw [hrows, hperm.length_eq]
    refine ⟨rfl, fun hnil => ?_⟩
    rw [hnil, List.perm_nil, List.dedup_eq_nil, List.map_eq_nil_iff, List.filter_eq_nil_iff] at hperm
    exact hperm e he (decide_eq_true hkey)
  · rintro ⟨rfl, hne⟩
    obtain ⟨b, hmem⟩ := List.exists_mem_of_ne_nil _ fun hnil => hne (List.nil_perm.mp (hnil ▸ hperm))
    obtain ⟨e, he, -⟩ := List.mem_map.mp (List.mem_dedup.mp hmem)
    obtain ⟨he, hperson⟩ := List.mem_filter.mp he
    obtain ⟨g, hg, hkey⟩ : ∃ g ∈ groups ctx.person ((ctx.relation range.fromUs range.toUs).filter (predicate ctx q node)),
        g.1 = ctx.person e := exists_group he
    have hkey := hkey.trans (of_decide_eq_true hperson)
    refine ⟨g, hg, Prod.ext hkey ?_⟩
    rw [(mem_groups.mp hg).2, hkey, hperm.length_eq]

theorem bars_within : ∀ row ∈ perPerson ctx q range node, 1 ≤ row.2 ∧ row.2 ≤ buckets.length := by
  intro row hrow
  obtain ⟨hn, hne⟩ := (mem_perPerson hC hb hmin hmax).mp hrow
  have hpos := List.length_pos_iff.mpr hne
  have hle : (activeIn C ctx q range buckets node row.1).length ≤ buckets.length := List.length_filter_le _ _
  omega

end bars

private theorem length_place (data : List Nat) (row : Nat × Nat) : (place data row).length = data.length := by
  rw [place]
  split
  · exact List.length_set
  · rfl

private theorem getElem?_place (data : List Nat) (row : Nat × Nat) {i : Nat} (hi : i < data.length) :
    (place data row)[i]? = if row.1 = i + 1 then some row.2 else data[i]? := by
  rw [place]
  by_cases heq : row.1 = i + 1
  · rw [if_pos (by omega), heq, Nat.add_sub_cancel, if_pos rfl, List.getElem?_set_self hi]
  · rw [if_neg heq]
    split
    · rw [List.getElem?_set_ne (by omega)]
    · rfl

/-- With one row for each number, its count stands at the number's place. -/
private theorem getElem?_foldl_place {counts : List (Nat × Nat)} (hunique : (counts.map Prod.fst).Nodup) (data : List Nat) {i : Nat}
    (hi : i < data.length) : (counts.foldl place data)[i]? = ((lookupRow counts (i + 1)).or data[i]?) := by
  induction counts generalizing data with
  | nil => rfl
  | cons row counts ih =>
    obtain ⟨hnew, hunique⟩ := List.nodup_cons.mp hunique
    rw [List.foldl_cons, ih hunique _ (by rwa [length_place]), getElem?_place data row hi, lookupRow, lookupRow, List.lookup_cons]
    by_cases heq : row.1 = i + 1
    · have hnone : counts.lookup (i + 1) = none := lookupRow_eq_none (heq ▸ hnew)
      rw [if_pos heq, hnone, heq, beq_self_eq_true]
      rfl
    · rw [if_neg heq, beq_eq_false_iff_ne.mpr (Ne.symm heq)]

private theorem length_foldl_place (counts : List (Nat × Nat)) (data : List Nat) : (counts.foldl place data).length = data.length := by
  induction counts generalizing data with
  | nil => rfl
  | cons row counts ih => rw [List.foldl_cons, ih, length_place]

/-- The rows' numbers go to the places from one to `m`. -/
private theorem sum_fibers {α : Type} (l : List α) (f : α → Nat) (m : Nat) (h : ∀ a ∈ l, 1 ≤ f a ∧ f a ≤ m) :
    ((List.range m).map fun i => (l.filter (f · = i + 1)).length).sum = l.length := by
  have hsum : ∀ g : Nat → Nat, ((List.range m).map g).sum = ∑ i ∈ Finset.range m, g i := fun g => rfl
  rw [hsum]
  induction l with
  | nil => simp
  | cons a l ih =>
    have hone : (∑ i ∈ Finset.range m, if f a = i + 1 then 1 else 0) = 1 := by
      have ha := h a List.mem_cons_self
      rw [Finset.sum_eq_single (f a - 1)]
      · exact if_pos (by omega)
      · exact fun i _ hne => if_neg (by omega)
      · exact fun hnot => absurd (Finset.mem_range.mpr (by omega)) hnot
    have hstep : ∀ i, ((a :: l).filter (f · = i + 1)).length = (if f a = i + 1 then 1 else 0) + (l.filter (f · = i + 1)).length := by
      intro i
      by_cases hk : f a = i + 1
      · simp [hk, Nat.add_comm]
      · simp [hk]
    simp only [hstep]
    rw [Finset.sum_add_distrib, hone, ih fun b hb => h b (List.mem_cons_of_mem a hb), List.length_cons, Nat.add_comm]

/-- What the bars of a series show: each the number of persons active in just so many buckets, who are listed by
`actors`, and all of them together the persons active at all. -/
structure Bars (C : Chrono) (ctx : Ctx) (q : StickinessQuery) (range : ResolvedRange) (buckets : List Int) (index : Nat) (node : Trends.EventNode)
    (data : List Nat) : Prop where
  length : data.length = buckets.length
  bar : ∀ n value, data[n]? = some value → ∃ persons : List String, persons.Nodup ∧ persons.Pairwise (· ≤ ·) ∧ value = persons.length ∧
    (∀ person, person ∈ persons ↔ (activeIn C ctx q range buckets node person).length = n + 1) ∧
    actors ctx q range index (n + 1) = rows persons
  total : ∃ persons : List String, persons.Nodup ∧ (∀ person, person ∈ persons ↔ activeIn C ctx q range buckets node person ≠ []) ∧
    data.sum = persons.length

section answer
variable {C : Chrono} {ctx : Ctx} {q : StickinessQuery} {range : ResolvedRange} {buckets : List Int} {node : Trends.EventNode}

/-- The bars are the numbers of persons with each number of buckets. -/
theorem data_eq {counts : List (Nat × Nat)} (hcounts : counts.Perm ((groups Prod.snd (perPerson ctx q range node)).map fun g => (g.1, g.2.length)))
    (m : Nat) : counts.foldl place (List.replicate m 0) = (List.range m).map fun i => ((perPerson ctx q range node).filter (·.2 = i + 1)).length := by
  have hkeys : ((groups Prod.snd (perPerson ctx q range node)).map fun g => (g.1, g.2.length)).map Prod.fst =
      (groups Prod.snd (perPerson ctx q range node)).map Prod.fst := by rw [List.map_map]; rfl
  have hunique : (counts.map Prod.fst).Nodup := (hcounts.map Prod.fst).nodup_iff.mpr (hkeys ▸ groups_nodup)
  refine List.ext_getElem? fun i => ?_
  by_cases hi : i < m
  · have hlength : ((perPerson ctx q range node).filter (·.2 = i + 1)).length = (lookupRow counts (i + 1)).getD 0 := by
      cases hlookup : lookupRow counts (i + 1) with
      | some c =>
        have hmem : (i + 1, c) ∈ counts := (Table.get_eq_some (t := ⟨counts, hunique⟩)).mp hlookup
        obtain ⟨g, hg, heq⟩ := List.mem_map.mp (hcounts.mem_iff.mp hmem)
        obtain ⟨hkey, rfl⟩ := Prod.mk.inj heq
        rw [Option.getD_some, (mem_groups.mp hg).2, hkey]
      | none =>
        rw [Option.getD_none, List.length_eq_zero_iff, List.filter_eq_nil_iff]
        intro row hrow heq
        obtain ⟨g, hg, hkey⟩ : ∃ g ∈ groups Prod.snd (perPerson ctx q range node), g.1 = row.2 := exists_group hrow
        have hmem : (i + 1, g.2.length) ∈ counts := hcounts.mem_iff.mpr (List.mem_map.mpr ⟨g, hg, by rw [hkey, of_decide_eq_true heq]⟩)
        have hsome : lookupRow counts (i + 1) = some g.2.length := (Table.get_eq_some (t := ⟨counts, hunique⟩)).mpr hmem
        rw [hlookup] at hsome
        cases hsome
    rw [getElem?_foldl_place hunique _ (by simpa using hi), List.getElem?_map, List.getElem?_range hi, Option.map_some, hlength,
      List.getElem?_replicate, if_pos hi]
    cases lookupRow counts (i + 1) <;> rfl
  · rw [List.getElem?_eq_none (by simpa [length_foldl_place] using hi), List.getElem?_eq_none (by simpa using hi)]

/-- Every answered series shows the bars of its node, the persons of a bar sorted: nobody who was active is missing
or counted twice. -/
theorem run_bars (hC : C.Gregorian) {now : DateTime} {first : Except QueryError (Option Int)} (hfirst : ∀ us, first = .ok (some us) → minUs ≤ us)
    (hplan : prepare C now first (.stickiness q.planned) = .ok (.stickiness range)) {series : List StickinessSeries}
    (h : run C ctx q range = .ok series) : ∃ buckets, range.buckets C = .ok buckets ∧ series.length = q.series.length ∧
      ∀ index node, q.series[index]? = some node → ∃ s, series[index]? = some s ∧ s.seriesIndex = index ∧ s.labels.length = buckets.length ∧
        Bars C ctx q range buckets index node s.data := by
  obtain ⟨resolved, hrange, hplan⟩ := bind_ok.mp hplan
  obtain ⟨period, hperiod, hplan⟩ := bind_ok.mp hplan
  obtain ⟨hsame, -⟩ := ResolvedRange.period_ok hperiod
  cases hplan
  rw [hsame] at h ⊢
  have hmax := (resolve_within hrange).2
  have hmin := (resolve_from hfirst hrange).1
  obtain ⟨buckets, hbuckets, h⟩ := bind_ok.mp h
  have hb := mapError_ok.mp hbuckets
  obtain ⟨hlength, hget⟩ := mapM_get h
  refine ⟨buckets, hb, by simpa using hlength, fun index node hnode => ?_⟩
  obtain ⟨s, hs, hrun⟩ := hget index (node, index) (by rw [List.getElem?_zipIdx, hnode]; simp)
  obtain ⟨counts, hcounts, hrun⟩ := bind_ok.mp hrun
  have hperm : counts.Perm ((groups Prod.snd (perPerson ctx q resolved node)).map fun g => (g.1, g.2.length)) := by
    rw [rows] at hcounts
    split at hcounts
    · cases hcounts
    · cases hcounts
      exact ctx.arrange_perm _
  have hdata := data_eq hperm buckets.length
  cases hrun
  refine ⟨_, hs, rfl, by simp, ?_⟩
  rw [hdata]
  have hrow : ∀ person n, (person, n) ∈ perPerson ctx q resolved node ↔ n = (activeIn C ctx q resolved buckets node person).length ∧
      activeIn C ctx q resolved buckets node person ≠ [] := fun person n => mem_perPerson hC hb hmin hmax
  refine ⟨by simp, fun n value hvalue => ?_, ?_⟩
  · obtain ⟨hn, rfl⟩ : n < buckets.length ∧ value = ((perPerson ctx q resolved node).filter (·.2 = n + 1)).length := by
      rw [List.getElem?_map, Option.map_eq_some_iff] at hvalue
      obtain ⟨i, hi, rfl⟩ := hvalue
      obtain ⟨hlt, rfl⟩ := List.getElem?_eq_some_iff.mp hi
      rw [List.getElem_range]
      exact ⟨by simpa using hlt, rfl⟩
    refine ⟨(((perPerson ctx q resolved node).filter (·.2 = n + 1)).map Prod.fst).insertionSort (· ≤ ·), ?_, List.pairwise_insertionSort _ _, ?_,
      fun person => ?_, ?_⟩
    · exact (List.perm_insertionSort _ _).nodup_iff.mpr (perPerson_nodup.sublist (List.filter_sublist.map _))
    · rw [List.length_insertionSort, List.length_map]
    · rw [List.mem_insertionSort, List.mem_map]
      constructor
      · rintro ⟨row, hmem, rfl⟩
        obtain ⟨hmem, hbar⟩ := List.mem_filter.mp hmem
        rw [← ((hrow row.1 row.2).mp hmem).1]
        exact of_decide_eq_true hbar
      · intro hbar
        refine ⟨(person, n + 1), List.mem_filter.mpr ⟨(hrow _ _).mpr ⟨hbar.symm, fun hnil => ?_⟩, decide_eq_true rfl⟩, rfl⟩
        rw [hnil] at hbar
        cases hbar
    · rw [actors, hnode]
  · refine ⟨(perPerson ctx q resolved node).map Prod.fst, perPerson_nodup, fun person => ?_, ?_⟩
    · rw [List.mem_map]
      constructor
      · rintro ⟨row, hmem, rfl⟩
        exact ((hrow row.1 row.2).mp hmem).2
      · intro hne
        exact ⟨_, (hrow person _).mpr ⟨rfl, hne⟩, rfl⟩
    · rw [List.length_map]
      exact sum_fibers _ Prod.snd _ (bars_within hC hb hmin hmax)

end answer

section sample

/-- Of two persons one comes on two days, the other on one. -/
def sampleCtx : Ctx where
  events := [⟨"visit", 1784592000000005, "a", none, ""⟩, ⟨"visit", 1784592000000006, "b", none, ""⟩, ⟨"visit", 1784678400000005, "a", none, ""⟩]
  overrides _ := none
  eventText _ _ := none
  personText _ _ := none
  quantity _ _ := none
  arrange := id
  arrange_perm := Trends.perm_id

def sampleQuery : StickinessQuery := ⟨[⟨none, [], .total, fun _ => none⟩], ⟨"2026-07-21", some "2026-07-23"⟩, .day, []⟩

def sampleRange : ResolvedRange := ⟨1784592000000000, 1784851200000000, .day⟩

theorem sample_bars : ∃ buckets, sampleRange.buckets Chrono.small = .ok buckets ∧ Bars Chrono.small sampleCtx sampleQuery sampleRange buckets 0
    ⟨none, [], .total, fun _ => none⟩ [1, 1, 0] := by
  have hplan : prepare Chrono.small Small.noon (.ok none) (.stickiness sampleQuery.planned) = .ok (.stickiness sampleRange) := by
    rw [prepare]
    rfl
  have hrun : run Chrono.small sampleCtx sampleQuery sampleRange = .ok [⟨0, [1, 1, 0], ["1 day", "2 days", "3 days"]⟩] := by decide +kernel
  obtain ⟨buckets, hbuckets, -, hall⟩ := run_bars Chrono.small_gregorian (fun _ h => by cases h) hplan hrun
  obtain ⟨s, hs, -, -, hbars⟩ := hall 0 _ rfl
  cases hs
  exact ⟨buckets, hbuckets, hbars⟩

end sample
end Hoglet.Query.Stickiness
