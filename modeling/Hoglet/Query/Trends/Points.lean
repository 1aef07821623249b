import Hoglet.Query.Trends.Agree

/-! Every point of an active-person chart has as many actors as it shows, unless a real `$$_other` ranks among the top values
while others fold: that value is then listed twice, the second time with zeros. -/
namespace Hoglet.Query.Trends
open Funnels (breakdownExpr breakdownOther)
variable {C : Chrono} {ctx : Ctx} {q : TrendsQuery} {node : EventNode}

section definitions
variable (C : Chrono) (ctx : Ctx) (q : TrendsQuery)

/-- The breakdown texts of a series' events in the range. -/
def rangeTexts (node : EventNode) (range : ResolvedRange) : List String :=
  ((ctx.relation range.fromUs range.toUs).filter (predicate ctx q node)).filterMap (breakdownText ctx q)

/-- Whether a text has more events than another, or as many and comes first. -/
def ranksBefore (texts : List String) (v w : String) : Bool :=
  texts.count w < texts.count v ∨ texts.count v = texts.count w ∧ v < w

/-- Fewer texts than the limit rank before this one. -/
def OnTop (texts : List String) (limit : Nat) (v : String) : Prop :=
  v ∈ texts ∧ (texts.dedup.filter fun w => ranksBefore texts w v).length < limit

/-- A bucket that a request can name counts an event that is mapped to `$$_other`. -/
def OtherSeen (plan : TrendsPlan) (node : EventNode) (texts : List String) (limit : Nat) : Prop :=
  ∃ day bucket, parseInstant C day = some bucket ∧ bucket ∈ plan.main.buckets ∧
    ∃ e ∈ ctx.events, counts C node.math plan.main bucket e.ts = true ∧ predicate ctx q node e = true ∧
      ∃ text ∈ breakdownText ctx q e, text = breakdownOther ∨ ¬ OnTop texts limit text

/-- More texts than the limit, `$$_other` itself among the top ones, and an event to show under it. -/
def OtherOnTop (plan : TrendsPlan) (node : EventNode) : Prop :=
  ∃ breakdown ∈ q.breakdown, breakdown.limit < (rangeTexts ctx q node plan.main.range).dedup.length ∧
    OnTop (rangeTexts ctx q node plan.main.range) breakdown.limit breakdownOther ∧
    OtherSeen C ctx q plan node (rangeTexts ctx q node plan.main.range) breakdown.limit

/-- For every bucket of the current period the values listed for a series are the numbers of their actors. -/
def PointsMatch (plan : TrendsPlan) (index : Nat) : Prop :=
  ∀ s ∈ run C ctx q plan, s.compare ≠ some "previous" → s.seriesIndex = some index →
    ∀ (day : String) (bucket : Int) (p : Nat), parseInstant C day = some bucket → plan.main.buckets[p]? = some bucket →
      ∃ persons, actors C ctx q plan index day s.breakdownValue = .ok persons ∧ s.data[p]? = some (persons.length : Rat)

end definitions

/-! The top values. -/
section tops

private theorem topOrder_total : Std.Total topOrder :=
  ⟨fun a b => by
    rcases lt_trichotomy a.2 b.2 with hlt | heq | hlt
    · exact .inr (.inl hlt)
    · rcases le_total (a.1.getD "") (b.1.getD "") with hle | hle
      · exact .inl (.inr ⟨heq, hle⟩)
      · exact .inr (.inr ⟨heq.symm, hle⟩)
    · exact .inl (.inl hlt)⟩

private theorem topOrder_trans : IsTrans (Option String × Nat) topOrder :=
  ⟨fun a b c hab hbc => by
    rcases hab with hab | ⟨hab, huv⟩
    · left
      rcases hbc with hbc | ⟨hbc, -⟩ <;> omega
    · rcases hbc with hbc | ⟨hbc, hvw⟩
      · left
        omega
      · exact .inr ⟨hab.trans hbc, huv.trans hvw⟩⟩

private theorem ranksBefore_asymm {texts : List String} (v w : String) (h : ranksBefore texts v w = true) : ranksBefore texts w v = false := by
  simp only [ranksBefore, decide_eq_true_eq] at h
  rw [ranksBefore, decide_eq_false_iff_not]
  rintro (hlt | ⟨heq, hlt⟩)
  · rcases h with h | ⟨h, -⟩ <;> omega
  · rcases h with h | ⟨-, h⟩
    · omega
    · exact absurd hlt h.asymm

variable (ctx node) in
/-- The ranked texts. -/
private theorem ranked (h : q.breakdown ≠ none) (range : ResolvedRange) :
    let counts := (groups (breakdownText ctx q) ((ctx.relation range.fromUs range.toUs).filter (predicate ctx q node))).map fun g => (g.1, g.2.length)
    let texts := rangeTexts ctx q node range
    ((counts.insertionSort topOrder).filterMap Prod.fst).Perm texts.dedup ∧
      ((counts.insertionSort topOrder).filterMap Prod.fst).Pairwise fun v w => ranksBefore texts v w = true := by
  intro counts texts
  obtain ⟨breakdown, hq⟩ := Option.ne_none_iff_exists'.mp h
  have htext : ∀ e, breakdownText ctx q e = some (breakdownExpr (ctx.propertyText breakdown.source breakdown.property e)) := fun e => by
    rw [breakdownText, hq, Option.map_some]
  have hmap : texts = ((ctx.relation range.fromUs range.toUs).filter (predicate ctx q node)).map fun e =>
      breakdownExpr (ctx.propertyText breakdown.source breakdown.property e) := by
    show rangeTexts ctx q node range = _
    rw [rangeTexts, funext htext, List.filterMap_eq_map']
  have hcount : ∀ c ∈ counts, ∃ v, c = (some v, texts.count v) := by
    intro c hc
    obtain ⟨g, hg, rfl⟩ := List.mem_map.mp hc
    obtain ⟨⟨e, -, hkey⟩, hrows⟩ := mem_groups.mp hg
    rw [htext] at hkey
    refine ⟨_, Prod.ext hkey.symm ?_⟩
    dsimp only
    rw [hrows, ← hkey, hmap, List.count_eq_countP, List.countP_map, List.countP_eq_length_filter]
    congr 1
    apply List.filter_congr
    intro e _
    simp [htext, beq_eq_decide]
  have hperm : ((counts.insertionSort topOrder).filterMap Prod.fst).Perm texts.dedup := by
    refine ((List.perm_insertionSort topOrder counts).filterMap Prod.fst).trans ?_
    rw [hmap]
    show (((groups (breakdownText ctx q) _).map fun g => (g.1, g.2.length)).filterMap Prod.fst).Perm _
    rw [funext htext, groups_comp _ (Option.some_injective String)]
    apply List.Perm.of_eq
    simp [groups, List.filterMap_map, Function.comp_def]
  refine ⟨hperm, ?_⟩
  have hle : ((counts.insertionSort topOrder).filterMap Prod.fst).Pairwise fun v w => texts.count w < texts.count v ∨ texts.count v = texts.count w ∧ v ≤ w := by
    have := topOrder_total
    have := topOrder_trans
    refine List.pairwise_filterMap.mpr ((List.pairwise_insertionSort topOrder counts).imp_of_mem ?_)
    intro a b ha hb hab v hv w hw
    obtain ⟨v', rfl⟩ := hcount a ((List.perm_insertionSort topOrder counts).mem_iff.mp ha)
    obtain ⟨w', rfl⟩ := hcount b ((List.perm_insertionSort topOrder counts).mem_iff.mp hb)
    cases hv
    cases hw
    exact hab
  refine (hle.and (hperm.nodup_iff.mpr (List.nodup_dedup texts))).imp fun {v w} hvw => ?_
  obtain ⟨hle, hne⟩ := hvw
  rw [ranksBefore, decide_eq_true_eq]
  rcases hle with hlt | ⟨heq, hle⟩
  · exact .inl hlt
  · exact .inr ⟨heq, lt_of_le_of_ne hle hne⟩

variable (ctx q node) in
/-- The top values are the texts that rank first, each once. -/
theorem topValues_spec {breakdown : Breakdown} (hq : q.breakdown = some breakdown) (range : ResolvedRange) :
    ∃ top, topValues ctx q node range = some top ∧ top.values.Nodup ∧
      (∀ v, v ∈ top.values ↔ OnTop (rangeTexts ctx q node range) breakdown.limit v) ∧
      (top.other = true ↔ breakdown.limit < (rangeTexts ctx q node range).dedup.length) := by
  have hsome : q.breakdown ≠ none := hq ▸ Option.some_ne_none breakdown
  obtain ⟨hperm, hsorted⟩ := ranked ctx node hsome range
  rw [topValues, hq, Option.map_some]
  refine ⟨_, rfl, ?_, fun v => ?_, ?_⟩
  · exact (hperm.nodup_iff.mpr (List.nodup_dedup _)).sublist ((List.take_sublist _ _).trans (List.take_sublist _ _))
  · dsimp only
    rw [List.take_take, min_eq_left (Nat.le_succ _)]
    constructor
    · intro h
      have hin := List.mem_of_mem_take h
      rw [mem_take_iff ranksBefore_asymm hsorted hin, (hperm.filter _).length_eq] at h
      exact ⟨List.mem_dedup.mp (hperm.mem_iff.mp hin), h⟩
    · rintro ⟨hin, h⟩
      rw [mem_take_iff ranksBefore_asymm hsorted (hperm.mem_iff.mpr (List.mem_dedup.mpr hin)), (hperm.filter _).length_eq]
      exact h
  · dsimp only
    rw [decide_eq_true_eq, List.length_take, hperm.length_eq]
    omega

end tops

section points
variable {plan : TrendsPlan} {index : Nat}

/-- The masks and the general SQL alike have the persons of every bucket. -/
private theorem entry_computed {period : Period} (hp : period.Covered C) (hmath : node.math.needsPerson = true) (top : Option Top)
    (key : Option String) :
    (byKey period.buckets ((activeMasks C ctx q node period top).getD (generalRows C ctx q node period top))).entry period.buckets key =
      ⟨key, period.buckets.map fun bucket => ((bucketPersons C ctx q node period top bucket key).length : Rat),
        (rangePersons ctx q node period top key).length⟩ := by
  cases h : activeMasks C ctx q node period top with
  | some rows => exact (activeMasks_answer hp h).entry_persons hp key
  | none => exact (generalRows_answer hp hmath).entry_persons hp key

/-- The actors of a bucket are the persons it counts. -/
theorem actors_ok (hnode : q.series[index]? = some node) (hmath : node.math.needsPerson = true) {day : String} {bucket : Int}
    (hday : parseInstant C day = some bucket) (hb : bucket ∈ plan.main.buckets) {key : Option String} (hkey : key.isSome = q.breakdown.isSome) :
    ∃ persons, actors C ctx q plan index day key = .ok persons ∧
      persons.length = (bucketPersons C ctx q node plan.main (topValues ctx q node plan.main.range) bucket key).length := by
  have hselect : ∀ e, (q.breakdown.isNone || key.all fun value => breakdownKey ctx q (topValues ctx q node plan.main.range) e = some value) = true ↔
      breakdownKey ctx q (topValues ctx q node plan.main.range) e = key := by
    intro e
    cases hq : q.breakdown with
    | none =>
      rw [hq] at hkey
      cases key with
      | some value => cases hkey
      | none => simp [breakdownKey, breakdownText, hq]
    | some breakdown =>
      rw [hq] at hkey
      cases key with
      | none => cases hkey
      | some value => simp
  have hcounted : ∀ e, counted node e = true := by
    intro e
    cases h : node.math <;> rw [h] at hmath <;> cases hmath <;> simp [counted, h]
  have hbucket : (parseInstant C day).filter (· ∈ plan.main.buckets) = some bucket := by
    rw [hday]
    simp [hb]
  simp only [actors, hnode, hbucket]
  refine ⟨_, rfl, ?_⟩
  rw [List.length_insertionSort]
  apply length_bucketPersons
  intro person
  rw [mem_bucketPersons, List.mem_map]
  refine exists_congr fun e => ?_
  rw [List.mem_filter, mem_relation]
  cases hd : node.math.windowDays with
  | some days =>
    simp only [Bool.and_eq_true, hselect, hcounted, counts, hd, Option.isSome_some, Bool.true_or, decide_eq_true_eq, true_and]
    tauto
  | none =>
    simp only [Bool.and_eq_true, hselect, hcounted, counts, hd, Option.isSome_none, Bool.false_or, decide_eq_true_eq, and_true]
    tauto

variable (C ctx q plan index) in
/-- The values of one listed series are the numbers of their actors. -/
def ComputedMatch (computed : Computed) : Prop :=
  ∀ (day : String) (bucket : Int) (p : Nat), parseInstant C day = some bucket → plan.main.buckets[p]? = some bucket →
    ∃ persons, actors C ctx q plan index day computed.breakdown = .ok persons ∧ computed.data[p]? = some (persons.length : Rat)

variable (ctx) in
theorem entry_match (hp : plan.main.Covered C) (hnode : q.series[index]? = some node) (hmath : node.math.needsPerson = true)
    {key : Option String} (hkey : key.isSome = q.breakdown.isSome) :
    ComputedMatch C ctx q plan index ((byKey plan.main.buckets ((activeMasks C ctx q node plan.main (topValues ctx q node plan.main.range)).getD
      (generalRows C ctx q node plan.main (topValues ctx q node plan.main.range)))).entry plan.main.buckets key) := by
  intro day bucket p hday hget
  rw [entry_computed hp hmath]
  obtain ⟨persons, hactors, hlength⟩ := actors_ok hnode hmath hday (List.mem_of_getElem? hget) hkey
  refine ⟨persons, hactors, ?_⟩
  rw [hlength, List.getElem?_map, hget, Option.map_some]

/-- Zeros match where nobody is counted. -/
theorem zeros_match_iff (hnode : q.series[index]? = some node) (hmath : node.math.needsPerson = true) {key : Option String}
    (hkey : key.isSome = q.breakdown.isSome) : ComputedMatch C ctx q plan index (zeros plan.main.buckets key) ↔
      ∀ day bucket, parseInstant C day = some bucket → bucket ∈ plan.main.buckets →
        bucketPersons C ctx q node plan.main (topValues ctx q node plan.main.range) bucket key = [] := by
  constructor
  · intro h day bucket hday hb
    obtain ⟨p, hget⟩ := List.mem_iff_getElem?.mp hb
    obtain ⟨persons, hactors, hvalue⟩ := h day bucket p hday hget
    obtain ⟨persons', hactors', hlength⟩ := actors_ok hnode hmath hday hb hkey
    have hp := (List.getElem?_eq_some_iff.mp hget).1
    have hzero : (persons.length : Rat) = 0 := by simpa [zeros, hp] using hvalue.symm
    have hsame : persons = persons' := Except.ok.inj (hactors.symm.trans hactors')
    rw [← List.length_eq_zero_iff, ← hlength, ← hsame]
    exact_mod_cast hzero
  · intro h day bucket p hday hget
    have hb := List.mem_of_getElem? hget
    obtain ⟨persons, hactors, hlength⟩ := actors_ok hnode hmath hday hb hkey
    refine ⟨persons, hactors, ?_⟩
    have hp := (List.getElem?_eq_some_iff.mp hget).1
    rw [hlength, h day bucket hday hb]
    simp [zeros, hp]

/-- The series of the current period, by their index. -/
theorem pointsMatch_iff (hnode : q.series[index]? = some node) : PointsMatch C ctx q plan index ↔
    ((q.breakdown.isSome && (topValues ctx q node plan.main.range).any fun top => top.values = [] ∧ top.other = false) = false →
      ∀ computed ∈ compute C ctx q node plan.main (topValues ctx q node plan.main.range), ComputedMatch C ctx q plan index computed) := by
  have htop : ((q.series.map fun node => topValues ctx q node plan.main.range)[index]?).join = topValues ctx q node plan.main.range := by
    rw [List.getElem?_map, hnode]
    rfl
  have hcompare : (if q.compare then some "current" else none) ≠ some "previous" := by
    split
    · decide
    · exact (Option.some_ne_none _).symm
  constructor
  · intro h hshown computed hc
    refine h ⟨some index, computed.breakdown, if q.compare then some "current" else none, computed.data, computed.aggregated⟩ ?_ hcompare rfl
    refine List.mem_append_left _ (List.mem_flatMap.mpr ⟨(node, index), List.mem_zipIdx_iff_getElem?.mpr hnode, ?_⟩)
    dsimp only
    rw [htop, hshown, if_neg Bool.false_ne_true]
    exact List.mem_map.mpr ⟨computed, hc, rfl⟩
  · intro h s hs hnot hindex
    rcases List.mem_append.mp hs with hs | hs
    · obtain ⟨⟨other, i⟩, hi, hs⟩ := List.mem_flatMap.mp hs
      obtain ⟨computed, hc, rfl⟩ := List.mem_map.mp hs
      cases hindex
      cases hnode.symm.trans (List.mem_zipIdx_iff_getElem?.mp hi)
      rw [htop] at hc
      split at hc
      · cases hc
      · rename_i hshown
        exact h (Bool.eq_false_iff.mpr hshown) computed hc
    · obtain ⟨previous, -, hs⟩ := List.mem_flatMap.mp hs
      obtain ⟨_, -, hs⟩ := List.mem_flatMap.mp hs
      obtain ⟨computed, -, rfl⟩ := List.mem_map.mp hs
      exact absurd rfl hnot

/-- What is counted under `$$_other` where that is one of the top values. -/
private theorem otherSeen_iff {breakdown : Breakdown} (hq : q.breakdown = some breakdown) {top : Top}
    (htop : topValues ctx q node plan.main.range = some top) (hother : breakdownOther ∈ top.values)
    (hvalues : ∀ v, v ∈ top.values ↔ OnTop (rangeTexts ctx q node plan.main.range) breakdown.limit v) :
    OtherSeen C ctx q plan node (rangeTexts ctx q node plan.main.range) breakdown.limit ↔
      ∃ day bucket, parseInstant C day = some bucket ∧ bucket ∈ plan.main.buckets ∧
        bucketPersons C ctx q node plan.main (topValues ctx q node plan.main.range) bucket (some breakdownOther) ≠ [] := by
  have hkey : ∀ e, breakdownKey ctx q (topValues ctx q node plan.main.range) e = some breakdownOther ↔
      ∃ text ∈ breakdownText ctx q e, text = breakdownOther ∨ ¬ OnTop (rangeTexts ctx q node plan.main.range) breakdown.limit text := by
    intro e
    have hne : top.values ≠ [] := List.ne_nil_of_mem hother
    obtain ⟨text, htext⟩ : ∃ text, breakdownText ctx q e = some text := by
      rw [breakdownText, hq, Option.map_some]
      exact ⟨_, rfl⟩
    simp only [htop, breakdownKey, htext, Option.mem_def, Option.some_inj, exists_eq_left', mappedBreakdown, if_neg hne, ← hvalues]
    split
    · rename_i hmem
      simp [hmem]
    · rename_i hmem
      simp [hmem]
  refine exists_congr fun day => exists_congr fun bucket => and_congr_right fun hday => and_congr_right fun hb => ?_
  rw [List.ne_nil_iff_length_pos, List.length_pos_iff_exists_mem]
  simp only [mem_bucketPersons, hkey]
  constructor
  · rintro ⟨e, he, hc, hpred, htext⟩
    exact ⟨ctx.person e, e, he, hc, ⟨hpred, htext⟩, rfl⟩
  · rintro ⟨person, e, he, hc, ⟨hpred, htext⟩, -⟩
    exact ⟨e, he, hc, hpred, htext⟩

/-- Every bucket of a series shows as many persons as its actors list, in every listed breakdown value, if and only if
`$$_other` is not one of the top values with others folded into it. -/
theorem points_match_iff {now : Capture.DateTime} {first : Except QueryError (Option Int)} (hfirst : ∀ us, first = .ok (some us) → minUs ≤ us)
    (hplan : trendsPlan C q.planned now first = .ok plan) (hnode : q.series[index]? = some node) (hmath : node.math.needsPerson = true) :
    PointsMatch C ctx q plan index ↔ ¬ OtherOnTop C ctx q plan node := by
  have hp := trendsPlan_covered hfirst hplan plan.main (List.mem_cons_self ..)
  rw [pointsMatch_iff hnode, OtherOnTop]
  cases hq : q.breakdown with
  | none =>
    have htop : topValues ctx q node plan.main.range = none := by rw [topValues, hq, Option.map_none]
    have hone := entry_match ctx hp hnode hmath (by rw [hq]; rfl : (none : Option String).isSome = q.breakdown.isSome)
    rw [htop] at hone
    simp only [Option.isSome_none, Bool.false_and, forall_const, htop, compute, listed, List.mem_singleton, forall_eq, Option.mem_def,
      reduceCtorEq, false_and, exists_false, not_false_eq_true, iff_true]
    exact hone
  | some breakdown =>
    obtain ⟨top, htop, hnodup, hvalues, hmore⟩ := topValues_spec ctx q node hq plan.main.range
    have hentry : ∀ value, ComputedMatch C ctx q plan index ((byKey plan.main.buckets ((activeMasks C ctx q node plan.main (some top)).getD
        (generalRows C ctx q node plan.main (some top)))).entry plan.main.buckets (some value)) := by
      intro value
      have := entry_match ctx hp hnode hmath (by rw [hq]; rfl : (some value).isSome = q.breakdown.isSome)
      rwa [htop] at this
    simp only [Option.mem_def, Option.some_inj, exists_eq_left', ← hmore, ← hvalues, htop, Option.isSome_some, Bool.true_and, Option.any_some,
      compute, listed, mem_listTop hnodup, decide_eq_false_iff_not]
    by_cases hin : breakdownOther ∈ top.values
    · have hzero : ComputedMatch C ctx q plan index (zeros plan.main.buckets (some breakdownOther)) ↔ _ :=
        zeros_match_iff hnode hmath (by rw [hq]; rfl)
      have hseen := otherSeen_iff (C := C) hq htop hin hvalues
      simp only [otherEntry, if_pos hin]
      constructor
      · rintro h ⟨hmore, -, hs⟩
        obtain ⟨day, bucket, hday, hb, hne⟩ := hseen.mp hs
        exact hne (hzero.mp (h (fun hnil => List.ne_nil_of_mem hin hnil.1) _ (.inr ⟨rfl, .inl hmore⟩)) day bucket hday hb)
      · rintro h - computed (⟨value, -, rfl⟩ | ⟨rfl, hshown⟩)
        · exact hentry value
        · refine hzero.mpr fun day bucket hday hb => ?_
          by_contra hne
          refine h ⟨?_, hin, hseen.mpr ⟨day, bucket, hday, hb, hne⟩⟩
          -- zeros are listed only for the folded rest
          rcases hshown with hmore | hwhole | ⟨v, hv, hne⟩
          · exact hmore
          · exact absurd rfl hwhole
          · exact absurd (List.eq_of_mem_replicate hv) hne
    · simp only [otherEntry, if_neg hin]
      refine iff_of_true ?_ fun h => hin h.2.1
      rintro - computed (⟨value, -, rfl⟩ | ⟨rfl, -⟩)
      · exact hentry value
      · exact hentry breakdownOther

section sample

/-- The plan of the three days. -/
def samplePlan : TrendsPlan := ⟨samplePeriod, none, some 7⟩

theorem samplePlan_ok : trendsPlan Chrono.small sampleQuery.planned Capture.Small.noon (.ok none) = .ok samplePlan := by
  rw [trendsPlan]
  rfl

theorem sample_points_match_iff :
    PointsMatch Chrono.small sampleCtx sampleQuery samplePlan 0 ↔ ¬ OtherOnTop Chrono.small sampleCtx sampleQuery samplePlan weekly :=
  points_match_iff (fun _ h => by cases h) samplePlan_ok rfl rfl

/-- `$$_other` is listed twice: with its values, and again with zeros, while the actors of the second day are two. -/
theorem other_values_missed : trendsPlan Chrono.small sampleQuery.planned Capture.Small.noon (.ok none) = .ok samplePlan ∧
    ¬ PointsMatch Chrono.small sampleCtx sampleQuery samplePlan 0 := by
  refine ⟨samplePlan_ok, fun h => ?_⟩
  have hlisted : (⟨some 0, some "$$_other", none, [0, 0, 0], 0⟩ : TrendSeries) ∈ run Chrono.small sampleCtx sampleQuery samplePlan := by
    decide +kernel
  obtain ⟨persons, hactors, hvalue⟩ := h _ hlisted (by decide) rfl "2026-07-22" 1784678400000000 1 (by decide +kernel) rfl
  have htwo : actors Chrono.small sampleCtx sampleQuery samplePlan 0 "2026-07-22" (some "$$_other") = .ok ["a", "b"] := by decide +kernel
  cases hactors.symm.trans htwo
  simp at hvalue

end sample

end points
end Hoglet.Query.Trends
