import Hoglet.Query.Funnels.Results

/-! The persons behind every number of a funnel, and when its breakdown buckets are a partition of them. -/
namespace Hoglet.Query.Funnels
variable {q : FunnelsQuery} {mapOrder mapOrder' : MapOrder} {outcomes outcomes' : List PersonOutcome}

/-! Steps. -/

theorem reached_succ_le (persons : List PersonOutcome) (step : Nat) : reached persons (step + 1) ≤ reached persons step := by
  apply List.countP_mono_left
  intro p _ h
  rw [decide_eq_true_eq] at h ⊢
  omega

theorem reached_antitone (persons : List PersonOutcome) : Antitone (reached persons) := antitone_nat_of_succ_le (reached_succ_le persons)

/-- The persons who stop right before a step. -/
def stopped (persons : List PersonOutcome) (step : Nat) : Nat := persons.countP fun p => 0 < step ∧ p.times.length = step

theorem reached_add_stopped (persons : List PersonOutcome) (step : Nat) :
    reached persons (step + 1) + stopped persons (step + 1) = reached persons step := by
  rw [reached, reached, stopped]
  induction persons with
  | nil => rfl
  | cons p persons ih =>
    simp only [List.countP_cons, decide_eq_true_eq]
    split_ifs <;> omega

theorem checkedSub_reached (persons : List PersonOutcome) (step : Nat) :
    checkedSub (reached persons step) (reached persons (step + 1)) = some (stopped persons (step + 1)) := by
  have hsum := reached_add_stopped persons step
  rw [checkedSub, if_pos (by omega)]
  congr 1
  omega

/-- What `stepResults` gives, without underflow. -/
def stepsOf (q : FunnelsQuery) (persons : List PersonOutcome) : List FunnelStepResult :=
  (List.finRange q.series.length).map fun (step : Fin q.series.length) => ⟨step, (q.series.get step).label, reached persons step, stopped persons step⟩

theorem stepResults_eq (persons : List PersonOutcome) : stepResults q persons = some (stepsOf q persons) := by
  rw [stepResults, stepsOf]
  apply mapM_some
  intro step _
  cases hstep : step.val with
  | zero => simp [stopped]
  | succ k => simp [checkedSub_reached]

theorem run_eq (mapOrder : MapOrder) (q : FunnelsQuery) (outcomes : List PersonOutcome) : ∃ durations, run mapOrder q outcomes = some
    { steps := stepsOf q (assignBreakdowns mapOrder q outcomes).2
      breakdowns := (assignBreakdowns mapOrder q outcomes).1.map fun value =>
        ⟨value, stepsOf q ((assignBreakdowns mapOrder q outcomes).2.filter fun p => p.breakdown = some value)⟩
      timeToConvert := histogram durations } := by
  rw [run]
  cases assignBreakdowns mapOrder q outcomes with
  | mk values assigned =>
    have hbreakdowns := mapM_some (l := values)
      (f := fun value => do
        let steps ← stepResults q (assigned.filter fun p => p.breakdown = some value)
        return (⟨value, steps⟩ : FunnelBreakdownResult)) (fun value _ => by rw [stepResults_eq]; rfl)
    dsimp only at hbreakdowns ⊢
    rw [stepResults_eq, hbreakdowns]
    exact ⟨_, rfl⟩

/-! The ranking of the breakdown values. -/

def texts (outcomes : List PersonOutcome) : List String := outcomes.map fun outcome => outcome.breakdown.getD breakdownNone

private theorem countValue_keys {value : String} {keys : List String} (hnodup : keys.Nodup) (f : String → Nat) :
    countValue value (keys.map fun v => (v, f v)) = if value ∈ keys then keys.map fun v => (v, f v + if v = value then 1 else 0)
      else keys.map (fun v => (v, f v)) ++ [(value, 1)] := by
  induction keys with
  | nil => rfl
  | cons first keys ih =>
    obtain ⟨hnot, hnodup⟩ := List.nodup_cons.mp hnodup
    rw [List.map_cons, countValue]
    by_cases heq : first = value
    · subst heq
      rw [if_pos rfl, if_pos (List.mem_cons_self ..), List.map_cons, if_pos rfl]
      congr 1
      apply List.map_congr_left
      intro v hv
      rw [if_neg fun h : v = first => hnot (h ▸ hv), Nat.add_zero]
    · rw [if_neg heq, ih hnodup]
      by_cases hin : value ∈ keys
      · rw [if_pos hin, if_pos (List.mem_cons_of_mem _ hin), List.map_cons, if_neg heq, Nat.add_zero]
      · rw [if_neg hin, if_neg fun h => (List.mem_cons.mp h).elim (fun h => heq h.symm) hin]
        rfl

/-- Every value once, with its count. -/
private theorem counts_eq (values : List String) : ∃ keys : List String, keys.Nodup ∧ (∀ v, v ∈ keys ↔ v ∈ values) ∧
    values.foldl (fun counts v => countValue v counts) [] = keys.map fun v => (v, values.count v) := by
  induction values using List.reverseRecOn with
  | nil => exact ⟨[], List.nodup_nil, fun _ => Iff.rfl, rfl⟩
  | append_singleton values value ih =>
    obtain ⟨keys, hnodup, hmem, heq⟩ := ih
    have hcount : ∀ v, (values ++ [value]).count v = values.count v + if v = value then 1 else 0 := fun v => by
      rw [List.count_append, List.count_singleton]
      by_cases hv : v = value
      · simp [hv]
      · rw [if_neg hv, if_neg (by simpa using Ne.symm hv)]
    rw [List.foldl_append, heq, List.foldl_cons, List.foldl_nil, countValue_keys hnodup]
    split_ifs with hin
    · refine ⟨keys, hnodup, fun v => ?_, by simp only [hcount]⟩
      rw [hmem, List.mem_append, List.mem_singleton]
      constructor
      · exact .inl
      · rintro (hv | rfl)
        · exact hv
        · exact (hmem _).mp hin
    · refine ⟨keys ++ [value], List.concat_eq_append ▸ hnodup.concat hin, fun v => by simp [hmem], ?_⟩
      have hzero : values.count value = 0 := List.count_eq_zero.mpr fun h => hin ((hmem _).mpr h)
      rw [List.map_append]
      congr 1
      · apply List.map_congr_left
        intro v hv
        rw [hcount, if_neg fun h : v = value => hin (h ▸ hv), Nat.add_zero]
      · rw [List.map_singleton, hcount, hzero, if_pos rfl]

theorem rankLe_trans (a b c : String × Nat) (hab : rankLe a b = true) (hbc : rankLe b c = true) : rankLe a c = true := by
  simp only [rankLe, decide_eq_true_eq] at hab hbc ⊢
  rcases hab with hab | ⟨hab, huv⟩
  · left
    rcases hbc with hbc | ⟨hbc, -⟩ <;> omega
  · rcases hbc with hbc | ⟨hbc, hvw⟩
    · left
      omega
    · exact .inr ⟨hab.trans hbc, huv.trans hvw⟩

theorem rankLe_total (a b : String × Nat) : (rankLe a b || rankLe b a) = true := by
  simp only [rankLe, Bool.or_eq_true, decide_eq_true_eq]
  rcases lt_trichotomy a.2 b.2 with hlt | heq | hlt
  · exact .inr (.inl hlt)
  · rcases le_total a.1 b.1 with hle | hle
    · exact .inl (.inr ⟨heq, hle⟩)
    · exact .inr (.inr ⟨heq.symm, hle⟩)
  · exact .inl (.inl hlt)

theorem rankLe_antisymm {a b : String × Nat} (hab : rankLe a b = true) (hba : rankLe b a = true) : a = b := by
  simp only [rankLe, decide_eq_true_eq] at hab hba
  rcases hab with hab | ⟨hcount, hle⟩
  · rcases hba with hba | ⟨hba, -⟩ <;> omega
  · rcases hba with hba | ⟨-, hge⟩
    · omega
    · exact Prod.ext (hle.antisymm hge) hcount

/-- The values by rank. -/
def ranking (mapOrder : MapOrder) (outcomes : List PersonOutcome) : List (String × Nat) :=
  (mapOrder.iterate ((texts outcomes).foldl (fun counts v => countValue v counts) [])).mergeSort rankLe

theorem ranking_sorted (mapOrder : MapOrder) (outcomes : List PersonOutcome) : (ranking mapOrder outcomes).Pairwise fun a b => rankLe a b = true :=
  List.pairwise_mergeSort rankLe_trans rankLe_total _

theorem ranking_eq (mapOrder : MapOrder) (outcomes : List PersonOutcome) : ∃ keys : List String, keys.Nodup ∧
    (∀ v, v ∈ keys ↔ v ∈ texts outcomes) ∧ ranking mapOrder outcomes = keys.map fun v => (v, (texts outcomes).count v) := by
  obtain ⟨keys, hnodup, hmem, heq⟩ := counts_eq (texts outcomes)
  have hperm : (ranking mapOrder outcomes).Perm (keys.map fun v => (v, (texts outcomes).count v)) := by
    rw [← heq]
    exact (List.mergeSort_perm _ _).trans (mapOrder.perm _)
  have hkeys : ((ranking mapOrder outcomes).map Prod.fst).Perm keys := by
    refine (hperm.map _).trans (List.Perm.of_eq ?_)
    rw [List.map_map]
    exact List.map_id _
  refine ⟨(ranking mapOrder outcomes).map Prod.fst, hkeys.nodup_iff.mpr hnodup, fun v => hkeys.mem_iff.trans (hmem v), ?_⟩
  rw [List.map_map]
  refine (List.map_id _).symm.trans (List.map_congr_left fun a ha => ?_)
  obtain ⟨v, -, rfl⟩ := List.mem_map.mp (hperm.mem_iff.mp ha)
  rfl

/-- The ranking depends neither on the map's order nor on that of the outcomes. -/
theorem ranking_perm (h : outcomes'.Perm outcomes) : ranking mapOrder' outcomes' = ranking mapOrder outcomes := by
  have htexts : (texts outcomes').Perm (texts outcomes) := h.map _
  obtain ⟨keys, hnodup, hmem, heq⟩ := ranking_eq mapOrder outcomes
  obtain ⟨keys', hnodup', hmem', heq'⟩ := ranking_eq mapOrder' outcomes'
  have hkeys : keys'.Perm keys := by
    rw [List.perm_ext_iff_of_nodup hnodup' hnodup]
    intro v
    rw [hmem, hmem', htexts.mem_iff]
  have hcount : (fun v => (v, (texts outcomes').count v)) = fun v => (v, (texts outcomes).count v) := by
    funext v
    rw [htexts.count_eq]
  refine List.Perm.eq_of_pairwise (fun a b _ _ => rankLe_antisymm) (ranking_sorted mapOrder' outcomes')
    (ranking_sorted mapOrder outcomes) ?_
  rw [heq, heq', hcount]
  exact hkeys.map _

/-! Buckets. -/

/-- The top values. -/
def topValues (mapOrder : MapOrder) (limit : Nat) (outcomes : List PersonOutcome) : List String :=
  ((ranking mapOrder outcomes).take limit).map Prod.fst

/-- The bucket of a value. -/
def bucket (top : List String) (value : String) : String := if top.contains value then value else breakdownOther

theorem assignBreakdowns_none (hq : q.breakdown = none) : assignBreakdowns mapOrder q outcomes = ([], outcomes) := by
  rw [assignBreakdowns, hq]

theorem assignBreakdowns_some {breakdown : Breakdown} (hq : q.breakdown = some breakdown) :
    assignBreakdowns mapOrder q outcomes =
      (if breakdown.limit < (ranking mapOrder outcomes).length then topValues mapOrder breakdown.limit outcomes ++ [breakdownOther]
        else topValues mapOrder breakdown.limit outcomes,
      outcomes.map fun outcome => { outcome with
        breakdown := some (bucket (topValues mapOrder breakdown.limit outcomes) (outcome.breakdown.getD breakdownNone)) }) := by
  have hcounts : (outcomes.map fun outcome => { outcome with breakdown := some (outcome.breakdown.getD breakdownNone) }).foldl
      (fun counts (outcome : PersonOutcome) => countValue (outcome.breakdown.getD breakdownNone) counts) [] =
      (texts outcomes).foldl (fun counts v => countValue v counts) [] := by
    rw [texts, List.foldl_map, List.foldl_map]
    rfl
  rw [assignBreakdowns, hq]
  dsimp only
  rw [hcounts, ← ranking, ← topValues, List.map_map]
  congr 1
  apply List.map_congr_left
  intro outcome _
  rw [Function.comp_apply, bucket]
  dsimp only
  split_ifs <;> rfl

/-- What the ranking does not depend on, the buckets do not. -/
theorem assignBreakdowns_perm (h : outcomes'.Perm outcomes) :
    (assignBreakdowns mapOrder' q outcomes').1 = (assignBreakdowns mapOrder q outcomes).1 ∧
      (assignBreakdowns mapOrder' q outcomes').2.Perm (assignBreakdowns mapOrder q outcomes).2 := by
  cases hq : q.breakdown with
  | none =>
    rw [assignBreakdowns_none hq, assignBreakdowns_none hq]
    exact ⟨rfl, h⟩
  | some breakdown =>
    rw [assignBreakdowns_some hq, assignBreakdowns_some hq, topValues, topValues, ranking_perm h]
    exact ⟨rfl, h.map _⟩

theorem assignBreakdowns_persons (mapOrder : MapOrder) (q : FunnelsQuery) (outcomes : List PersonOutcome) :
    (assignBreakdowns mapOrder q outcomes).2.map PersonOutcome.person = outcomes.map PersonOutcome.person := by
  cases hq : q.breakdown with
  | none => rw [assignBreakdowns_none hq]
  | some breakdown =>
    rw [assignBreakdowns_some hq, List.map_map]
    rfl

/-! Cells. -/

/-- Cells that no outcome is in twice hold each outcome that is in one of them. -/
theorem countP_cells {α β : Type} {P : β → α → Bool} {cells : List β} {l : List α}
    (h : cells.Pairwise fun c c' => ∀ a ∈ l, P c a = true → P c' a = false) :
    (cells.map fun c => l.countP (P c)).sum = l.countP fun a => cells.any fun c => P c a := by
  induction cells with
  | nil => simp
  | cons c cells ih =>
    obtain ⟨hc, hcells⟩ := List.pairwise_cons.mp h
    rw [List.map_cons, List.sum_cons, ih hcells]
    clear ih hcells h
    induction l with
    | nil => rfl
    | cons a l ih =>
      have hrest := ih fun c' hc' b hb => hc c' hc' b (List.mem_cons_of_mem _ hb)
      simp only [List.countP_cons, List.any_cons] at hrest ⊢
      have hone : P c a = true → (cells.any fun c => P c a) = false := fun hca => List.any_eq_false.mpr fun c' hc' =>
        Bool.eq_false_iff.mp (hc c' hc' a (List.mem_cons_self ..) hca)
      cases hca : P c a with
      | false => simp only [Bool.false_or, Bool.false_eq_true, if_false]; omega
      | true => simp only [hone hca, Bool.or_false, Bool.false_eq_true, if_true, if_false]; omega

/-- Every count and every drop-off of a table is the number of persons that the actors endpoint gives for its cell. -/
structure StepsMatch (mapOrder : MapOrder) (q : FunnelsQuery) (outcomes : List PersonOutcome) (value : Option String)
    (steps : List FunnelStepResult) : Prop where
  length : steps.length = q.series.length
  decreasing : (steps.map FunnelStepResult.count).Pairwise (· ≥ ·)
  converted : ∀ step (h : step < steps.length), ∃ persons, actors mapOrder q outcomes step true value = .ok persons ∧
    persons.length = steps[step].count
  dropped : ∀ step (h : step < steps.length), ∃ persons, actors mapOrder q outcomes step false value = .ok persons ∧
    persons.length = steps[step].droppedOff

/-- The members of a table. -/
private def members (q : FunnelsQuery) (value : Option String) (assigned : List PersonOutcome) : List PersonOutcome :=
  assigned.filter fun p => match value, q.breakdown.isSome with
    | some value, true => p.breakdown = some value
    | _, _ => true

private theorem cell_length (step : Nat) (converted : Bool) (value : Option String) (assigned : List PersonOutcome) :
    (assigned.filter (inCell q step converted value)).length =
      if converted then reached (members q value assigned) step else stopped (members q value assigned) step := by
  rw [← List.countP_eq_length_filter, members]
  cases converted with
  | true => rw [if_pos rfl, reached, List.countP_filter]; rfl
  | false => rw [if_neg Bool.false_ne_true, stopped, List.countP_filter]; rfl

private theorem stepsMatch (mapOrder mapOrder' : MapOrder) (q : FunnelsQuery) (h : outcomes'.Perm outcomes) (value : Option String) :
    StepsMatch mapOrder' q outcomes' value (stepsOf q (members q value (assignBreakdowns mapOrder q outcomes).2)) := by
  have hlen : (stepsOf q (members q value (assignBreakdowns mapOrder q outcomes).2)).length = q.series.length := by
    rw [stepsOf, List.length_map, List.length_finRange]
  have hcell : ∀ step < q.series.length, ∀ converted, ∃ persons, actors mapOrder' q outcomes' step converted value = .ok persons ∧
      persons.length = if converted then reached (members q value (assignBreakdowns mapOrder q outcomes).2) step
        else stopped (members q value (assignBreakdowns mapOrder q outcomes).2) step := by
    intro step hstep converted
    refine ⟨_, if_neg (not_le.mpr hstep), ?_⟩
    rw [List.length_map, ((assignBreakdowns_perm h).2.filter _).length_eq, cell_length]
  refine ⟨hlen, ?_, fun step hstep => ?_, fun step hstep => ?_⟩
  · rw [stepsOf, List.map_map, List.pairwise_map]
    exact (List.pairwise_lt_finRange _).imp fun hlt => reached_antitone _ hlt.le
  · simpa [stepsOf] using hcell step (hlen ▸ hstep) true
  · simpa [stepsOf] using hcell step (hlen ▸ hstep) false

/-- How often a person is in a drop-off cell. -/
def dropCount (mapOrder : MapOrder) (q : FunnelsQuery) (outcomes : List PersonOutcome) (person : String) (step : Nat)
    (value : Option String) : Nat :=
  match actors mapOrder q outcomes step false value with
  | .ok persons => persons.count person
  | .error _ => 0

private theorem dropCount_le (person : String) (step : Nat) (value : Option String) :
    dropCount mapOrder q outcomes person step value ≤
      (assignBreakdowns mapOrder q outcomes).2.countP fun p => p.person = person && inCell q step false value p := by
  rw [dropCount, actors]
  split_ifs
  · exact Nat.zero_le _
  · dsimp only
    rw [List.count_eq_countP, List.countP_map, List.countP_filter]
    apply List.countP_mono_left
    intro p _ h
    simpa using h

private theorem dropCount_sum (mapOrder : MapOrder) (h : outcomes'.Perm outcomes) {cells : List (Nat × Option String)}
    (hcells : cells.Pairwise fun c c' => ∀ p, inCell q c.1 false c.2 p = true → inCell q c'.1 false c'.2 p = false) (person : String) :
    (cells.map fun c => dropCount mapOrder q outcomes' person c.1 c.2).sum ≤ (outcomes.map PersonOutcome.person).count person := by
  have hdisjoint : cells.Pairwise fun c c' => ∀ p ∈ (assignBreakdowns mapOrder q outcomes').2,
      (p.person = person && inCell q c.1 false c.2 p) = true → (p.person = person && inCell q c'.1 false c'.2 p) = false := by
    refine hcells.imp fun hne p _ hp => ?_
    rw [Bool.and_eq_true] at hp
    rw [hne p hp.2, Bool.and_false]
  have hsum := countP_cells hdisjoint
  calc (cells.map fun c => dropCount mapOrder q outcomes' person c.1 c.2).sum
      ≤ (cells.map fun c => (assignBreakdowns mapOrder q outcomes').2.countP
          fun p => p.person = person && inCell q c.1 false c.2 p).sum := List.sum_le_sum fun c _ => dropCount_le person c.1 c.2
    _ = _ := hsum
    _ ≤ (assignBreakdowns mapOrder q outcomes').2.countP fun p => p.person = person := by
        apply List.countP_mono_left
        intro p _ hp
        obtain ⟨c, -, hc⟩ := List.any_eq_true.mp hp
        exact (Bool.and_eq_true_iff.mp hc).1
    _ = (outcomes'.map PersonOutcome.person).count person := by
        rw [← assignBreakdowns_persons mapOrder q, List.count_eq_countP, List.countP_map]
        apply List.countP_congr
        intro p _
        simp
    _ = (outcomes.map PersonOutcome.person).count person := (h.map _).count_eq _

private theorem inCell_dropped {step : Nat} {value : Option String} {p : PersonOutcome} (h : inCell q step false value p = true) :
    p.times.length = step ∧ ∀ v ∈ value, q.breakdown.isSome = true → p.breakdown = some v := by
  obtain ⟨hdepth, hvalue⟩ := Bool.and_eq_true_iff.mp h
  refine ⟨(of_decide_eq_true hdepth).2, ?_⟩
  rintro v ⟨⟩ hq
  rw [hq] at hvalue
  exact of_decide_eq_true hvalue

/-- Whatever the order of a map or of the outcomes, recomputed for the persons' list, the numbers of a funnel are those of its
persons, none of whom drops off twice. -/
theorem actors_match (h : outcomes'.Perm outcomes) : ∃ result, run mapOrder q outcomes = some result ∧
    StepsMatch mapOrder' q outcomes' none result.steps ∧
    (∀ b ∈ result.breakdowns, StepsMatch mapOrder' q outcomes' (some b.breakdownValue) b.steps) ∧
    ∀ person,
      ((List.range q.series.length).map fun step => dropCount mapOrder' q outcomes' person step none).sum ≤
        (outcomes.map PersonOutcome.person).count person ∧
      (((List.range q.series.length).product (result.breakdowns.map FunnelBreakdownResult.breakdownValue).dedup).map fun c =>
        dropCount mapOrder' q outcomes' person c.1 (some c.2)).sum ≤ (outcomes.map PersonOutcome.person).count person := by
  obtain ⟨durations, hrun⟩ := run_eq mapOrder q outcomes
  refine ⟨_, hrun, ?_, fun b hb => ?_, fun person => ⟨?_, ?_⟩⟩
  · have hall : members q none (assignBreakdowns mapOrder q outcomes).2 = (assignBreakdowns mapOrder q outcomes).2 :=
      List.filter_eq_self.mpr fun _ _ => rfl
    have hmatch := stepsMatch mapOrder mapOrder' q h none
    rwa [hall] at hmatch
  · obtain ⟨value, hvalue, rfl⟩ := List.mem_map.mp hb
    have hmatch := stepsMatch mapOrder mapOrder' q h (some value)
    cases hq : q.breakdown with
    | none =>
      rw [assignBreakdowns_none hq] at hvalue
      cases hvalue
    | some breakdown =>
      have hmembers : members q (some value) (assignBreakdowns mapOrder q outcomes).2 =
          (assignBreakdowns mapOrder q outcomes).2.filter fun p => p.breakdown = some value := by
        rw [members, hq]
        rfl
      rwa [hmembers] at hmatch
  · have hcells : ((List.range q.series.length).map fun step => (step, (none : Option String))).Pairwise fun c c' =>
        ∀ p, inCell q c.1 false c.2 p = true → inCell q c'.1 false c'.2 p = false := by
      rw [List.pairwise_map]
      refine List.nodup_range.imp fun hne p hp => Bool.eq_false_iff.mpr fun hp' => hne ?_
      exact (inCell_dropped hp).1.symm.trans (inCell_dropped hp').1
    have hsum := dropCount_sum mapOrder' h hcells person
    rwa [List.map_map] at hsum
  · cases hq : q.breakdown with
    | none =>
      have hnil : (List.range q.series.length).product ([] : List String) = [] := List.product_nil _
      rw [assignBreakdowns_none hq]
      simp only [List.map_nil, List.dedup_nil, hnil]
      exact Nat.zero_le _
    | some breakdown =>
      generalize hvalues : (((assignBreakdowns mapOrder q outcomes).1.map _).map FunnelBreakdownResult.breakdownValue).dedup = values
      have hnodup : values.Nodup := hvalues ▸ List.nodup_dedup _
      have hcells : (((List.range q.series.length).product values).map fun c => (c.1, some c.2)).Pairwise fun c c' =>
          ∀ p, inCell q c.1 false c.2 p = true → inCell q c'.1 false c'.2 p = false := by
        rw [List.pairwise_map]
        refine (List.nodup_range.product hnodup).imp fun hne p hp => Bool.eq_false_iff.mpr fun hp' => hne ?_
        obtain ⟨hstep, hvalue⟩ := inCell_dropped hp
        obtain ⟨hstep', hvalue'⟩ := inCell_dropped hp'
        have hsome : q.breakdown.isSome = true := by rw [hq]; rfl
        apply Prod.ext
        · exact hstep.symm.trans hstep'
        · exact Option.some.inj ((hvalue _ rfl hsome).symm.trans (hvalue' _ rfl hsome))
      have hsum := dropCount_sum mapOrder' h hcells person
      rwa [List.map_map] at hsum

/-- Every entry of a map as it came. -/
def mapOrderKept : MapOrder := ⟨id, fun counts => .refl counts⟩

def paidQuery (limit : Nat) : FunnelsQuery where
  series := [⟨some "signed up", none, fun _ => true⟩, ⟨some "paid", some "Paid", fun _ => true⟩]
  filters _ := true
  breakdown := some ⟨.event fun row => some row.properties, limit⟩
  funnelWindow := 60
  funnelOrder := .ordered
  exclusions := []

/-- The outcomes of two persons, read the other way round for the persons' list. -/
theorem actors_match_swapped : ∃ result, run mapOrderKept (paidQuery 1) [⟨"p", [0, 1], some "a"⟩, ⟨"r", [0], none⟩] = some result ∧
    StepsMatch mapOrderKept (paidQuery 1) [⟨"r", [0], none⟩, ⟨"p", [0, 1], some "a"⟩] none result.steps := by
  obtain ⟨result, hrun, hmatch, -⟩ := @actors_match (paidQuery 1) mapOrderKept mapOrderKept _ _
    (List.Perm.swap ⟨"p", [0, 1], some "a"⟩ ⟨"r", [0], none⟩ [])
  exact ⟨result, hrun, hmatch⟩

end Hoglet.Query.Funnels
