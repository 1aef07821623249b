import Hoglet.Query.Funnels.Exhaustive

/-! Exclusions, steps in any order, and the two shortcuts of the search, the ceiling and the early exit. -/
namespace Hoglet.Query.Funnels
variable {events : List Event} {steps : Nat} {window : Int} {anchor : Fin events.length}

/-! Exclusions. -/

theorem any_slice {start stop : Nat} {p : Event → Bool} :
    ((events.take (max stop (start + 1))).drop (start + 1)).any p = true ↔
      ∃ index : Fin events.length, start < index.val ∧ index.val < stop ∧ p (events.get index) = true := by
  simp only [List.any_eq_true, List.mem_drop_iff_getElem, List.getElem_take, List.length_take]
  constructor
  · rintro ⟨_, ⟨k, hk, rfl⟩, hp⟩
    exact ⟨⟨start + 1 + k, by omega⟩, by simp; omega, by simp; omega, hp⟩
  · rintro ⟨index, hlt, hstop, hp⟩
    have hk : start + 1 + (index.val - (start + 1)) = index.val := by omega
    exact ⟨_, ⟨index.val - (start + 1), by omega, rfl⟩, by simpa [hk] using hp⟩

/-- Where the window of an anchor ends after a position. -/
theorem lt_window_end (hs : events.Pairwise fun a b => a.ts ≤ b.ts) {start index : Fin events.length} (h : start < index) :
    index.val < (((after start.val).find? fun i : Fin events.length => window < (events.get i).ts - (events.get anchor).ts).map
        Fin.val).getD events.length ↔ (events.get index).ts - (events.get anchor).ts ≤ window := by
  cases hfind : (after start.val).find? fun i : Fin events.length => window < (events.get i).ts - (events.get anchor).ts with
  | none =>
    have hin := List.find?_eq_none.mp hfind index (mem_after.mpr h)
    simpa using hin
  | some stop =>
    obtain ⟨hlate, before, rest, hsplit, hbefore⟩ := List.find?_eq_some_iff_append.mp hfind
    have hmem := mem_after.mpr (Fin.lt_def.mp h)
    have hup := after_upward (n := events.length) start.val
    rw [hsplit] at hmem hup
    simp only [Option.map_some, Option.getD_some, decide_eq_true_eq] at hlate ⊢
    constructor
    · intro hlt
      rcases List.mem_append.mp hmem with hmem | hmem
      · simpa using hbefore index hmem
      · have hsorted := (List.pairwise_append.mp hup.sorted).2.1
        rcases List.mem_cons.mp hmem with rfl | hmem
        · exact absurd hlt (lt_irrefl _)
        · exact absurd hlt ((List.pairwise_cons.mp hsorted).1 index hmem).asymm
    · intro hwin
      by_contra hge
      have hts : (events.get stop).ts ≤ (events.get index).ts := by
        rcases Nat.eq_or_lt_of_le (not_lt.mp hge) with heq | hlt
        · rw [Fin.ext heq]
        · exact List.pairwise_iff_getElem.mp hs _ _ _ _ hlt
      omega

theorem tainted_iff (hs : events.Pairwise fun a b => a.ts ≤ b.ts) (exclusions : List Exclusion)
    {positions : List (Fin events.length)} (h : Chain events steps window anchor positions) :
    tainted events window positions exclusions = true ↔ Excluded events window exclusions anchor positions := by
  obtain ⟨tail, rfl⟩ : ∃ tail, positions = anchor :: tail := by
    have hhead := h.head
    cases positions with
    | nil => cases hhead
    | cons first tail =>
      cases hhead
      exact ⟨tail, rfl⟩
  rw [tainted, List.any_eq_true, Excluded]
  refine exists_congr fun exclusion => and_congr_right fun _ => ?_
  cases (anchor :: tail)[exclusion.fromStep]? with
  | none => simp
  | some start =>
    simp only [Option.some.injEq, exists_eq_left', any_slice, decide_eq_true_eq]
    refine exists_congr fun index => and_congr_right fun hlt => ?_
    rw [and_comm]
    refine and_congr_right fun _ => ?_
    cases (anchor :: tail)[exclusion.toStep]? with
    | some last => exact Iff.rfl
    | none => exact lt_window_end hs hlt

/-! Steps in any order. -/

theorem stepBits_testBit {k : Nat} : (stepBits steps).testBit k = decide (k < steps) := by
  rw [stepBits, Nat.one_shiftLeft, Nat.testBit_two_pow_sub_one]

private theorem countP_range {n : Nat} {f g : Nat → Bool} (hn : steps ≤ n) (h : ∀ k < n, f k = (decide (k < steps) && g k)) :
    (List.range n).countP f = (List.range steps).countP g := by
  obtain ⟨m, rfl⟩ := Nat.exists_eq_add_of_le hn
  rw [List.range_add, List.countP_append]
  have hlow : (List.range steps).countP f = (List.range steps).countP g := by
    apply List.countP_congr
    intro k hk
    have hk := List.mem_range.mp hk
    rw [h k (by omega), decide_eq_true hk, Bool.true_and]
  have hhigh : ((List.range m).map (steps + ·)).countP f = 0 := by
    rw [List.countP_eq_zero]
    intro k hk
    obtain ⟨j, hj, rfl⟩ := List.mem_map.mp hk
    have hj := List.mem_range.mp hj
    rw [h _ (by omega), decide_eq_false (by omega)]
    simp
  rw [hlow, hhigh, Nat.add_zero]

/-- The steps an event is the first to cover. -/
private def fresh (events : List Event) (steps : Nat) (done : Nat → Bool) (index : Fin events.length) : Nat :=
  (List.range steps).countP fun step => (events.get index).mask.testBit step && !done step

/-- The times of the steps that a list of events covers anew. -/
private def cover (events : List Event) (steps : Nat) (done : Nat → Bool) : List (Fin events.length) → List Int
  | [] => []
  | index :: rest =>
    List.replicate (fresh events steps done index) (events.get index).ts ++
      cover events steps (fun step => done step || (events.get index).mask.testBit step) rest

private theorem cover_done {done : Nat → Bool} (h : ∀ step < steps, done step = true) (indices : List (Fin events.length)) :
    cover events steps done indices = [] := by
  induction indices generalizing done with
  | nil => rfl
  | cons index rest ih =>
    have hnone : fresh events steps done index = 0 := by
      rw [fresh, List.countP_eq_zero]
      intro step hstep
      simp [h step (List.mem_range.mp hstep)]
    rw [cover, hnone, ih fun step hstep => by rw [h step hstep, Bool.true_or]]
    rfl

/-- The steps that an event covers anew, as the scan's masks have them. -/
private theorem new_spec (hsteps : steps ≤ 64) {covered : Nat} {done : Nat → Bool}
    (hc : ∀ step, covered.testBit step = (decide (step < steps) && done step)) (index : Fin events.length) :
    countOnes ((events.get index).mask &&& stepBits steps &&& ((2^64 - 1) ^^^ covered)) = fresh events steps done index ∧
      ∀ step, (covered ||| (events.get index).mask &&& stepBits steps &&& ((2^64 - 1) ^^^ covered)).testBit step =
        (decide (step < steps) && (done step || (events.get index).mask.testBit step)) := by
  have hbits : ∀ k < 64, ((events.get index).mask &&& stepBits steps &&& ((2^64 - 1) ^^^ covered)).testBit k =
      (decide (k < steps) && ((events.get index).mask.testBit k && !done k)) := fun k hk => by
    rw [Nat.testBit_and, Nat.testBit_and, stepBits_testBit, Nat.testBit_xor, hc, Nat.testBit_two_pow_sub_one, decide_eq_true hk]
    by_cases hstep : k < steps <;> cases done k <;> cases (events.get index).mask.testBit k <;> simp [hstep]
  refine ⟨countP_range hsteps hbits, fun step => ?_⟩
  rw [Nat.testBit_or, hc]
  by_cases hstep : step < steps
  · rw [hbits step (by omega)]
    cases done step <;> cases (events.get index).mask.testBit step <;> simp [hstep]
  · rw [Nat.testBit_and, Nat.testBit_and, stepBits_testBit]
    simp [hstep]

private theorem unorderedFrom_cover (hs : events.Pairwise fun a b => a.ts ≤ b.ts) (hsteps : steps ≤ 64)
    {rest : List (Fin events.length)} (hup : Upward rest) {covered : Nat} {done : Nat → Bool}
    (hc : ∀ step, covered.testBit step = (decide (step < steps) && done step)) (times : List Int) :
    unorderedFrom events steps window (events.get anchor).ts rest covered times = times ++
      cover events steps done (rest.filter fun index => (events.get index).ts - (events.get anchor).ts ≤ window) := by
  induction rest generalizing covered done times with
  | nil => simp [unorderedFrom, cover]
  | cons index rest ih =>
    obtain ⟨hones, hnext⟩ := new_spec hsteps hc index
    rw [unorderedFrom]
    by_cases hstop : covered = stepBits steps ∨ window < (events.get index).ts - (events.get anchor).ts
    · rw [if_pos hstop]
      rcases hstop with hall | hlate
      · -- every step is covered
        rw [cover_done fun step hstep => ?_, List.append_nil]
        have hbit := hc step
        rw [hall, stepBits_testBit, decide_eq_true hstep, Bool.true_and] at hbit
        exact hbit.symm
      · have hnil : (index :: rest).filter (fun i => (events.get i).ts - (events.get anchor).ts ≤ window) = [] := by
          rw [List.filter_eq_nil_iff]
          intro i hi
          have hts : (events.get index).ts ≤ (events.get i).ts := by
            rcases eq_or_lt_of_le (hup.head_le hi) with heq | hlt
            · rw [heq]
            · exact List.pairwise_iff_getElem.mp hs _ _ _ _ hlt
          simp only [decide_eq_true_eq]
          omega
        rw [hnil, cover, List.append_nil]
    · rw [if_neg hstop]
      have hwin : (events.get index).ts - (events.get anchor).ts ≤ window := not_lt.mp fun hlt => hstop (.inr hlt)
      rw [List.filter_cons_of_pos (by simpa using hwin), cover, ← List.append_assoc, ← hones]
      generalize (events.get index).mask &&& stepBits steps &&& ((2^64 - 1) ^^^ covered) = new at hnext
      by_cases hnew : new = 0
      · subst hnew
        have hzero : countOnes 0 = 0 := by decide
        rw [if_neg (not_not.mpr rfl), hzero, List.replicate_zero, List.append_nil]
        exact ih hup.tail (fun step => by rw [← hnext, Nat.or_zero]) times
      · rw [if_pos hnew]
        exact ih hup.tail hnext _

private theorem filterMap_const {α β : Type} {f : α → Option β} {b : β} {l : List α} (h : ∀ a ∈ l, f a = some b) :
    l.filterMap f = List.replicate l.length b := by
  induction l with
  | nil => rfl
  | cons a l ih =>
    rw [List.filterMap_cons_some (h a (List.mem_cons_self ..)), ih fun c hc => h c (List.mem_cons_of_mem _ hc), List.length_cons,
      List.replicate_succ]

/-- The scan covers every step that some event matches, at the first such event. -/
private theorem cover_perm (done : Nat → Bool) (indices : List (Fin events.length)) :
    (cover events steps done indices).Perm (((List.range steps).filter fun step => !done step).filterMap fun step =>
      (indices.find? fun index => (events.get index).mask.testBit step).map fun index => (events.get index).ts) := by
  induction indices generalizing done with
  | nil => simp [cover]
  | cons index rest ih =>
    have hsplit := (List.filter_append_perm (fun step => (events.get index).mask.testBit step)
      ((List.range steps).filter fun step => !done step)).filterMap fun step =>
        ((index :: rest).find? fun index => (events.get index).mask.testBit step).map fun index => (events.get index).ts
    rw [List.filterMap_append, List.filter_filter, List.filter_filter] at hsplit
    refine List.Perm.trans ?_ hsplit
    rw [cover]
    apply List.Perm.append
    · rw [filterMap_const fun step hstep => ?_, fresh, List.countP_eq_length_filter]
      obtain ⟨hbit, -⟩ := Bool.and_eq_true_iff.mp (List.mem_filter.mp hstep).2
      rw [List.find?_cons, hbit, Option.map_some]
    · refine (ih _).trans (List.Perm.of_eq ?_)
      have hfilter : ((List.range steps).filter fun step => !(done step || (events.get index).mask.testBit step)) =
          (List.range steps).filter fun step => !(events.get index).mask.testBit step && !done step := by
        apply List.filter_congr
        intro step _
        rw [Bool.not_or, Bool.and_comm]
      rw [hfilter]
      apply List.filterMap_congr
      intro step hstep
      obtain ⟨hbit, -⟩ := Bool.and_eq_true_iff.mp (List.mem_filter.mp hstep).2
      have hbit : (events.get index).mask.testBit step = false := by
        rwa [Bool.not_eq_true'] at hbit
      rw [List.find?_cons, hbit]

private theorem cover_sorted (done : Nat → Bool) {indices : List (Fin events.length)}
    (h : indices.Pairwise fun i j => (events.get i).ts ≤ (events.get j).ts) : (cover events steps done indices).Pairwise (· ≤ ·) ∧
      ∀ t ∈ cover events steps done indices, ∃ i ∈ indices, (events.get i).ts = t := by
  induction indices generalizing done with
  | nil => simp [cover]
  | cons index rest ih =>
    obtain ⟨hle, hrest⟩ := List.pairwise_cons.mp h
    obtain ⟨hsorted, hmem⟩ := ih (fun step => done step || (events.get index).mask.testBit step) hrest
    rw [cover]
    constructor
    · refine List.pairwise_append.mpr ⟨List.pairwise_replicate.mpr (.inr le_rfl), hsorted, fun t ht t' ht' => ?_⟩
      obtain ⟨i, hi, rfl⟩ := hmem t' ht'
      rw [List.eq_of_mem_replicate ht]
      exact hle i hi
    · intro t ht
      rcases List.mem_append.mp ht with ht | ht
      · exact ⟨index, List.mem_cons_self .., (List.eq_of_mem_replicate ht).symm⟩
      · obtain ⟨i, hi, rfl⟩ := hmem t ht
        exact ⟨i, List.mem_cons_of_mem _ hi, rfl⟩

theorem unorderedTimes_eq (hs : events.Pairwise fun a b => a.ts ≤ b.ts) (hsteps : steps ≤ 64) :
    unorderedTimes events steps window anchor = coverTimes events steps window anchor := by
  have hones : countOnes ((events.get anchor).mask &&& stepBits steps) = fresh events steps (fun _ => false) anchor :=
    countP_range hsteps fun k _ => by
      rw [Nat.testBit_and, stepBits_testBit, Bool.not_false, Bool.and_true, Bool.and_comm]
  have hscan : unorderedTimes events steps window anchor = cover events steps (fun _ => false) (reach events window anchor) := by
    rw [unorderedTimes, unorderedFrom_cover hs hsteps (after_upward _) (fun step => ?_), hones]
    · rfl
    · rw [Nat.testBit_and, stepBits_testBit, Bool.and_comm, Bool.false_or]
  have hsorted : (reach events window anchor).Pairwise fun i j => (events.get i).ts ≤ (events.get j).ts := by
    have hpair : (reach events window anchor).Pairwise (· < ·) :=
      List.pairwise_cons.mpr ⟨fun i hi => mem_after.mp (List.mem_of_mem_filter hi), (after_upward _).sorted.filter _⟩
    exact hpair.imp fun hlt => List.pairwise_iff_getElem.mp hs _ _ _ _ hlt
  have hperm : (cover events steps (fun _ => false) (reach events window anchor)).Perm
      ((List.range steps).filterMap (coveredAt events window anchor)) := by
    have hall : ((List.range steps).filter fun _ => !false) = List.range steps := List.filter_eq_self.mpr fun _ _ => rfl
    rw [← hall]
    exact cover_perm _ _
  rw [hscan, coverTimes]
  exact (hperm.trans (List.mergeSort_perm _ _).symm).eq_of_pairwise' (cover_sorted _ hsorted).1 (List.pairwise_mergeSort' (· ≤ ·) _)

/-! The ceiling. -/

private theorem getD_set_self {l : List (Option Int)} {k : Nat} {t : Option Int} (h : k < l.length) : (l.set k t).getD k none = t := by
  simp [List.getD, h]

private theorem getD_set_ne {l : List (Option Int)} {j k : Nat} {t : Option Int} (h : j ≠ k) :
    (l.set k t).getD j none = l.getD j none := by
  simp [List.getD, List.getElem?_set_ne (Ne.symm h)]

private theorem extendChain_length (event : Event) (chain : List (Option Int)) (step : Nat) :
    (extendChain window event chain step).length = chain.length := by
  rw [extendChain]
  split
  · rfl
  · split_ifs
    · exact List.length_set
    · rfl

/-- What one event makes of a step's latest start. -/
private def extended (window : Int) (event : Event) (chain : List (Option Int)) (step : Nat) : Option Int :=
  match chain.getD (step - 1) none with
  | none => chain.getD step none
  | some start =>
    if event.mask &&& 1 <<< step ≠ 0 ∧ event.ts - start ≤ window then some start else chain.getD step none

private theorem extendChain_getD {event : Event} {chain : List (Option Int)} {step : Nat} (h : step < chain.length) (k : Nat) :
    (extendChain window event chain step).getD k none = if k = step then extended window event chain k else chain.getD k none := by
  rw [extendChain]
  by_cases hk : k = step
  · subst hk
    rw [if_pos rfl, extended]
    cases chain.getD (k - 1) none with
    | none => rfl
    | some start =>
      dsimp only
      split_ifs
      · exact getD_set_self h
      · rfl
  · rw [if_neg hk]
    cases chain.getD (step - 1) none with
    | none => rfl
    | some start =>
      dsimp only
      split_ifs
      · exact getD_set_ne hk
      · rfl

/-- Downwards, each step reads the start that the step before it had before the event. -/
private theorem foldl_extendChain {event : Event} {order : List Nat} (horder : order.Pairwise (· > ·)) {chain : List (Option Int)}
    (h : ∀ step ∈ order, 0 < step ∧ step < chain.length) :
    (order.foldl (extendChain window event) chain).length = chain.length ∧
      ∀ k, (order.foldl (extendChain window event) chain).getD k none =
        if k ∈ order then extended window event chain k else chain.getD k none := by
  induction order generalizing chain with
  | nil => simp
  | cons step rest ih =>
    obtain ⟨hgt, hrest⟩ := List.pairwise_cons.mp horder
    obtain ⟨hpos, hlt⟩ := h step (List.mem_cons_self ..)
    have hbelow : ∀ k ∈ rest, 0 < k ∧ k < (extendChain window event chain step).length := fun k hk => by
      rw [extendChain_length]
      exact h k (List.mem_cons_of_mem _ hk)
    obtain ⟨hlen, hget⟩ := ih hrest hbelow
    rw [extendChain_length] at hlen
    refine ⟨hlen, fun k => ?_⟩
    rw [List.foldl_cons, hget]
    by_cases hk : k ∈ rest
    · have hbelow : k < step := hgt k hk
      rw [if_pos hk, if_pos (List.mem_cons_of_mem _ hk), extended, extended, extendChain_getD hlt, extendChain_getD hlt,
        if_neg (by omega), if_neg (by omega)]
    · rw [if_neg hk, extendChain_getD hlt]
      by_cases hstep : k = step
      · rw [if_pos hstep, if_pos (hstep ▸ List.mem_cons_self ..)]
      · rw [if_neg hstep, if_neg fun hmem => (List.mem_cons.mp hmem).elim hstep hk]

/-- Every chain among the events so far ends in a step whose latest start is not before the chain's. -/
private structure Latest (events : List Event) (steps : Nat) (window : Int) (n : Nat) (chainStart : List (Option Int)) : Prop where
  length : chainStart.length = steps
  start : ∀ anchor positions, (events.get anchor).mask.testBit 0 = true → Chain events steps window anchor positions →
    (∀ i ∈ positions, i.val < n) → ∃ t, chainStart.getD (positions.length - 1) none = some t ∧ (events.get anchor).ts ≤ t

theorem Chain.dropLast {positions : List (Fin events.length)} (h : Chain events steps window anchor positions)
    (hlen : 1 < positions.length) : Chain events steps window anchor positions.dropLast := by
  constructor
  · rw [← h.head, List.head?_eq_getElem?, List.head?_eq_getElem?, List.getElem?_dropLast, if_pos (by omega)]
  · exact h.sorted.sublist (List.dropLast_sublist _)
  · rw [List.length_dropLast]
    exact (Nat.sub_le ..).trans h.length_le
  · intro k hk hpos
    rw [List.length_dropLast] at hk
    rw [List.getElem_dropLast]
    exact h.matched k (by omega) hpos

/-- The latest starts after an event. -/
private theorem chainEvent_getD (event : Event) (window : Int) {chainStart : List (Option Int)} (hlen : chainStart.length = steps) :
    (chainEvent steps window chainStart event).length = steps ∧
      ∀ k < steps, (chainEvent steps window chainStart event).getD k none =
        if k = 0 then if event.mask &&& 1 ≠ 0 then some event.ts else chainStart.getD 0 none
        else extended window event chainStart k := by
  have horder : (List.range' 1 (steps - 1)).reverse.Pairwise (· > ·) := List.pairwise_reverse.mpr (List.pairwise_lt_range' 1)
  have hmem : ∀ k, k ∈ (List.range' 1 (steps - 1)).reverse ↔ 0 < k ∧ k < steps := fun k => by
    rw [List.mem_reverse, List.mem_range'_1]
    omega
  obtain ⟨hfold, hget⟩ : _ ∧ ∀ k, _ := foldl_extendChain horder fun step hstep => hlen ▸ (hmem step).mp hstep
  rw [chainEvent]
  constructor
  · split_ifs
    · rw [List.length_set, hfold, hlen]
    · rw [hfold, hlen]
  · intro k hk
    by_cases hzero : k = 0
    · subst hzero
      have hnot : 0 ∉ (List.range' 1 (steps - 1)).reverse := fun h => absurd ((hmem 0).mp h).1 (lt_irrefl _)
      rw [if_pos rfl]
      split_ifs
      · exact getD_set_self (by rwa [hfold, hlen])
      · rw [hget, if_neg hnot]
    · rw [if_neg hzero, ← if_pos ((hmem k).mpr ⟨Nat.pos_of_ne_zero hzero, hk⟩) (t := extended window event chainStart k), ← hget]
      split_ifs
      · exact getD_set_ne hzero
      · rfl

private theorem Latest.event (hs : events.Pairwise fun a b => a.ts ≤ b.ts) {n : Fin events.length}
    {chainStart : List (Option Int)} (h : Latest events steps window n chainStart) :
    Latest events steps window (n + 1) (chainEvent steps window chainStart (events.get n)) := by
  obtain ⟨hlen, hget⟩ := chainEvent_getD (events.get n) window h.length
  refine ⟨hlen, fun anchor positions hbit hchain hbelow => ?_⟩
  have hpos := hchain.ne_nil
  have hle : (events.get anchor).ts ≤ (events.get n).ts := by
    have hmem : anchor ∈ positions := List.mem_of_mem_head? (hchain.head ▸ rfl)
    rcases Nat.lt_succ_iff_lt_or_eq.mp (hbelow anchor hmem) with hlt | heq
    · exact List.pairwise_iff_getElem.mp hs _ _ _ _ hlt
    · rw [Fin.ext heq]
  -- either the chain is older than the event, or the event is its last
  have hlast : (∃ t, chainStart.getD (positions.length - 1) none = some t ∧ (events.get anchor).ts ≤ t) ∨
      positions[positions.length - 1] = n := by
    by_cases hold : ∀ i ∈ positions, i.val < n.val
    · exact .inl (h.start anchor positions hbit hchain hold)
    · push Not at hold
      obtain ⟨i, hi, hge⟩ := hold
      obtain ⟨k, hk, rfl⟩ := List.mem_iff_getElem.mp hi
      refine .inr (Fin.ext ?_)
      have hmax := hbelow _ (List.getElem_mem (show positions.length - 1 < positions.length by omega))
      rcases Nat.lt_or_ge k (positions.length - 1) with hlt | hge'
      · have := Fin.lt_def.mp (List.pairwise_iff_getElem.mp hchain.sorted k (positions.length - 1) hk (by omega) hlt)
        omega
      · obtain rfl : k = positions.length - 1 := by omega
        omega
  rw [hget _ (by have := hchain.length_le; omega)]
  by_cases hone : positions.length - 1 = 0
  · rw [if_pos hone]
    split_ifs with hmask
    · exact ⟨_, rfl, hle⟩
    · rcases hlast with hold | hnew
      · rwa [hone] at hold
      · have hhead := hchain.head
        rw [List.head?_eq_getElem?, List.getElem?_eq_getElem hpos, Option.some.injEq] at hhead
        simp only [hone] at hnew
        rw [← hnew, hhead] at hmask
        exact absurd (mask_bit.mpr hbit) hmask
  · rw [if_neg hone]
    have hshort := h.start anchor positions.dropLast hbit (hchain.dropLast (by omega)) fun i hi => by
      obtain ⟨k, hk, rfl⟩ := List.mem_iff_getElem.mp hi
      rw [List.length_dropLast] at hk
      rw [List.getElem_dropLast]
      have hlt := Fin.lt_def.mp (List.pairwise_iff_getElem.mp hchain.sorted k (positions.length - 1) (by omega) (by omega) hk)
      have hmax := hbelow _ (List.getElem_mem (show positions.length - 1 < positions.length by omega))
      omega
    obtain ⟨t, hprev, hts⟩ := hshort
    rw [List.length_dropLast] at hprev
    rw [extended, hprev]
    dsimp only
    split_ifs with hext
    · exact ⟨t, rfl, hts⟩
    · rcases hlast with hold | hnew
      · exact hold
      · obtain ⟨hmatch, hwin⟩ := hchain.matched (positions.length - 1) (by omega) (by omega)
        rw [hnew] at hmatch hwin
        exact absurd ⟨mask_bit.mpr hmatch, by omega⟩ hext

private theorem latest_all (hs : events.Pairwise fun a b => a.ts ≤ b.ts) :
    Latest events steps window events.length (events.foldl (chainEvent steps window) (List.replicate steps none)) := by
  have hprefix : ∀ n ≤ events.length,
      Latest events steps window n ((events.take n).foldl (chainEvent steps window) (List.replicate steps none)) := by
    intro n
    induction n with
    | zero =>
      refine fun _ => ⟨List.length_replicate, fun anchor positions _ hchain hbelow => ?_⟩
      have hmem : anchor ∈ positions := List.mem_of_mem_head? (hchain.head ▸ rfl)
      exact absurd (hbelow anchor hmem) (Nat.not_lt_zero _)
    | succ n ih =>
      intro hn
      rw [List.take_succ_eq_append_getElem hn, List.foldl_append]
      exact (ih (by omega)).event hs (n := ⟨n, hn⟩)
  have h := hprefix events.length le_rfl
  rwa [List.take_length] at h

/-- No ordered attempt is deeper than the ceiling. -/
theorem Chain.length_le_maxDepth (hs : events.Pairwise fun a b => a.ts ≤ b.ts) (hbit : (events.get anchor).mask.testBit 0 = true)
    {positions : List (Fin events.length)} (h : Chain events steps window anchor positions) :
    positions.length ≤ orderedMaxDepth events steps window := by
  obtain ⟨t, hstart, -⟩ := (latest_all hs).start anchor positions hbit h fun i _ => i.isLt
  have hpos := h.ne_nil
  have hle := h.length_le
  rw [orderedMaxDepth]
  cases hfind : (List.range steps).reverse.find? fun step =>
      ((events.foldl (chainEvent steps window) (List.replicate steps none)).getD step none).isSome with
  | none =>
    have hnone := List.find?_eq_none.mp hfind (positions.length - 1) (by rw [List.mem_reverse, List.mem_range]; omega)
    rw [hstart] at hnone
    simp at hnone
  | some step =>
    obtain ⟨-, before, rest, hsplit, hbefore⟩ := List.find?_eq_some_iff_append.mp hfind
    simp only [Option.map_some, Option.getD_some]
    by_contra hlt
    have horder : (List.range steps).reverse.Pairwise (· > ·) := List.pairwise_reverse.mpr List.pairwise_lt_range
    have hmem : positions.length - 1 ∈ (List.range steps).reverse := by
      rw [List.mem_reverse, List.mem_range]
      omega
    rw [hsplit] at horder hmem
    rcases List.mem_append.mp hmem with hmem | hmem
    · have hnone := hbefore _ hmem
      rw [hstart] at hnone
      simp at hnone
    · have hsorted := (List.pairwise_append.mp horder).2.1
      rcases List.mem_cons.mp hmem with heq | hmem
      · omega
      · have := (List.pairwise_cons.mp hsorted).1 _ hmem
        omega

/-! The search. -/

/-- What the loop tries at an anchor. -/
private def Tried (events : List Event) (steps : Nat) (window : Int) (order : FunnelOrder) (exclusions : List Exclusion)
    (anchor : Fin events.length) (times : List Int) : Prop :=
  (events.get anchor).mask &&& anchorBits steps order ≠ 0 ∧ attemptTimes events steps window order exclusions anchor = some times

/-- The best attempt from the anchors of a kind. -/
private def Leads (events : List Event) (tried : Fin events.length → List Int → Prop) (P : Fin events.length → Prop) :
    Option Attempt → Prop
  | none => ∀ anchor times, P anchor → ¬ tried anchor times
  | some best =>
    (∃ anchor, best.anchor = anchor.val ∧ P anchor ∧ tried anchor best.times) ∧ ∀ anchor times, P anchor → tried anchor times →
      times.length < best.times.length ∨ times.length = best.times.length ∧ best.anchor ≤ anchor.val

private theorem Leads.congr {tried : Fin events.length → List Int → Prop} {P Q : Fin events.length → Prop} {best : Option Attempt}
    (h : Leads events tried P best) (hPQ : ∀ anchor, P anchor → Q anchor)
    (hQ : ∀ anchor times, Q anchor → tried anchor times → P anchor) : Leads events tried Q best := by
  cases best with
  | none => exact fun anchor times hq ht => h anchor times (hQ anchor times hq ht) ht
  | some best =>
    obtain ⟨⟨anchor, heq, hp, ht⟩, hmax⟩ := h
    exact ⟨⟨anchor, heq, hPQ anchor hp, ht⟩, fun other times hq ht => hmax other times (hQ other times hq ht) ht⟩

/-- One more attempt, from an anchor after all others. -/
private theorem Leads.improve {tried : Fin events.length → List Int → Prop} {P Q : Fin events.length → Prop} {best : Option Attempt}
    (h : Leads events tried P best) {times : List Int} (ht : tried anchor times) (hbefore : ∀ i, P i → i ≤ anchor)
    (hq : ∀ i, Q i ↔ P i ∨ i = anchor) (hone : ∀ other, tried anchor other → other = times) :
    Leads events tried Q (if best.all fun best => best.times.length < times.length then some ⟨anchor, times⟩ else best) := by
  cases best with
  | none =>
    rw [Option.all_none, if_pos rfl]
    refine ⟨⟨anchor, rfl, (hq anchor).mpr (.inr rfl), ht⟩, fun i other hi hother => ?_⟩
    rcases (hq i).mp hi with hp | rfl
    · exact absurd hother (h i other hp)
    · exact .inr ⟨congrArg List.length (hone other hother), le_rfl⟩
  | some best =>
    obtain ⟨⟨at', heq, hp, hbest⟩, hmax⟩ := h
    rw [Option.all_some]
    split_ifs with hdeeper
    · have hdeeper : best.times.length < times.length := of_decide_eq_true hdeeper
      refine ⟨⟨anchor, rfl, (hq anchor).mpr (.inr rfl), ht⟩, fun i other hi hother => ?_⟩
      rcases (hq i).mp hi with hp | rfl
      · left
        dsimp only
        rcases hmax i other hp hother with hlt | ⟨hlen, -⟩ <;> omega
      · exact .inr ⟨congrArg List.length (hone other hother), le_rfl⟩
    · have hdeeper : times.length ≤ best.times.length := not_lt.mp fun hlt => hdeeper (decide_eq_true hlt)
      refine ⟨⟨at', heq, (hq at').mpr (.inl hp), hbest⟩, fun i other hi hother => ?_⟩
      rcases (hq i).mp hi with hp' | rfl
      · exact hmax i other hp' hother
      · rw [hone other hother]
        rcases Nat.lt_or_eq_of_le hdeeper with hlt | hlen
        · exact .inl hlt
        · exact .inr ⟨hlen, heq ▸ hbefore at' hp⟩

/-- Where the rest are later and no deeper, the search may stop. -/
private theorem Leads.exit {tried : Fin events.length → List Int → Prop} {rest : List (Fin events.length)} {best : Option Attempt}
    (h : Leads events tried (· ∉ rest) best) {times : List Int} (ht : tried anchor times) (hnot : anchor ∉ rest)
    (hrest : ∀ i other, i ∈ rest → tried i other → other.length ≤ times.length ∧ anchor < i) :
    Leads events tried (fun _ => True) best := by
  cases best with
  | none => exact absurd ht (h anchor times hnot)
  | some best =>
    obtain ⟨⟨at', heq, -, hbest⟩, hmax⟩ := h
    refine ⟨⟨at', heq, trivial, hbest⟩, fun i other _ hother => ?_⟩
    by_cases hi : i ∈ rest
    · obtain ⟨hlen, hlt⟩ := hrest i other hi hother
      have hlt := Fin.lt_def.mp hlt
      rcases hmax anchor times hnot ht with hdeeper | ⟨hequal, hbefore⟩ <;> omega
    · exact hmax i other hi hother

private theorem Leads.unique {tried : Fin events.length → List Int → Prop} {P : Fin events.length → Prop}
    {best other : Option Attempt} (h : Leads events tried P best) (hone : ∀ i t t', tried i t → tried i t' → t = t')
    (h' : Leads events tried P other) : best = other := by
  cases best with
  | none =>
    cases other with
    | none => rfl
    | some other =>
      obtain ⟨⟨i, -, hp, ht⟩, -⟩ := h'
      exact absurd ht (h i _ hp)
  | some best =>
    obtain ⟨⟨i, hi, hp, ht⟩, hmax⟩ := h
    cases other with
    | none => exact absurd ht (h' i _ hp)
    | some other =>
      obtain ⟨⟨j, hj, hp', ht'⟩, hmax'⟩ := h'
      have hle := hmax j _ hp' ht'
      have hge := hmax' i _ hp ht
      have hanchor : best.anchor = other.anchor := by omega
      have hij : i = j := Fin.ext (by omega)
      subst hij
      cases best
      cases other
      simp only at hanchor ht ht'
      rw [hanchor, hone i _ _ ht ht']

private theorem bestFrom_leads {order : FunnelOrder} {exclusions : List Exclusion}
    (hceiling : ∀ anchor times, Tried events steps window order exclusions anchor times →
      times.length ≤ ceiling events steps window order)
    {rest : List (Fin events.length)} (hup : Upward rest) {best : Option Attempt}
    (h : Leads events (Tried events steps window order exclusions) (· ∉ rest) best) :
    Leads events (Tried events steps window order exclusions) (fun _ => True)
      (bestFrom events steps window order exclusions rest best) := by
  induction rest generalizing best with
  | nil => exact h.congr (fun _ _ => trivial) fun _ _ _ _ => List.not_mem_nil
  | cons anchor rest ih =>
    have hnot : anchor ∉ rest := fun hmem => absurd ((List.pairwise_cons.mp hup.sorted).1 anchor hmem) (lt_irrefl _)
    have hskip : (∀ times, ¬ Tried events steps window order exclusions anchor times) →
        Leads events (Tried events steps window order exclusions) (· ∉ rest) best := fun hnone =>
      h.congr (fun i hi hmem => hi (List.mem_cons_of_mem _ hmem)) fun i times hi ht hmem =>
        (List.mem_cons.mp hmem).elim (fun heq => hnone times (heq ▸ ht)) hi
    rw [bestFrom]
    by_cases hbits : (events.get anchor).mask &&& anchorBits steps order = 0
    · rw [if_pos hbits]
      exact ih hup.tail (hskip fun _ ht => ht.1 hbits)
    · rw [if_neg hbits]
      cases htimes : attemptTimes events steps window order exclusions anchor with
      | none => exact ih hup.tail (hskip fun times ht => by rw [ht.2] at htimes; cases htimes)
      | some times =>
        have htried : Tried events steps window order exclusions anchor times := ⟨hbits, htimes⟩
        have hnext := h.improve (Q := (· ∉ rest)) htried (fun i hi => ?_) (fun i => ?_) fun other hother => ?_
        · dsimp only
          generalize (if best.all fun best => best.times.length < times.length then some ⟨anchor, times⟩ else best) = best' at hnext
          split_ifs with hexit
          · exact hnext.exit htried hnot fun i other hi hother =>
              ⟨(hceiling i other hother).trans hexit, (List.pairwise_cons.mp hup.sorted).1 i hi⟩
          · exact ih hup.tail hnext
        · by_contra hlt
          exact hi (hup.closed anchor (List.mem_cons_self ..) i (not_le.mp hlt))
        · rw [List.mem_cons, not_or]
          constructor
          · intro hi
            by_cases heq : i = anchor
            · exact .inr heq
            · exact .inl ⟨heq, hi⟩
          · rintro (⟨-, hi⟩ | rfl)
            · exact hi
            · exact hnot
        · exact Option.some.inj (hother.2.symm.trans htimes)

private theorem mask_zero {mask : Nat} : mask &&& 1 ≠ 0 ↔ mask.testBit 0 = true := by
  rw [show 1 = 1 <<< 0 from rfl, mask_bit]

/-- What the search tries at an anchor are the attempts from it. -/
private theorem tried_iff (hs : events.Pairwise fun a b => a.ts ≤ b.ts) (hsteps : 1 ≤ steps) (hmax : steps ≤ 64)
    {order : FunnelOrder} {exclusions : List Exclusion} {times : List Int} :
    Tried events steps window order exclusions anchor times ↔ AttemptAt events steps window order exclusions anchor times := by
  have hsurviving : ∀ {P : List (Fin events.length) → Prop} {positions : List (Fin events.length)}, Longest P positions →
      (∀ other, P other → Chain events steps window anchor other) →
      ((events.get anchor).mask &&& 1 ≠ 0 ∧ (if tainted events window positions exclusions then none
          else some (positions.map fun index => (events.get index).ts)) = some times ↔
        (events.get anchor).mask.testBit 0 = true ∧ ∃ positions, Longest P positions ∧
          ¬ Excluded events window exclusions anchor positions ∧ times = positions.map fun index => (events.get index).ts) := by
    intro P positions hlongest hchain
    refine and_congr mask_zero ?_
    have htaint := tainted_iff hs exclusions (hchain positions hlongest.holds)
    constructor
    · intro heq
      split_ifs at heq with htainted
      exact ⟨positions, hlongest, fun hex => htainted (htaint.mpr hex), (Option.some.inj heq).symm⟩
    · rintro ⟨other, hother, hex, rfl⟩
      have hlen : other.length = positions.length :=
        le_antisymm (hlongest.longest other hother.holds) (hother.longest positions hlongest.holds)
      obtain rfl : positions = other :=
        le_antisymm (hlongest.smallest other hother.holds hlen) (hother.smallest positions hlongest.holds hlen.symm)
      rw [if_neg fun htainted => hex (htaint.mp htainted)]
  cases order with
  | ordered => exact hsurviving (orderedPositions_longest hs hsteps) fun _ h => h
  | strict => exact hsurviving (strictPositions_longest hsteps) fun _ h => h.toChain
  | unordered =>
    have hbits : (events.get anchor).mask &&& stepBits steps ≠ 0 ↔ ∃ step < steps, (events.get anchor).mask.testBit step = true := by
      constructor
      · intro hne
        obtain ⟨step, hstep⟩ := Nat.exists_testBit_of_ne_zero hne
        rw [Nat.testBit_and, stepBits_testBit, Bool.and_eq_true, decide_eq_true_eq] at hstep
        exact ⟨step, hstep.2, hstep.1⟩
      · rintro ⟨step, hlt, hstep⟩ hzero
        have hbit := congrArg (Nat.testBit · step) hzero
        rw [Nat.testBit_and, stepBits_testBit, hstep, decide_eq_true hlt, Nat.zero_testBit] at hbit
        cases hbit
    refine and_congr hbits ?_
    rw [attemptTimes, Option.some.injEq, unorderedTimes_eq hs hmax, eq_comm]

private theorem tried_length (hs : events.Pairwise fun a b => a.ts ≤ b.ts) (hsteps : 1 ≤ steps) (hmax : steps ≤ 64)
    {order : FunnelOrder} {exclusions : List Exclusion} {times : List Int}
    (h : Tried events steps window order exclusions anchor times) : times.length ≤ ceiling events steps window order := by
  have hattempt := (tried_iff hs hsteps hmax).mp h
  cases order with
  | ordered =>
    obtain ⟨hbit, positions, hlongest, -, rfl⟩ := hattempt
    rw [List.length_map]
    exact hlongest.holds.length_le_maxDepth hs hbit
  | strict =>
    obtain ⟨-, positions, hlongest, -, rfl⟩ := hattempt
    rw [List.length_map]
    exact hlongest.holds.length_le
  | unordered =>
    obtain ⟨-, rfl⟩ := hattempt
    rw [coverTimes, List.length_mergeSort]
    exact (List.length_filterMap_le _ _).trans_eq List.length_range

end Hoglet.Query.Funnels
