import Hoglet.Query.Funnels.Attempt

/-! What a counting attempt is, by search over all attempts, and that one scan from each anchor finds it. -/
namespace Hoglet.Query.Funnels

/-- `event.mask & (1 << step) != 0`. -/
theorem mask_bit {mask step : Nat} : mask &&& 1 <<< step ≠ 0 ↔ mask.testBit step = true := by
  rw [Nat.one_shiftLeft, Nat.and_two_pow]
  cases mask.testBit step <;> simp

section spec
variable (events : List Event) (steps : Nat) (window : Int)

/-- Later events that match the next steps, within the window of the anchor. -/
structure Chain (anchor : Fin events.length) (positions : List (Fin events.length)) : Prop where
  head : positions.head? = some anchor
  sorted : positions.Pairwise (· < ·)
  length_le : positions.length ≤ steps
  matched : ∀ k (hk : k < positions.length), 0 < k →
    (events.get positions[k]).mask.testBit k = true ∧ (events.get positions[k]).ts - (events.get anchor).ts ≤ window

/-- A chain of consecutive events. -/
structure StrictChain (anchor : Fin events.length) (positions : List (Fin events.length)) : Prop
    extends Chain events steps window anchor positions where
  adjacent : ∀ k (hk : k < positions.length), positions[k].val = anchor.val + k

/-- The longest of these lists of positions, ties going to the smallest positions. -/
structure Longest {n : Nat} (P : List (Fin n) → Prop) (positions : List (Fin n)) : Prop where
  holds : P positions
  longest : ∀ other, P other → other.length ≤ positions.length
  smallest : ∀ other, P other → other.length = positions.length → positions ≤ other

/-- An exclusion event strictly between the positions of its two steps, or up to the window's end. -/
def Excluded (exclusions : List Exclusion) (anchor : Fin events.length) (positions : List (Fin events.length)) : Prop :=
  ∃ exclusion ∈ exclusions, ∃ start, positions[exclusion.fromStep]? = some start ∧ ∃ index : Fin events.length,
    start < index ∧ (events.get index).mask &&& exclusion.bit ≠ 0 ∧
      match positions[exclusion.toStep]? with
      | some last => index < last
      | none => (events.get index).ts - (events.get anchor).ts ≤ window

/-- The anchor, and the later events within its window. -/
def reach (anchor : Fin events.length) : List (Fin events.length) :=
  anchor :: (after anchor).filter fun index => (events.get index).ts - (events.get anchor).ts ≤ window

/-- When a step is first covered, if it is. -/
def coveredAt (anchor : Fin events.length) (step : Nat) : Option Int :=
  ((reach events window anchor).find? fun index => (events.get index).mask.testBit step).map fun index => (events.get index).ts

/-- The distinct steps covered, by the time each is first covered. -/
def coverTimes (anchor : Fin events.length) : List Int :=
  ((List.range steps).filterMap (coveredAt events window anchor)).mergeSort (· ≤ ·)

/-- The attempt from an anchor, not excluded, has these times. Exclusions are about steps in order; a query that asks
for steps in any order has none. -/
def AttemptAt (order : FunnelOrder) (exclusions : List Exclusion) (anchor : Fin events.length) (times : List Int) : Prop :=
  let surviving (P : List (Fin events.length) → Prop) : Prop :=
    (events.get anchor).mask.testBit 0 = true ∧ ∃ positions, Longest P positions ∧
      ¬ Excluded events window exclusions anchor positions ∧ times = positions.map fun index => (events.get index).ts
  match order with
  | .ordered => surviving (Chain events steps window anchor)
  | .strict => surviving (StrictChain events steps window anchor)
  | .unordered => (∃ step < steps, (events.get anchor).mask.testBit step = true) ∧ times = coverTimes events steps window anchor

/-- The deepest attempt, ties going to the earliest anchor. -/
def Exhaustive (order : FunnelOrder) (exclusions : List Exclusion) : Option Attempt → Prop
  | none => ∀ anchor times, ¬ AttemptAt events steps window order exclusions anchor times
  | some best =>
    (∃ anchor, best.anchor = anchor.val ∧ AttemptAt events steps window order exclusions anchor best.times) ∧
      ∀ anchor times, AttemptAt events steps window order exclusions anchor times →
        times.length < best.times.length ∨ times.length = best.times.length ∧ best.anchor ≤ anchor.val

end spec

/-! The scans. -/
section greedy
variable {events : List Event} {steps : Nat} {window : Int}

/-- Increasing indices that go on to the end. -/
structure Upward {n : Nat} (indices : List (Fin n)) : Prop where
  sorted : indices.Pairwise (· < ·)
  closed : ∀ i ∈ indices, ∀ j, i < j → j ∈ indices

theorem Upward.tail {n : Nat} {index : Fin n} {rest : List (Fin n)} (h : Upward (index :: rest)) : Upward rest := by
  obtain ⟨hlt, hrest⟩ := List.pairwise_cons.mp h.sorted
  refine ⟨hrest, fun i hi j hij => ?_⟩
  have hj := h.closed i (List.mem_cons_of_mem _ hi) j hij
  exact (List.mem_cons.mp hj).resolve_left fun heq => absurd (heq ▸ hij) (hlt i hi).asymm

theorem mem_after {n : Nat} {index : Nat} {i : Fin n} : i ∈ after index ↔ index < i.val := by
  rw [after, List.mem_drop_iff_getElem]
  constructor
  · rintro ⟨k, hk, rfl⟩
    simp
    omega
  · intro h
    exact ⟨i.val - (index + 1), by simp; omega, by ext; simp; omega⟩

theorem after_upward {n : Nat} (index : Nat) : Upward (after (n := n) index) := by
  constructor
  · exact (List.pairwise_lt_finRange n).sublist (List.drop_sublist _ _)
  · intro i hi j hij
    rw [mem_after] at hi ⊢
    exact hi.trans hij

theorem finRange_upward {n : Nat} : Upward (List.finRange n) :=
  ⟨List.pairwise_lt_finRange n, fun _ _ j _ => List.mem_finRange j⟩

variable {anchor : Fin events.length}

theorem Chain.single (hsteps : 1 ≤ steps) : Chain events steps window anchor [anchor] := by
  refine ⟨rfl, List.pairwise_singleton _ _, hsteps, fun k hk hpos => ?_⟩
  rw [List.length_singleton] at hk
  omega

theorem Chain.ne_nil {positions : List (Fin events.length)} (h : Chain events steps window anchor positions) :
    0 < positions.length := by
  have hhead := h.head
  cases positions with
  | nil => cases hhead
  | cons => exact Nat.succ_pos _

theorem Chain.append {positions : List (Fin events.length)} (h : Chain events steps window anchor positions)
    {index : Fin events.length} (hlt : ∀ i ∈ positions, i < index) (hlen : positions.length < steps)
    (hbit : (events.get index).mask.testBit positions.length = true) (hwin : (events.get index).ts - (events.get anchor).ts ≤ window) :
    Chain events steps window anchor (positions ++ [index]) := by
  constructor
  · rw [List.head?_append, h.head]
    rfl
  · rw [List.pairwise_append]
    exact ⟨h.sorted, List.pairwise_singleton _ _, fun i hi j hj => List.mem_singleton.mp hj ▸ hlt i hi⟩
  · rw [List.length_append, List.length_singleton]
    exact hlen
  · intro k hk hpos
    rw [List.length_append, List.length_singleton] at hk
    rcases Nat.lt_or_ge k positions.length with hk' | hk'
    · rw [List.getElem_append_left hk']
      exact h.matched k hk' hpos
    · obtain rfl : k = positions.length := by omega
      simp only [List.getElem_concat_length]
      exact ⟨hbit, hwin⟩

/-- What the scan has so far is a chain that no other is before, and the others go on among the rest. -/
structure Ahead (anchor : Fin events.length) (steps : Nat) (window : Int) (rest positions : List (Fin events.length)) : Prop where
  chain : Chain events steps window anchor positions
  before : ∀ i ∈ positions, ∀ j ∈ rest, i < j
  below : ∀ other, Chain events steps window anchor other → ∀ k (h : k < positions.length) (h' : k < other.length),
    positions[k] ≤ other[k]
  onward : ∀ other, Chain events steps window anchor other → ∀ h : positions.length < other.length, other[positions.length] ∈ rest

theorem Upward.head_le {n : Nat} {index i : Fin n} {rest : List (Fin n)} (h : Upward (index :: rest)) (hi : i ∈ index :: rest) :
    index ≤ i := by
  rcases List.mem_cons.mp hi with rfl | hi
  · exact le_rfl
  · exact ((List.pairwise_cons.mp h.sorted).1 i hi).le

theorem Ahead.take {index : Fin events.length} {rest positions : List (Fin events.length)} (hup : Upward (index :: rest))
    (h : Ahead anchor steps window (index :: rest) positions) (hlen : positions.length < steps)
    (hbit : (events.get index).mask.testBit positions.length = true) (hwin : (events.get index).ts - (events.get anchor).ts ≤ window) :
    Ahead anchor steps window rest (positions ++ [index]) := by
  constructor
  · exact h.chain.append (fun i hi => h.before i hi index (List.mem_cons_self ..)) hlen hbit hwin
  · intro i hi j hj
    rcases List.mem_append.mp hi with hi | hi
    · exact h.before i hi j (List.mem_cons_of_mem _ hj)
    · rw [List.mem_singleton.mp hi]
      exact (List.pairwise_cons.mp hup.sorted).1 j hj
  · intro other hother k hk hk'
    rw [List.length_append, List.length_singleton] at hk
    rcases Nat.lt_or_ge k positions.length with hlt | hge
    · rw [List.getElem_append_left hlt]
      exact h.below other hother k hlt hk'
    · obtain rfl : k = positions.length := by omega
      simp only [List.getElem_concat_length]
      exact hup.head_le (h.onward other hother hk')
  · intro other hother hlt
    simp only [List.length_append, List.length_singleton] at hlt ⊢
    -- the one after a member of the rest is a later member of it
    have hmem := h.onward other hother (by omega)
    have hnext := List.pairwise_iff_getElem.mp hother.sorted positions.length (positions.length + 1) (by omega) hlt (by omega)
    refine (List.mem_cons.mp (hup.closed _ hmem _ hnext)).resolve_left fun heq => ?_
    exact absurd (heq ▸ hnext) (not_lt.mpr (hup.head_le hmem))

theorem Ahead.skip {index : Fin events.length} {rest positions : List (Fin events.length)}
    (h : Ahead anchor steps window (index :: rest) positions) (hbit : ¬ (events.get index).mask.testBit positions.length = true) :
    Ahead anchor steps window rest positions := by
  refine ⟨h.chain, fun i hi j hj => h.before i hi j (List.mem_cons_of_mem _ hj), h.below, fun other hother hlt => ?_⟩
  refine (List.mem_cons.mp (h.onward other hother hlt)).resolve_left fun heq => hbit ?_
  have hmatched := (hother.matched _ hlt h.chain.ne_nil).1
  rwa [heq] at hmatched

/-- No chain is longer than the scan's, or has an earlier position. -/
theorem orderedFrom_least (hs : events.Pairwise fun a b => a.ts ≤ b.ts) {rest positions : List (Fin events.length)}
    (hup : Upward rest) (h : Ahead anchor steps window rest positions) :
    Chain events steps window anchor (orderedFrom events steps window (events.get anchor).ts rest positions) ∧
      ∀ other, Chain events steps window anchor other →
        other.length ≤ (orderedFrom events steps window (events.get anchor).ts rest positions).length ∧
          ∀ k (hk : k < (orderedFrom events steps window (events.get anchor).ts rest positions).length) (hk' : k < other.length),
            (orderedFrom events steps window (events.get anchor).ts rest positions)[k] ≤ other[k] := by
  induction rest generalizing positions with
  | nil =>
    refine ⟨h.chain, fun other hother => ⟨?_, h.below other hother⟩⟩
    by_contra hlt
    cases h.onward other hother (not_le.mp hlt)
  | cons index rest ih =>
    rw [orderedFrom]
    split_ifs with hstop hbit
    · refine ⟨h.chain, fun other hother => ⟨?_, h.below other hother⟩⟩
      rcases hstop with hfull | hlate
      · exact hfull ▸ hother.length_le
      · -- every later event is past the window too
        by_contra hlt
        have hlt := not_le.mp hlt
        have hle := hup.head_le (h.onward other hother hlt)
        have hwin := (hother.matched _ hlt h.chain.ne_nil).2
        have hts : (events.get index).ts ≤ (events.get other[positions.length]).ts := by
          rcases eq_or_lt_of_le hle with heq | hlt'
          · rw [← heq]
          · exact List.pairwise_iff_getElem.mp hs _ _ _ _ hlt'
        omega
    · have hlen : positions.length < steps := lt_of_le_of_ne h.chain.length_le fun heq => hstop (.inl heq)
      have hwin : (events.get index).ts - (events.get anchor).ts ≤ window := not_lt.mp fun hlt => hstop (.inr hlt)
      exact ih hup.tail (h.take hup hlen (mask_bit.mp hbit) hwin)
    · exact ih hup.tail (h.skip fun htest => hbit (mask_bit.mpr htest))

private theorem le_of_pointwise {α : Type} [LinearOrder α] {l l' : List α} (hlen : l.length = l'.length)
    (h : ∀ k (hk : k < l.length) (hk' : k < l'.length), l[k] ≤ l'[k]) : l ≤ l' := by
  induction l generalizing l' with
  | nil =>
    cases l' with
    | nil => exact le_rfl
    | cons => cases hlen
  | cons a l ih =>
    cases l' with
    | nil => cases hlen
    | cons b l' =>
      rcases lt_or_eq_of_le (h 0 (Nat.succ_pos _) (Nat.succ_pos _)) with hlt | heq
      · exact le_of_lt (List.Lex.rel hlt)
      · rw [show a = b from heq]
        exact List.cons_le_cons b (ih (Nat.succ.inj hlen) fun k hk hk' => h (k + 1) (Nat.succ_lt_succ hk) (Nat.succ_lt_succ hk'))

theorem orderedPositions_longest (hs : events.Pairwise fun a b => a.ts ≤ b.ts) (hsteps : 1 ≤ steps) :
    Longest (Chain events steps window anchor) (orderedPositions events steps window anchor) := by
  have hahead : Ahead anchor steps window (after anchor) [anchor] := by
    refine ⟨Chain.single hsteps, fun i hi j hj => ?_, fun other hother k hk hk' => ?_, fun other hother hlt => ?_⟩
    · rw [List.mem_singleton.mp hi]
      exact mem_after.mp hj
    · obtain rfl : k = 0 := by
        rw [List.length_singleton] at hk
        omega
      have hhead := hother.head
      rw [List.head?_eq_getElem?, List.getElem?_eq_getElem hk', Option.some.injEq] at hhead
      exact hhead.ge
    · have hhead := hother.head
      rw [List.head?_eq_getElem?, List.getElem?_eq_getElem hother.ne_nil, Option.some.injEq] at hhead
      have hnext := List.pairwise_iff_getElem.mp hother.sorted 0 1 hother.ne_nil hlt Nat.one_pos
      rw [hhead] at hnext
      exact mem_after.mpr hnext
  obtain ⟨hchain, hleast⟩ := orderedFrom_least hs (after_upward _) hahead
  exact ⟨hchain, fun other hother => (hleast other hother).1, fun other hother hlen =>
    le_of_pointwise hlen.symm fun k hk hk' => (hleast other hother).2 k hk hk'⟩

/-! Consecutive events. -/

theorem StrictChain.eq_of_length {positions other : List (Fin events.length)} (h : StrictChain events steps window anchor positions)
    (hother : StrictChain events steps window anchor other) (hlen : other.length = positions.length) : positions = other := by
  apply List.ext_getElem hlen.symm
  intro k hk hk'
  exact Fin.ext ((h.adjacent k hk).trans (hother.adjacent k hk').symm)

theorem strictFrom_longest {rest positions : List (Fin events.length)} (hup : Upward rest)
    (hrest : ∀ i, i ∈ rest ↔ anchor.val + positions.length ≤ i.val) (h : StrictChain events steps window anchor positions) :
    StrictChain events steps window anchor (strictFrom events steps window (events.get anchor).ts rest positions) ∧
      ∀ other, StrictChain events steps window anchor other →
        other.length ≤ (strictFrom events steps window (events.get anchor).ts rest positions).length := by
  induction rest generalizing positions with
  | nil =>
    refine ⟨h, fun other hother => ?_⟩
    by_contra hlt
    have hlt : positions.length < other.length := not_le.mp hlt
    cases (hrest other[positions.length]).mpr (hother.adjacent _ hlt).ge
  | cons index rest ih =>
    have hle : anchor.val + positions.length ≤ index.val := (hrest index).mp (List.mem_cons_self ..)
    have hindex : index.val = anchor.val + positions.length := by
      have hmem := (hrest ⟨anchor.val + positions.length, hle.trans_lt index.isLt⟩).mpr le_rfl
      exact le_antisymm (hup.head_le hmem) hle
    rw [strictFrom]
    split_ifs with hnext
    · obtain ⟨hlen, hwin, hbit⟩ := hnext
      have hlt : ∀ i ∈ positions, i < index := fun i hi => by
        obtain ⟨k, hk, rfl⟩ := List.mem_iff_getElem.mp hi
        have := h.adjacent k hk
        exact Fin.lt_def.mpr (by omega)
      refine ih hup.tail (fun i => ?_) ⟨h.toChain.append hlt hlen (mask_bit.mp hbit) hwin, fun k hk => ?_⟩
      · rw [List.length_append, List.length_singleton]
        constructor
        · intro hi
          have := Fin.lt_def.mp ((List.pairwise_cons.mp hup.sorted).1 i hi)
          omega
        · intro hi
          have hmem := (hrest i).mpr (by omega)
          refine (List.mem_cons.mp hmem).resolve_left fun heq => ?_
          rw [heq] at hi
          omega
      · rw [List.length_append, List.length_singleton] at hk
        rcases Nat.lt_or_ge k positions.length with hk' | hk'
        · rw [List.getElem_append_left hk']
          exact h.adjacent k hk'
        · obtain rfl : k = positions.length := by omega
          simpa only [List.getElem_concat_length] using hindex
    · refine ⟨h, fun other hother => ?_⟩
      by_contra hlt
      have hlt := not_le.mp hlt
      have hat : other[positions.length] = index := Fin.ext ((hother.adjacent _ hlt).trans hindex.symm)
      obtain ⟨hbit, hwin⟩ := hother.matched _ hlt h.toChain.ne_nil
      rw [hat] at hbit hwin
      exact hnext ⟨hlt.trans_le hother.length_le, hwin, mask_bit.mpr hbit⟩

theorem strictPositions_longest (hsteps : 1 ≤ steps) :
    Longest (StrictChain events steps window anchor) (strictPositions events steps window anchor) := by
  have hsingle : StrictChain events steps window anchor [anchor] := by
    refine ⟨Chain.single hsteps, fun k hk => ?_⟩
    obtain rfl : k = 0 := by
      rw [List.length_singleton] at hk
      omega
    rfl
  obtain ⟨hchain, hlongest⟩ := strictFrom_longest (after_upward anchor.val) (fun i => mem_after) hsingle
  exact ⟨hchain, hlongest, fun other hother hlen => (hchain.eq_of_length hother hlen).le⟩

end greedy
end Hoglet.Query.Funnels
