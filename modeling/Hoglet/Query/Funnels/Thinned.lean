import Hoglet.Query.Funnels.Search

/-! Events that match nothing may be dropped: no attempt in order or in any order changes. -/
namespace Hoglet.Query.Funnels

/-- Some of the events, in order, and among them all that match anything. -/
structure Thinned (events thin : List Event) (place : Fin thin.length → Fin events.length) : Prop where
  mono : StrictMono place
  get : ∀ i, thin.get i = events.get (place i)
  all : ∀ j, (events.get j).mask ≠ 0 → ∃ i, place i = j

/-- A list of the thinned indices, and a list of all that only adds events that match nothing. -/
inductive Skips {events thin : List Event} (place : Fin thin.length → Fin events.length) :
    List (Fin events.length) → List (Fin thin.length) → Prop
  | nil : Skips place [] []
  | skip {j : Fin events.length} {l : List (Fin events.length)} {l' : List (Fin thin.length)} :
    (events.get j).mask = 0 → Skips place l l' → Skips place (j :: l) l'
  | keep (i : Fin thin.length) {l : List (Fin events.length)} {l' : List (Fin thin.length)} :
    Skips place l l' → Skips place (place i :: l) (i :: l')

variable {events thin : List Event} {place : Fin thin.length → Fin events.length} {steps : Nat} {window : Int}

theorem Skips.mem {l : List (Fin events.length)} {l' : List (Fin thin.length)} (h : Skips place l l') {i : Fin thin.length}
    (hi : i ∈ l') : place i ∈ l := by
  induction h with
  | nil => cases hi
  | skip _ _ ih => exact List.mem_cons_of_mem _ (ih hi)
  | keep first _ ih =>
    rcases List.mem_cons.mp hi with rfl | hi
    · exact List.mem_cons_self ..
    · exact List.mem_cons_of_mem _ (ih hi)

theorem skips_of_sorted (h : StrictMono place) {l : List (Fin events.length)} {l' : List (Fin thin.length)}
    (hl : l.Pairwise (· < ·)) (hl' : l'.Pairwise (· < ·)) (hin : ∀ i ∈ l', place i ∈ l)
    (hrest : ∀ j ∈ l, (events.get j).mask ≠ 0 → ∃ i ∈ l', place i = j) : Skips place l l' := by
  induction l generalizing l' with
  | nil =>
    cases l' with
    | nil => exact .nil
    | cons i l' => cases hin i (List.mem_cons_self ..)
  | cons j l ih =>
    obtain ⟨hj, htail⟩ := List.pairwise_cons.mp hl
    by_cases hhead : ∃ i ∈ l', place i = j
    · obtain ⟨i, hi, rfl⟩ := hhead
      cases l' with
      | nil => cases hi
      | cons first l' =>
        obtain ⟨hfirst, htail'⟩ := List.pairwise_cons.mp hl'
        obtain rfl : i = first := by
          by_contra hne
          have hlt := h (hfirst i ((List.mem_cons.mp hi).resolve_left hne))
          rcases List.mem_cons.mp (hin first (List.mem_cons_self ..)) with heq | hmem
          · exact absurd heq hlt.ne
          · exact absurd (hj _ hmem) hlt.asymm
        apply Skips.keep
        apply ih htail htail'
        · intro k hk
          exact (List.mem_cons.mp (hin k (List.mem_cons_of_mem _ hk))).resolve_left (h (hfirst k hk)).ne'
        · intro k hk hmask
          obtain ⟨i', hi', rfl⟩ := hrest k (List.mem_cons_of_mem _ hk) hmask
          rcases List.mem_cons.mp hi' with rfl | hi'
          · exact absurd (hj _ hk) (lt_irrefl _)
          · exact ⟨i', hi', rfl⟩
    · apply Skips.skip
      · by_contra hmask
        exact hhead (hrest j (List.mem_cons_self ..) hmask)
      · apply ih htail hl'
        · intro i hi
          exact (List.mem_cons.mp (hin i hi)).resolve_left fun heq => hhead ⟨i, hi, heq⟩
        · exact fun k hk => hrest k (List.mem_cons_of_mem _ hk)

private theorem map_get_finRange {α : Type} (l : List α) : (List.finRange l.length).map l.get = l := by
  rw [← List.ofFn_eq_map, List.ofFn_get]

section scans
variable (h : Thinned events thin place)
include h

theorem Thinned.finRange : Skips place (List.finRange events.length) (List.finRange thin.length) := by
  apply skips_of_sorted h.mono (List.pairwise_lt_finRange _) (List.pairwise_lt_finRange _)
  · exact fun i _ => List.mem_finRange _
  · intro j _ hmask
    obtain ⟨i, hi⟩ := h.all j hmask
    exact ⟨i, List.mem_finRange i, hi⟩

theorem Thinned.after (i : Fin thin.length) : Skips place (after (place i).val) (after i.val) := by
  apply skips_of_sorted h.mono (after_upward _).sorted (after_upward _).sorted
  · intro k hk
    exact mem_after.mpr (h.mono (mem_after.mp hk))
  · intro j hj hmask
    obtain ⟨k, rfl⟩ := h.all j hmask
    exact ⟨k, mem_after.mpr (h.mono.lt_iff_lt.mp (mem_after.mp hj)), rfl⟩

variable (hs : events.Pairwise fun a b => a.ts ≤ b.ts)
include hs

theorem Thinned.sorted : thin.Pairwise fun a b => a.ts ≤ b.ts := by
  rw [List.pairwise_iff_get]
  intro i j hij
  rw [h.get, h.get]
  exact List.pairwise_iff_get.mp hs _ _ (h.mono hij)

private theorem ts_le {j : Fin events.length} {l : List (Fin events.length)} {l' : List (Fin thin.length)} (hup : Upward (j :: l))
    (hskips : Skips place (j :: l) l') {i : Fin thin.length} (hi : i ∈ l') : (events.get j).ts ≤ (thin.get i).ts := by
  rw [h.get]
  rcases (hup.head_le (hskips.mem hi)).eq_or_lt with heq | hlt
  · rw [heq]
  · exact List.pairwise_iff_get.mp hs _ _ hlt

theorem orderedFrom_thinned {start : Int} {l : List (Fin events.length)} {l' : List (Fin thin.length)} (hskips : Skips place l l')
    (hup : Upward l) (positions : List (Fin thin.length)) :
    orderedFrom events steps window start l (positions.map place) =
      (orderedFrom thin steps window start l' positions).map place := by
  induction hskips generalizing positions with
  | nil => rfl
  | @skip j l l' hmask hskips ih =>
    rw [orderedFrom, List.length_map]
    split_ifs with hstop hbit
    · -- the thinned scan stops at its next event, if it has one
      cases l' with
      | nil => rfl
      | cons i l' =>
        have hts := ts_le h hs hup (.skip hmask hskips) (List.mem_cons_self ..)
        rw [orderedFrom, if_pos (hstop.imp_right fun hlate => by omega)]
    · rw [hmask, Nat.zero_and] at hbit
      exact absurd rfl hbit
    · exact ih hup.tail positions
  | @keep i l l' _ ih =>
    rw [orderedFrom, orderedFrom, List.length_map, h.get]
    split_ifs
    · rfl
    · rw [← ih hup.tail, List.map_append]
      rfl
    · exact ih hup.tail positions

theorem orderedPositions_thinned (i : Fin thin.length) :
    orderedPositions events steps window (place i) = (orderedPositions thin steps window i).map place := by
  rw [orderedPositions, orderedPositions, h.get]
  exact orderedFrom_thinned h hs (h.after i) (after_upward _) [i]

theorem unorderedFrom_thinned {start : Int} {l : List (Fin events.length)} {l' : List (Fin thin.length)}
    (hskips : Skips place l l') (hup : Upward l) (covered : Nat) (times : List Int) :
    unorderedFrom events steps window start l covered times = unorderedFrom thin steps window start l' covered times := by
  induction hskips generalizing covered times with
  | nil => rfl
  | @skip j l l' hmask hskips ih =>
    rw [unorderedFrom]
    split_ifs with hstop
    · cases l' with
      | nil => rfl
      | cons i l' =>
        have hts := ts_le h hs hup (.skip hmask hskips) (List.mem_cons_self ..)
        rw [unorderedFrom, if_pos (hstop.imp_right fun hlate => by omega)]
    · simp only [hmask, Nat.zero_and, ne_eq, not_true_eq_false, if_false]
      exact ih hup.tail covered times
  | @keep i l l' _ ih =>
    rw [unorderedFrom, unorderedFrom, h.get]
    split_ifs
    · rfl
    · simp only [ih hup.tail]

theorem unorderedTimes_thinned (i : Fin thin.length) :
    unorderedTimes events steps window (place i) = unorderedTimes thin steps window i := by
  simp only [unorderedTimes, h.get]
  exact unorderedFrom_thinned h hs (h.after i) (after_upward _) _ _

theorem tainted_thinned {exclusions : List Exclusion} (positions : List (Fin thin.length)) :
    tainted events window (positions.map place) exclusions = tainted thin window positions exclusions := by
  cases positions with
  | nil => rfl
  | cons first rest =>
    rw [tainted, List.map_cons, tainted]
    congr 1
    funext exclusion
    simp only [← List.map_cons, List.getElem?_map]
    cases (first :: rest)[exclusion.fromStep]? with
    | none => rfl
    | some start =>
      rw [Option.map_some, Bool.eq_iff_iff]
      simp only [any_slice, decide_eq_true_eq]
      constructor
      · rintro ⟨j, hlt, hstop, hbit⟩
        obtain ⟨i, rfl⟩ := h.all j fun hmask => hbit (by rw [hmask, Nat.zero_and])
        have hlt := h.mono.lt_iff_lt.mp hlt
        refine ⟨i, hlt, ?_, by rwa [h.get]⟩
        cases hto : (first :: rest)[exclusion.toStep]? with
        | some last =>
          rw [hto] at hstop
          exact h.mono.lt_iff_lt.mp hstop
        | none =>
          rw [hto] at hstop
          dsimp only
          rw [lt_window_end (h.sorted hs) hlt, h.get, h.get]
          exact (lt_window_end hs (h.mono hlt)).mp hstop
      · rintro ⟨i, hlt, hstop, hbit⟩
        refine ⟨place i, h.mono hlt, ?_, by rwa [← h.get]⟩
        cases hto : (first :: rest)[exclusion.toStep]? with
        | some last =>
          rw [hto] at hstop
          exact h.mono hstop
        | none =>
          rw [hto] at hstop
          dsimp only [Option.map_none]
          rw [lt_window_end hs (h.mono hlt), ← h.get, ← h.get]
          exact (lt_window_end (h.sorted hs) hlt).mp hstop

omit h hs in
private theorem chainEvent_zero {event : Event} (hmask : event.mask = 0) (chainStart : List (Option Int)) :
    chainEvent steps window chainStart event = chainStart := by
  have hextend : ∀ step, extendChain window event chainStart step = chainStart := fun step => by
    rw [extendChain]
    cases chainStart.getD (step - 1) none with
    | none => rfl
    | some start => simp [hmask]
  have hfold : ∀ l : List Nat, l.foldl (extendChain window event) chainStart = chainStart := fun l => by
    induction l with
    | nil => rfl
    | cons step l ih => rw [List.foldl_cons, hextend, ih]
  simp [chainEvent, hfold, hmask]

omit hs in
theorem orderedMaxDepth_thinned : orderedMaxDepth events steps window = orderedMaxDepth thin steps window := by
  have hfold : ∀ {l : List (Fin events.length)} {l' : List (Fin thin.length)} (chainStart : List (Option Int)), Skips place l l' →
      (l.map events.get).foldl (chainEvent steps window) chainStart = (l'.map thin.get).foldl (chainEvent steps window) chainStart := by
    intro l l' chainStart hskips
    induction hskips generalizing chainStart with
    | nil => rfl
    | skip hmask _ ih => rw [List.map_cons, List.foldl_cons, chainEvent_zero hmask, ih]
    | keep i _ ih => rw [List.map_cons, List.map_cons, List.foldl_cons, List.foldl_cons, h.get, ih]
  have hall := hfold (List.replicate steps none) h.finRange
  rw [map_get_finRange, map_get_finRange] at hall
  rw [orderedMaxDepth, orderedMaxDepth, hall]

/-- The same attempt among all the events and among the thinned ones. -/
def SameAttempt (place : Fin thin.length → Fin events.length) (attempt thinAttempt : Attempt) : Prop :=
  attempt.times = thinAttempt.times ∧ ∃ i, thinAttempt.anchor = i.val ∧ attempt.anchor = (place i).val

variable {order : FunnelOrder} {exclusions : List Exclusion} (horder : order ≠ .strict)
include horder

private theorem attemptTimes_thinned (i : Fin thin.length) :
    attemptTimes events steps window order exclusions (place i) = attemptTimes thin steps window order exclusions i := by
  cases order with
  | strict => exact absurd rfl horder
  | unordered => simp only [attemptTimes, unorderedTimes_thinned h hs]
  | ordered =>
    have hget : (fun i => (thin.get i).ts) = fun i => (events.get (place i)).ts := by
      funext i
      rw [h.get]
    simp only [attemptTimes, orderedPositions_thinned h hs, tainted_thinned h hs, List.map_map, hget]
    rfl

private theorem bestFrom_thinned {l : List (Fin events.length)} {l' : List (Fin thin.length)} (hskips : Skips place l l')
    {best thinBest : Option Attempt} (hbest : Option.Rel (SameAttempt place) best thinBest) :
    Option.Rel (SameAttempt place) (bestFrom events steps window order exclusions l best)
      (bestFrom thin steps window order exclusions l' thinBest) := by
  have hceiling : ceiling events steps window order = ceiling thin steps window order := by
    cases order with
    | ordered => exact orderedMaxDepth_thinned h
    | strict | unordered => rfl
  induction hskips generalizing best thinBest with
  | nil => exact hbest
  | skip hmask _ ih =>
    rw [bestFrom, if_pos (by rw [hmask, Nat.zero_and])]
    exact ih hbest
  | keep i _ ih =>
    rw [bestFrom, bestFrom, h.get, hceiling, attemptTimes_thinned h hs horder i]
    split_ifs with hbits
    · exact ih hbest
    · cases attemptTimes thin steps window order exclusions i with
      | none => exact ih hbest
      | some times =>
        dsimp only
        have hnext : Option.Rel (SameAttempt place)
            (if best.all fun best => best.times.length < times.length then some ⟨place i, times⟩ else best)
            (if thinBest.all fun best => best.times.length < times.length then some ⟨i, times⟩ else thinBest) := by
          cases hbest with
          | none => exact .some ⟨rfl, i, rfl, rfl⟩
          | some hsame =>
            rw [Option.all_some, Option.all_some, hsame.1]
            split_ifs
            · exact .some ⟨rfl, i, rfl, rfl⟩
            · exact .some hsame
        generalize (if best.all fun best => best.times.length < times.length then some ⟨place i, times⟩ else best) = best at hnext
        generalize (if thinBest.all fun best => best.times.length < times.length then some ⟨i, times⟩ else thinBest) = thinBest at hnext
        split_ifs
        · exact hnext
        · exact ih hnext

theorem bestAttempt_thinned : Option.Rel (SameAttempt place) (bestAttempt events steps window order exclusions)
    (bestAttempt thin steps window order exclusions) :=
  bestFrom_thinned h hs horder h.finRange .none

end scans

/-- Any filter that keeps what matches something thins the events. -/
theorem filter_thinned {α : Type} (event : α → Event) (keep : α → Bool) (entries : List α)
    (hkeep : ∀ a ∈ entries, (event a).mask ≠ 0 → keep a = true) :
    ∃ place : Fin ((entries.filter keep).map event).length → Fin (entries.map event).length,
      Thinned (entries.map event) ((entries.filter keep).map event) place ∧
        ∀ i, (entries.filter keep)[i.val]? = entries[(place i).val]? := by
  have hfilter : entries.filter keep = ((List.finRange entries.length).filter fun i => keep (entries.get i)).map entries.get := by
    conv_lhs => rw [← map_get_finRange entries, List.filter_map]
    rfl
  generalize hkept : (List.finRange entries.length).filter (fun i => keep (entries.get i)) = kept at hfilter
  have hsorted : kept.Pairwise (· < ·) := hkept ▸ (List.pairwise_lt_finRange _).filter _
  rw [hfilter]
  have hlen : ((kept.map entries.get).map event).length = kept.length := by rw [List.length_map, List.length_map]
  refine ⟨fun i => (kept.get (i.cast hlen)).cast (List.length_map _).symm, ⟨fun i j hij => ?_, fun i => ?_, fun j hj => ?_⟩, fun i => ?_⟩
  · exact List.pairwise_iff_get.mp hsorted _ _ hij
  · simp
  · have hmem : j.cast (List.length_map _) ∈ kept := by
      rw [← hkept, List.mem_filter]
      refine ⟨List.mem_finRange _, hkeep _ (List.get_mem _ _) ?_⟩
      simpa using hj
    obtain ⟨k, hk⟩ := List.get_of_mem hmem
    exact ⟨k.cast hlen.symm, congrArg (Fin.cast (List.length_map _).symm) hk⟩
  · have hi : i.val < kept.length := hlen ▸ i.isLt
    simp [hi]

end Hoglet.Query.Funnels
