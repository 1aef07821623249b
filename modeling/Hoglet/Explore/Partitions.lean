import Hoglet.Explore.Ties

/-! The visits of one partition of the windows: what they add to the totals, as the numbers of the windows cut them. -/
namespace Hoglet.Explore
variable {U : Type} (part : List (Row U))

/-- The number of the visit an instant falls in. -/
abbrev visitOf (t : Int) : Nat := runOf Row.ts sessionGapMicros part t

/-- The events of one visit, which the gap parts from those around it. -/
def visit (k : Nat) : List (Row U) := part.filter fun row => visitOf part row.ts = k

/-- Whatever the order of the events that tie, the visits of the partition add the same to the totals. -/
def Settled : Prop :=
  ∀ t ∈ starts Row.ts sessionGapMicros part, Harmless t (visit part (visitOf part t - 1)) (visit part (visitOf part t))

instance : Decidable (Settled part) := inferInstanceAs (Decidable (∀ t ∈ _, _))

/-- What the visits of the partition add to the totals. -/
def visitTotals : Totals := ∑ n ∈ Finset.range ((starts Row.ts sessionGapMicros part).card + 1), sessionTotals (visit part n)

/-- What the numbered events add to the totals. -/
def numberedTotals (numbers : List (Row U × Nat)) : Totals :=
  ((groups Prod.snd numbers).map fun g => sessionTotals (g.2.map Prod.fst)).sum

/-- The events of a number: those of the visit that are not early, and the early ones of the next. -/
def counted (early : Row U → Bool) (n : Nat) : List (Row U) :=
  (visit part n).filter (!early ·) ++ (visit part (n + 1)).filter early

variable {part}

theorem mem_visit {k : Nat} {a : Row U} : a ∈ visit part k ↔ a ∈ part ∧ visitOf part a.ts = k := by
  rw [visit, List.mem_filter, decide_eq_true_eq]

variable (part) in
theorem visitOf_le (t : Int) : visitOf part t ≤ (starts Row.ts sessionGapMicros part).card := Finset.card_filter_le _ _

theorem visitOf_pos {t : Int} (h : t ∈ starts Row.ts sessionGapMicros part) : 0 < visitOf part t :=
  Finset.card_pos.mpr ⟨t, Finset.mem_filter.mpr ⟨h, le_rfl⟩⟩

theorem visitOf_inj {t t' : Int} (h : t ∈ starts Row.ts sessionGapMicros part) (h' : t' ∈ starts Row.ts sessionGapMicros part)
    (heq : visitOf part t = visitOf part t') : t = t' := by
  rcases lt_trichotomy t t' with hlt | heq' | hlt
  · exact absurd heq (runOf_lt h' hlt).ne
  · exact heq'
  · exact absurd heq (runOf_lt h hlt).ne'

/-- The gap parts a start from the visits before it. -/
theorem gap_before {t : Int} (h : t ∈ starts Row.ts sessionGapMicros part) {b : Row U} (hb : b ∈ part)
    (hlt : visitOf part b.ts < visitOf part t) : sessionGapMicros < t - b.ts :=
  (mem_starts.mp h).2 b hb (lt_of_not_ge fun hle => absurd hlt (not_lt.mpr (runOf_mono hle)))

section numbered
variable {early : Row U → Bool} {numbers : List (Row U × Nat)}

private theorem counted_perm (hpart : part.Nodup) (hperm : (numbers.map Prod.fst).Perm part)
    (hearly : ∀ a n, (a, n) ∈ numbers → n + (if early a then 1 else 0) = visitOf part a.ts) (n : Nat) :
    ((numbers.filter (·.2 = n)).map Prod.fst).Perm (counted part early n) := by
  have hnumbers : (numbers.map Prod.fst).Nodup := hperm.nodup_iff.mpr hpart
  have hvisits : (counted part early n).Nodup := by
    refine List.nodup_append'.mpr ⟨(hpart.filter _).filter _, (hpart.filter _).filter _, fun a ha ha' => ?_⟩
    have hkept := (List.mem_filter.mp ha).2
    rw [(List.mem_filter.mp ha').2] at hkept
    cases hkept
  rw [List.perm_ext_iff_of_nodup (hnumbers.sublist (List.filter_sublist.map _)) hvisits]
  intro a
  have hmem : a ∈ counted part early n ↔ a ∈ part ∧ n + (if early a then 1 else 0) = visitOf part a.ts := by
    rw [counted, List.mem_append, List.mem_filter, List.mem_filter, mem_visit, mem_visit]
    cases early a <;> simp [eq_comm]
  rw [hmem, ← hperm.mem_iff, List.mem_map, List.mem_map]
  constructor
  · rintro ⟨⟨a, k⟩, hm, rfl⟩
    obtain ⟨hnumber, hk⟩ := List.mem_filter.mp hm
    obtain rfl : k = n := of_decide_eq_true hk
    exact ⟨⟨_, hnumber, rfl⟩, hearly a k hnumber⟩
  · rintro ⟨⟨⟨a, k⟩, hm, rfl⟩, hn⟩
    have hk := hearly _ _ hm
    exact ⟨(a, k), List.mem_filter.mpr ⟨hm, decide_eq_true (by dsimp only at *; omega)⟩, rfl⟩

/-- The totals of the numbers, when these are those of the visits but for the early events. -/
theorem numberedTotals_eq (hpart : part.Nodup) (hperm : (numbers.map Prod.fst).Perm part)
    (hearly : ∀ a n, (a, n) ∈ numbers → n + (if early a then 1 else 0) = visitOf part a.ts) :
    numberedTotals numbers =
      ∑ n ∈ Finset.range ((starts Row.ts sessionGapMicros part).card + 1), sessionTotals (counted part early n) := by
  rw [numberedTotals, sum_groups_subset (fun g => sessionTotals (g.2.map Prod.fst)) (fun _ => rfl) fun m hm => ?_]
  · exact Finset.sum_congr rfl fun n _ => sessionTotals_perm (counted_perm hpart hperm hearly n)
  · have hle := visitOf_le part m.1.ts
    have := hearly m.1 m.2 hm
    exact Finset.mem_range.mpr (by omega)

/-- The numbers of the visits give their totals. -/
theorem numberedTotals_exact (hpart : part.Nodup) (hperm : (numbers.map Prod.fst).Perm part)
    (hexact : ∀ a n, (a, n) ∈ numbers → n = visitOf part a.ts) : numberedTotals numbers = visitTotals part := by
  have hnone : ∀ a n, (a, n) ∈ numbers → n + (if (fun _ => false : Row U → Bool) a then 1 else 0) = visitOf part a.ts := fun a n h => by
    simpa using hexact a n h
  rw [numberedTotals_eq hpart hperm hnone, visitTotals]
  refine Finset.sum_congr rfl fun n _ => ?_
  simp [counted]

end numbered

section settled
variable {early : Row U → Bool}

/-- What a visit adds to the number before, when one of its early events is a pageview. -/
private def moved (part : List (Row U)) (early : Row U → Bool) (k : Nat) : Totals :=
  if ∃ a ∈ visit part k, early a = true ∧ a.isPageview = true then sessionTotals (visit part k) else 0

/-- What it adds otherwise. -/
private def kept (part : List (Row U)) (early : Row U → Bool) (k : Nat) : Totals :=
  if ∃ a ∈ visit part k, early a = true ∧ a.isPageview = true then 0 else sessionTotals (visit part k)

private theorem kept_add_moved (k : Nat) : kept part early k + moved part early k = sessionTotals (visit part k) := by
  rw [kept, moved]
  split
  · exact zero_add _
  · exact add_zero _

/-- The early events of a visit are at its start, and leave some of the events there. -/
private theorem moves_visit (he : Early Row.ts sessionGapMicros part early) {k : Nat} {a : Row U} (ha : a ∈ visit part k)
    (hearly : early a = true) : Moves a.ts (visit part k) early := by
  obtain ⟨hmem, rfl⟩ := mem_visit.mp ha
  have hstart := he.start a hmem hearly
  refine ⟨fun c hc hc' => ?_, ?_⟩
  · obtain ⟨hc, hk⟩ := mem_visit.mp hc
    exact visitOf_inj (he.start c hc hc') hstart hk
  · obtain ⟨r, hr, hrt, hlate⟩ := he.late a.ts hstart
    exact ⟨r, mem_visit.mpr ⟨hr, by rw [hrt]⟩, hrt, hlate⟩

private theorem harmless_visit (hs : Settled part) (he : Early Row.ts sessionGapMicros part early) {k : Nat} {a : Row U}
    (ha : a ∈ visit part (k + 1)) (hearly : early a = true) :
    Harmless a.ts (visit part k) (visit part (k + 1)) ∧ ∀ b ∈ visit part k, sessionGapMicros < a.ts - b.ts := by
  obtain ⟨hmem, hk⟩ := mem_visit.mp ha
  have hstart := he.start a hmem hearly
  have h := hs a.ts hstart
  rw [hk, Nat.add_sub_cancel] at h
  refine ⟨h, fun b hb => ?_⟩
  obtain ⟨hb, hbk⟩ := mem_visit.mp hb
  exact gap_before hstart hb (by omega)

private theorem filter_none {l : List (Row U)} (h : ¬ ∃ a ∈ l, early a = true) : l.filter (!early ·) = l :=
  List.filter_eq_self.mpr fun a ha => by simpa using fun hearly => h ⟨a, ha, hearly⟩

private theorem instants_kept (he : Early Row.ts sessionGapMicros part early) (k : Nat) (u : Int) :
    (∃ b ∈ (visit part k).filter (!early ·), b.ts = u) ↔ ∃ b ∈ visit part k, b.ts = u := by
  by_cases hany : ∃ a ∈ visit part k, early a = true
  · obtain ⟨a, ha, hearly⟩ := hany
    exact (moves_visit he ha hearly).instants u
  · rw [filter_none hany]

private theorem none_early_zero (he : Early Row.ts sessionGapMicros part early) : ¬ ∃ a ∈ visit part 0, early a = true := by
  rintro ⟨a, ha, hearly⟩
  obtain ⟨hmem, hk⟩ := mem_visit.mp ha
  have := visitOf_pos (he.start a hmem hearly)
  omega

/-- A visit of which no early event is a pageview counts without them as it does with them, and one with an early pageview does not count. -/
private theorem totals_kept (hs : Settled part) (he : Early Row.ts sessionGapMicros part early) (k : Nat) :
    sessionTotals ((visit part k).filter (!early ·)) = kept part early k := by
  cases k with
  | zero =>
    rw [filter_none (none_early_zero he), kept, if_neg]
    rintro ⟨a, ha, hearly, -⟩
    exact none_early_zero he ⟨a, ha, hearly⟩
  | succ k =>
    rw [kept]
    split
    · rename_i hpage
      obtain ⟨a, ha, hearly, hpage⟩ := hpage
      obtain ⟨hharmless, hgap⟩ := harmless_visit hs he ha hearly
      have hm := moves_visit he ha hearly
      exact (hm.moved_same hharmless ha hearly hpage hgap (fun _ => Iff.rfl) (hm.before_none hharmless ha hearly)).1
    · rename_i hpage
      push Not at hpage
      by_cases hany : ∃ a ∈ visit part (k + 1), early a = true
      · obtain ⟨a, ha, hearly⟩ := hany
        have hm := moves_visit he ha hearly
        exact hm.kept_same (harmless_visit hs he ha hearly).1 fun c hc hc' => by simpa using hpage c hc hc'
      · rw [filter_none hany]

private theorem totals_counted (hs : Settled part) (he : Early Row.ts sessionGapMicros part early) (n : Nat) :
    sessionTotals (counted part early n) = kept part early n + moved part early (n + 1) := by
  by_cases hany : ∃ a ∈ visit part (n + 1), early a = true
  · obtain ⟨a, ha, hearly⟩ := hany
    obtain ⟨hharmless, hgap⟩ := harmless_visit hs he ha hearly
    have hm := moves_visit he ha hearly
    have hnone := hm.before_none hharmless ha hearly
    have hkeptNone : pageviews ((visit part n).filter (!early ·)) = 0 :=
      Nat.le_zero.mp (hnone ▸ List.filter_sublist.countP_le)
    rw [← totals_kept hs he, sessionTotals_of_none hkeptNone, zero_add, moved]
    split
    · rename_i hpage
      obtain ⟨c, hc, hc', hpage⟩ := hpage
      exact (hm.moved_same hharmless hc hc' hpage hgap (instants_kept he n) hkeptNone).2
    · rename_i hpage
      push Not at hpage
      have hmoved : pageviews ((visit part (n + 1)).filter early) = 0 := by
        refine List.countP_eq_zero.mpr fun c hc => ?_
        obtain ⟨hc, hc'⟩ := List.mem_filter.mp hc
        exact hpage c hc hc'
      have hsum : pageviews (counted part early n) = _ := List.countP_append
      exact sessionTotals_of_none (hsum.trans (by simp only [pageviews] at hkeptNone hmoved; omega))
  · have hnil : (visit part (n + 1)).filter early = [] :=
      List.filter_eq_nil_iff.mpr fun a ha hearly => hany ⟨a, ha, hearly⟩
    rw [counted, hnil, List.append_nil, totals_kept hs he, moved, if_neg, add_zero]
    rintro ⟨a, ha, hearly, -⟩
    exact hany ⟨a, ha, hearly⟩

/-- In a settled partition the totals are those of the visits, whichever events are early. -/
theorem Settled.totals (hs : Settled part) (he : Early Row.ts sessionGapMicros part early) :
    (∑ n ∈ Finset.range ((starts Row.ts sessionGapMicros part).card + 1), sessionTotals (counted part early n)) = visitTotals part := by
  generalize hcard : (starts Row.ts sessionGapMicros part).card + 1 = last
  have hfirst : moved part early 0 = 0 := if_neg fun ⟨a, ha, hearly, _⟩ => none_early_zero he ⟨a, ha, hearly⟩
  have hlast : moved part early last = 0 := by
    refine if_neg fun ⟨a, ha, _, _⟩ => ?_
    have hle := visitOf_le part a.ts
    have := (mem_visit.mp ha).2
    omega
  calc (∑ n ∈ Finset.range last, sessionTotals (counted part early n))
    _ = ∑ n ∈ Finset.range last, kept part early n + ∑ n ∈ Finset.range last, moved part early (n + 1) := by
      rw [← Finset.sum_add_distrib]
      exact Finset.sum_congr rfl fun n _ => totals_counted hs he n
    _ = ∑ n ∈ Finset.range last, kept part early n + ∑ n ∈ Finset.range last, moved part early n := by
      have hsum := Finset.sum_range_succ' (moved part early) last
      rw [Finset.sum_range_succ, hfirst, hlast, add_zero, add_zero] at hsum
      rw [hsum]
    _ = visitTotals part := by
      rw [← Finset.sum_add_distrib, visitTotals, hcard]
      exact Finset.sum_congr rfl fun n _ => kept_add_moved n

end settled

section unsettled
variable {early : Row U → Bool}

/-- Events that harm at one start make a difference to the totals. -/
private theorem totals_ne {t : Int} {k : Nat} (hk : visitOf part t = k + 1) (h : Harms t (visit part k) (visit part (k + 1)) early) :
    (∑ n ∈ Finset.range ((starts Row.ts sessionGapMicros part).card + 1), sessionTotals (counted part early n)) ≠ visitTotals part := by
  have hearly : ∀ n a, a ∈ visit part n → early a = true → n = k + 1 := fun n a ha hearly => by
    rw [← (mem_visit.mp ha).2, (h.early_of a hearly).2, hk]
  have hnone : ∀ n, n ≠ k + 1 → (visit part n).filter early = [] := fun n hn =>
    List.filter_eq_nil_iff.mpr fun a ha ha' => hn (hearly n a ha ha')
  have hthis : counted part early k = visit part k ++ (visit part (k + 1)).filter early := by
    rw [counted, filter_none]
    rintro ⟨a, ha, ha'⟩
    have := hearly k a ha ha'
    omega
  have hnext : counted part early (k + 1) = (visit part (k + 1)).filter (!early ·) := by
    rw [counted, hnone (k + 2) (by omega), List.append_nil]
  have hother : ∀ n, n ≠ k → n ≠ k + 1 → counted part early n = visit part n := fun n hn hn' => by
    rw [counted, filter_none fun ⟨a, ha, ha'⟩ => hn' (hearly n a ha ha'), hnone (n + 1) (by omega), List.append_nil]
  have hle := visitOf_le part t
  have hsub : ({k, k + 1} : Finset Nat) ⊆ Finset.range ((starts Row.ts sessionGapMicros part).card + 1) := by
    intro n hn
    rw [Finset.mem_insert, Finset.mem_singleton] at hn
    exact Finset.mem_range.mpr (by omega)
  intro heq
  rw [visitTotals, ← Finset.sum_sdiff hsub, ← Finset.sum_sdiff hsub] at heq
  have hrest : ∀ n ∈ Finset.range ((starts Row.ts sessionGapMicros part).card + 1) \ {k, k + 1},
      sessionTotals (counted part early n) = sessionTotals (visit part n) := fun n hn => by
    simp only [Finset.mem_sdiff, Finset.mem_insert, Finset.mem_singleton, not_or] at hn
    rw [hother n hn.2.1 hn.2.2]
  rw [Finset.sum_congr rfl hrest] at heq
  have hpair := add_left_cancel heq
  rw [Finset.sum_pair (by omega), Finset.sum_pair (by omega), hthis, hnext] at hpair
  exact h.differ hpair

/-- Where a partition is not settled, some order of the events that tie changes its totals and those of no other. -/
theorem exists_windows [DecidableEq U] (hpart : part.Nodup) (h : ¬ Settled part) :
    ∃ (w₁ : Window (Row U) Row.ts) (w₂ : Window (Row U × Nat) fun m => m.1.ts),
      numberedTotals (runNumbers sessionGapMicros w₁ w₂ part) ≠ visitTotals part ∧
        ∀ other : List (Row U), other.Nodup → (∀ a ∈ other, a ∉ part) →
          numberedTotals (runNumbers sessionGapMicros w₁ w₂ other) = visitTotals other := by
  rw [Settled] at h
  push Not at h
  obtain ⟨t, ht, hharmless⟩ := h
  have hpos := visitOf_pos ht
  obtain ⟨k, hk⟩ : ∃ k, visitOf part t = k + 1 := ⟨visitOf part t - 1, by omega⟩
  rw [hk, Nat.add_sub_cancel] at hharmless
  have hgap : ∀ b ∈ visit part k, sessionGapMicros < t - b.ts := fun b hb => by
    obtain ⟨hb, hbk⟩ := mem_visit.mp hb
    exact gap_before ht hb (by omega)
  obtain ⟨early, hharms⟩ := exists_harms (hpart.filter _) hgap hharmless
  obtain ⟨r, hr, hrt, hlate⟩ := hharms.stays
  obtain ⟨w₁, w₂, hnumbers⟩ : ∃ (w₁ : Window (Row U) Row.ts) (w₂ : Window (Row U × Nat) fun m => m.1.ts), ∀ l : List (Row U), l.Nodup →
      (∀ a ∈ l, early a = true → r ∈ l ∧ a.ts = r.ts ∧ r.ts ∈ starts Row.ts sessionGapMicros l) →
        ∀ a n, (a, n) ∈ runNumbers sessionGapMicros w₁ w₂ l → n + (if early a then 1 else 0) = visitOf l a.ts :=
    ⟨_, _, fun l hl hearly a n ha => runNumbers_ranked (by decide) hl early r hlate hearly ha⟩
  refine ⟨w₁, w₂, ?_, fun other hother hout => ?_⟩
  · rw [numberedTotals_eq hpart (runNumbers_perm _ _ _ _) (hnumbers part hpart fun a ha hearly => ?_)]
    · exact totals_ne hk hharms
    · exact ⟨(mem_visit.mp hr).1, (hharms.early_of a hearly).2.trans hrt.symm, hrt ▸ ht⟩
  · have hnone : ∀ a ∈ other, early a = true → False := fun a ha hearly => hout a ha (mem_visit.mp (hharms.early_of a hearly).1).1
    refine numberedTotals_exact hother (runNumbers_perm _ _ _ _) fun a n ha => ?_
    have hmem := (runNumbers_perm _ _ _ _).mem_iff.mp (List.mem_map_of_mem (f := Prod.fst) ha)
    have hn := hnumbers other hother (fun a ha hearly => (hnone a ha hearly).elim) a n ha
    rwa [if_neg fun hearly => hnone a hmem hearly] at hn

end unsettled

section windows
variable (w₁ : Window (Row U) Row.ts) (w₂ : Window (Row U × Nat) fun m => m.1.ts)

/-- In a settled partition the windows may order the events that tie as they like. -/
theorem Settled.numbered [DecidableEq U] (hpart : part.Nodup) (hs : Settled part) :
    numberedTotals (runNumbers sessionGapMicros w₁ w₂ part) = visitTotals part := by
  obtain ⟨early, he, hnumbers⟩ : ∃ early, Early Row.ts sessionGapMicros part early ∧
      ∀ a n, (a, n) ∈ runNumbers sessionGapMicros w₁ w₂ part → n + (if early a then 1 else 0) = visitOf part a.ts :=
    runNumbers_early (by decide) hpart
  rw [numberedTotals_eq hpart (runNumbers_perm _ _ _ _) hnumbers, hs.totals he]

/-- Events without a pageview add nothing. -/
theorem numberedTotals_none (hnone : pageviews part = 0) : numberedTotals (runNumbers sessionGapMicros w₁ w₂ part) = 0 := by
  refine List.sum_eq_zero fun x hx => ?_
  obtain ⟨g, hg, rfl⟩ := List.mem_map.mp hx
  apply sessionTotals_of_none
  have hsub : (g.2.map Prod.fst).Sublist ((runNumbers sessionGapMicros w₁ w₂ part).map Prod.fst) := by
    rw [(mem_groups.mp hg).2]
    exact List.filter_sublist.map _
  have hle := hsub.countP_le (p := Row.isPageview)
  rw [(runNumbers_perm _ _ _ _).countP_eq] at hle
  exact Nat.le_zero.mp (hnone ▸ hle)

end windows

end Hoglet.Explore
