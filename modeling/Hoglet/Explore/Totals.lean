import Hoglet.Explore.Partitions

/-! The totals of a period in both paths: those of the sessions with an id, and those of the partitions as their windows number them. -/
namespace Hoglet.Explore
variable {U : Type} (overrides : String → Option String) (plan : Plan U) (rows : List (Row U))

/-- The sessions with an id. -/
def idTotals (period : Nat) : Totals := totals (((idSessions plan rows).filter fun g => g.1.1 = period ∧ g.1.2.isSome).map Prod.snd)

/-- The partitions of one period. -/
def partsOf (period : Nat) : List ((Nat × String) × List (Row U)) := (sessionless overrides plan rows).filter fun part => part.1.1 = period

variable {overrides plan rows}

theorem mem_part {part : (Nat × String) × List (Row U)} (h : part ∈ sessionless overrides plan rows) {row : Row U} :
    row ∈ part.2 ↔ row ∈ rows ∧ plan.admits row = true ∧ row.sessionId = none ∧ (plan.period row, row.person overrides) = part.1 := by
  rw [(mem_groups.mp h).2]
  simp only [List.mem_filter, Bool.and_eq_true, decide_eq_true_eq, Option.isNone_iff_eq_none, and_assoc]

theorem part_nodup (hrows : rows.Nodup) {part : (Nat × String) × List (Row U)} (h : part ∈ sessionless overrides plan rows) :
    part.2.Nodup := by
  rw [(mem_groups.mp h).2]
  exact (hrows.filter _).filter _

/-- The partitions have no events in common. -/
theorem part_disjoint {part other : (Nat × String) × List (Row U)} (h : part ∈ sessionless overrides plan rows)
    (hother : other ∈ sessionless overrides plan rows) (hne : other ≠ part) : ∀ a ∈ other.2, a ∉ part.2 := by
  intro a ha ha'
  have hkey := ((mem_part hother).mp ha).2.2.2.symm.trans ((mem_part h).mp ha').2.2.2
  exact hne (List.inj_on_of_nodup_map groups_nodup hother h hkey)

section gaps
variable (w₁ : Window (Row U) Row.ts) (w₂ : Window (Row U × Nat) fun m => m.1.ts)

private theorem mem_numbers {part : (Nat × String) × List (Row U)} (h : part ∈ sessionless overrides plan rows) {m : Row U × Nat}
    (hm : m ∈ runNumbers sessionGapMicros w₁ w₂ part.2) : (plan.period m.1, m.1.person overrides) = part.1 :=
  ((mem_part h).mp ((runNumbers_perm _ _ _ _).mem_iff.mp (List.mem_map_of_mem hm))).2.2.2

private theorem filter_flatMap_part {β : Type} {key : β → Nat} {make : (Nat × String) × List (Row U) → List β} {period : Nat}
    (h : ∀ part ∈ sessionless overrides plan rows, ∀ m ∈ make part, key m = part.1.1) :
    ((sessionless overrides plan rows).flatMap make).filter (fun m => decide (key m = period)) =
      (partsOf overrides plan rows period).flatMap make := by
  rw [partsOf]
  generalize sessionless overrides plan rows = parts at h ⊢
  induction parts with
  | nil => rfl
  | cons part parts ih =>
    have hpart := h part (List.mem_cons_self ..)
    rw [List.flatMap_cons, List.filter_append, ih fun part hpart => h part (List.mem_cons_of_mem _ hpart), List.filter_cons]
    by_cases hp : part.1.1 = period
    · rw [if_pos (decide_eq_true hp), List.flatMap_cons, List.filter_eq_self.mpr fun m hm => decide_eq_true ((hpart m hm).trans hp)]
    · rw [if_neg (by simpa using hp), List.filter_eq_nil_iff.mpr fun m hm => by simpa [hpart m hm] using hp, List.nil_append]

/-- The numbered events of a period count by partition. -/
private theorem sum_numbers (period : Nat) :
    ((groups (fun m => (plan.period m.1, m.1.person overrides, m.2)) ((partsOf overrides plan rows period).flatMap fun part =>
      runNumbers sessionGapMicros w₁ w₂ part.2)).map fun g => sessionTotals (g.2.map Prod.fst)).sum =
      ((partsOf overrides plan rows period).map fun part => numberedTotals (runNumbers sessionGapMicros w₁ w₂ part.2)).sum := by
  have hparts : ((partsOf overrides plan rows period).map Prod.fst).Nodup := groups_nodup.sublist (List.filter_sublist.map _)
  generalize hnumbers : (partsOf overrides plan rows period).flatMap (fun part => runNumbers sessionGapMicros w₁ w₂ part.2) = numbers
  have hassoc : groups (fun m : Row U × Nat => (plan.period m.1, m.1.person overrides, m.2)) numbers =
      (groups (fun m => ((plan.period m.1, m.1.person overrides), m.2)) numbers).map (Prod.map (Equiv.prodAssoc Nat String Nat) id) :=
    groups_comp (fun m : Row U × Nat => ((plan.period m.1, m.1.person overrides), m.2)) (Equiv.prodAssoc Nat String Nat).injective
  rw [hassoc, List.map_map]
  refine (sum_groups_pair (fun m : Row U × Nat => (plan.period m.1, m.1.person overrides))
    (fun l : List (Row U × Nat) => sessionTotals (l.map Prod.fst)) rfl).trans ?_
  rw [← hnumbers]
  exact sum_groups_flatMap numberedTotals rfl hparts fun part hpart m hm =>
    mem_numbers w₁ w₂ (List.mem_of_mem_filter hpart) hm

private theorem gapTotals (period : Nat) :
    totals (((gapSessions overrides plan rows w₁ w₂).filter fun g => g.1.1 = period).map fun g => g.2.map Prod.fst) =
      ((partsOf overrides plan rows period).map fun part => numberedTotals (runNumbers sessionGapMicros w₁ w₂ part.2)).sum := by
  rw [totals_eq_sum, List.map_map, gapSessions, ← sum_numbers]
  refine (sum_groups_filter (fun k : Nat × String × Nat => decide (k.1 = period))
    (fun l : List (Row U × Nat) => sessionTotals (l.map Prod.fst)) rfl).trans ?_
  rw [filter_flatMap_part fun part hpart m hm => congrArg Prod.fst (mem_numbers w₁ w₂ hpart hm)]

/-- The third pass is left out only where no event without a session id is a pageview. -/
private theorem none_sessionless (h : anySessionless plan rows = false) {part : (Nat × String) × List (Row U)}
    (hpart : part ∈ sessionless overrides plan rows) : pageviews part.2 = 0 := by
  refine List.countP_eq_zero.mpr fun row hrow hpage => ?_
  obtain ⟨hmem, hadmits, hnone, -⟩ := (mem_part hpart).mp hrow
  have hrow' : row ∈ rows.filter plan.admits := List.mem_filter.mpr ⟨hmem, hadmits⟩
  obtain ⟨g, hg, hkey⟩ : ∃ g ∈ idSessions plan rows, g.1 = (plan.period row, row.sessionId) := exists_group hrow'
  have hin : row ∈ g.2 := by
    rw [(mem_groups.mp hg).2]
    exact List.mem_filter.mpr ⟨hrow', decide_eq_true hkey.symm⟩
  have hpos : 0 < pageviews g.2 := List.countP_pos_iff.mpr ⟨row, hin, hpage⟩
  refine absurd (List.any_eq_true.mpr ⟨g, hg, ?_⟩) (Bool.eq_false_iff.mp h)
  rw [Bool.and_eq_true, decide_eq_true_eq, hkey, hnone]
  exact ⟨rfl, hpos⟩

theorem fastTotals_eq (period : Nat) :
    fastTotals overrides plan rows w₁ w₂ period = idTotals plan rows period +
      ((partsOf overrides plan rows period).map fun part => numberedTotals (runNumbers sessionGapMicros w₁ w₂ part.2)).sum := by
  rw [fastTotals, idTotals]
  congr 1
  cases h : anySessionless plan rows with
  | true =>
    rw [if_pos rfl]
    exact gapTotals w₁ w₂ period
  | false =>
    rw [if_neg Bool.false_ne_true]
    refine (List.sum_eq_zero fun x hx => ?_).symm
    obtain ⟨part, hpart, rfl⟩ := List.mem_map.mp hx
    exact numberedTotals_none w₁ w₂ (none_sessionless h (List.mem_of_mem_filter hpart))

end gaps

section general

/-- What follows the last separator does not hold it. -/
private theorem separator_inj {sep : Char} {p p' d d' : List Char} (hd : sep ∉ d) (hd' : sep ∉ d') (h : p ++ sep :: d = p' ++ sep :: d') :
    p = p' ∧ d = d' := by
  rcases List.append_eq_append_iff.mp h with ⟨mid, rfl, hmid⟩ | ⟨mid, rfl, hmid⟩ <;> cases mid with
  | nil => simpa [eq_comm] using hmid
  | cons c mid =>
    obtain ⟨-, rfl⟩ := List.cons.inj hmid
    exact absurd (List.mem_append_right mid (List.mem_cons_self ..)) (by assumption)

private theorem separator_digits (n : Nat) : '\x1f' ∉ Nat.toDigits 10 n := fun h =>
  absurd (Nat.isDigit_of_mem_toDigits (by decide) (by decide) h) (by decide)

theorem sid_injective : SessionTag.sid.Injective := by
  intro tag tag' h
  cases tag with
  | named sessionId =>
    cases tag' with
    | named sessionId' => rw [String.toList_inj.mp (List.cons.inj (String.ofList_inj.mp h)).2]
    | gap person n => exact absurd (List.cons.inj (String.ofList_inj.mp h)).1 (by decide)
  | gap person n =>
    cases tag' with
    | named sessionId' => exact absurd (List.cons.inj (String.ofList_inj.mp h)).1 (by decide)
    | gap person' n' =>
      have hlist : person.toList ++ '\x1f' :: Nat.toDigits 10 n = person'.toList ++ '\x1f' :: Nat.toDigits 10 n' :=
        (List.cons.inj (String.ofList_inj.mp h)).2
      obtain ⟨hperson, hdigits⟩ := separator_inj (separator_digits n) (separator_digits n') hlist
      have hn := congrArg (Nat.ofDigitChars 10 · 0) hdigits
      simp only [Nat.ofDigitChars_ten_toDigits] at hn
      rw [String.toList_inj.mp hperson, hn]

private def tagOf (sessionId : Option String) : SessionTag := sessionId.elim (.gap "" 0) .named

private theorem tagOf_injective : tagOf.Injective := by
  intro sessionId sessionId' h
  cases sessionId <;> cases sessionId' <;> cases h <;> rfl

private theorem filter_named (period : Nat) (l : List (Row U)) :
    (l.filterMap fun row => row.sessionId.map fun sessionId => (row, SessionTag.named sessionId)).filter (fun m => plan.period m.1 = period) =
      (l.filter fun row => plan.period row = period ∧ row.sessionId.isSome).map fun row => (row, tagOf row.sessionId) := by
  induction l with
  | nil => rfl
  | cons row l ih =>
    cases hid : row.sessionId with
    | none =>
      rw [List.filterMap_cons_none (by rw [hid]; rfl), ih, List.filter_cons_of_neg (by simp [hid])]
    | some sessionId =>
      rw [List.filterMap_cons_some (by rw [hid]; rfl), List.filter_cons, List.filter_cons, ih]
      by_cases hp : plan.period row = period <;> simp [hp, hid, tagOf]

/-- The sessions with an id are the same sessions under their tags. -/
private theorem sum_named (period : Nat) :
    ((groups (fun m => (plan.period m.1, m.2)) (((rows.filter plan.admits).filterMap fun row => row.sessionId.map fun sessionId =>
      (row, SessionTag.named sessionId)).filter fun m => plan.period m.1 = period)).map fun g => sessionTotals (g.2.map Prod.fst)).sum =
      idTotals plan rows period := by
  have htag : groups (fun row => (plan.period row, tagOf row.sessionId))
      ((rows.filter plan.admits).filter fun row => plan.period row = period ∧ row.sessionId.isSome) =
      (groups (fun row => (plan.period row, row.sessionId)) _).map (Prod.map (Prod.map id tagOf) id) :=
    groups_comp (fun row : Row U => (plan.period row, row.sessionId)) (Function.injective_id.prodMap tagOf_injective)
  rw [idTotals, totals_eq_sum, List.map_map, idSessions, filter_named, groups_map, htag, List.map_map, List.map_map]
  refine Eq.trans ?_ (sum_groups_filter (fun k : Nat × Option String => decide (k.1 = period ∧ k.2.isSome)) sessionTotals rfl).symm
  congr 1
  refine List.map_congr_left fun g _ => ?_
  simp [Function.comp_def]

/-- Without a session id, too. -/
private theorem sum_gaps (w₁ : Window (Row U) Row.ts) (w₂ : Window (Row U × Nat) fun m => m.1.ts) (period : Nat) :
    ((groups (fun m => (plan.period m.1, m.2)) (((sessionless overrides plan rows).flatMap fun part =>
      (runNumbers sessionGapMicros w₁ w₂ part.2).map fun m => (m.1, SessionTag.gap part.1.2 m.2)).filter fun m =>
        plan.period m.1 = period)).map fun g => sessionTotals (g.2.map Prod.fst)).sum =
      ((partsOf overrides plan rows period).map fun part => numberedTotals (runNumbers sessionGapMicros w₁ w₂ part.2)).sum := by
  have hperiod : ∀ part ∈ sessionless overrides plan rows, ∀ m ∈ (runNumbers sessionGapMicros w₁ w₂ part.2).map fun m =>
      (m.1, SessionTag.gap part.1.2 m.2), plan.period m.1 = part.1.1 := fun part hpart m hm => by
    obtain ⟨numbered, hnumbered, rfl⟩ := List.mem_map.mp hm
    exact congrArg Prod.fst (mem_numbers w₁ w₂ hpart hnumbered)
  have hperson : ((partsOf overrides plan rows period).flatMap fun part => (runNumbers sessionGapMicros w₁ w₂ part.2).map fun m =>
      (m.1, SessionTag.gap part.1.2 m.2)) = ((partsOf overrides plan rows period).flatMap fun part =>
        runNumbers sessionGapMicros w₁ w₂ part.2).map fun m => (m.1, SessionTag.gap (m.1.person overrides) m.2) := by
    rw [List.map_flatMap]
    refine List.flatMap_congr fun part hpart => List.map_congr_left fun m hm => ?_
    rw [← congrArg Prod.snd (mem_numbers w₁ w₂ (List.mem_of_mem_filter hpart) hm)]
  have hinj : Function.Injective fun k : Nat × String × Nat => (k.1, SessionTag.gap k.2.1 k.2.2) := by
    rintro ⟨p, person, n⟩ ⟨p', person', n'⟩ h
    cases h
    rfl
  have htag : groups (fun m => (plan.period m.1, SessionTag.gap (m.1.person overrides) m.2))
      ((partsOf overrides plan rows period).flatMap fun part => runNumbers sessionGapMicros w₁ w₂ part.2) = (groups _ _).map _ :=
    groups_comp (fun m : Row U × Nat => (plan.period m.1, m.1.person overrides, m.2)) hinj
  rw [filter_flatMap_part hperiod, hperson, groups_map, htag, List.map_map, List.map_map, ← sum_numbers]
  congr 1
  refine List.map_congr_left fun g _ => ?_
  simp [Function.comp_def]

/-- Sessions that are none last no time. -/
private theorem totals_none {sessions : List (List (Row U))} (h : (totals sessions).1 = 0) : (totals sessions).2.2 = 0 := by
  simp only [totals, List.length_eq_zero_iff] at h ⊢
  rw [h]
  rfl

private theorem fastTotals_none {w₁ : Window (Row U) Row.ts} {w₂ : Window (Row U × Nat) fun m => m.1.ts} {period : Nat}
    (h : (fastTotals overrides plan rows w₁ w₂ period).1 = 0) : (fastTotals overrides plan rows w₁ w₂ period).2.2 = 0 := by
  rw [fastTotals] at h ⊢
  rw [Prod.fst_add, Nat.add_eq_zero_iff] at h
  rw [Prod.snd_add, Prod.snd_add, totals_none h.1, zero_add]
  split at h
  · rename_i hany
    rw [if_pos hany, totals_none h.2]
  · rename_i hany
    rw [if_neg hany]
    rfl

/-- The mean is told apart by the totals: no other sums have it at as many sessions. -/
private theorem mean_inj {n : Nat} {d d' : Int} (h : n = 0 → d = 0) (h' : n = 0 → d' = 0) :
    (if 0 < n then (d : Rat) / n else d) = (if 0 < n then (d' : Rat) / n else 0) ↔ d = d' := by
  by_cases hn : n = 0
  · simp [hn, h hn, h' hn]
  · have hpos : 0 < n := Nat.pos_of_ne_zero hn
    rw [if_pos hpos, if_pos hpos, div_left_inj' (by exact_mod_cast hn), Int.cast_inj]

variable [LinearOrder U] (w₁ : Window (Row U) Row.order) (w₂ : Window (Row U × Nat) fun m => m.1.order)

/-- The general SQL numbers the events of a partition by their visits. -/
theorem generalTotals (hrows : (rows.map Row.order).Nodup) (period : Nat) :
    totals (generalSessions overrides plan rows w₁ w₂ period) =
      idTotals plan rows period + ((partsOf overrides plan rows period).map fun part => visitTotals part.2).sum := by
  have hsid : groups (fun m => (plan.period m.1, m.2.sid)) (tagged overrides plan rows w₁ w₂) =
      (groups (fun m => (plan.period m.1, m.2)) _).map (Prod.map (Prod.map id SessionTag.sid) id) :=
    groups_comp (fun m : Row U × SessionTag => (plan.period m.1, m.2)) (Function.injective_id.prodMap sid_injective)
  rw [totals_eq_sum, generalSessions, List.map_map, hsid, List.filter_map, List.map_map]
  refine (sum_groups_filter (fun k : Nat × SessionTag => decide (k.1 = period))
    (fun l : List (Row U × SessionTag) => sessionTotals (l.map Prod.fst)) rfl).trans ?_
  rw [tagged, List.filter_append]
  refine (sum_groups_append (fun k : Nat × SessionTag => k.2 matches .named _)
    (fun l : List (Row U × SessionTag) => sessionTotals (l.map Prod.fst)) rfl ?_ ?_).trans ?_
  · intro m hm
    obtain ⟨row, -, hrow⟩ := List.mem_filterMap.mp (List.mem_of_mem_filter hm)
    obtain ⟨sessionId, -, rfl⟩ := Option.map_eq_some_iff.mp hrow
    rfl
  · intro m hm
    obtain ⟨part, -, hpart⟩ := List.mem_flatMap.mp (List.mem_of_mem_filter hm)
    obtain ⟨numbered, -, rfl⟩ := List.mem_map.mp hpart
    rfl
  · rw [sum_named, sum_gaps]
    congr 2
    refine List.map_congr_left fun part hpart => ?_
    have hpart' := List.mem_of_mem_filter hpart
    have hnodup := part_nodup (List.Nodup.of_map Row.order hrows) hpart'
    refine numberedTotals_exact hnodup (runNumbers_perm _ _ _ _) fun a n ha => ?_
    refine runNumbers_exact (by decide) hnodup (w₁.sorted part.2) (w₂.sorted _) (fun b hb c hc heq => ?_) ha
    exact List.inj_on_of_nodup_map hrows ((mem_part hpart').mp hb).1 ((mem_part hpart').mp hc).1 heq

/-- The statistics agree where the totals do. -/
theorem fastStats_eq_iff {w₁' : Window (Row U) Row.ts} {w₂' : Window (Row U × Nat) fun m => m.1.ts} {visitors pageviews period : Nat}
    (hvisitors : visitors = (generalStats overrides plan rows w₁ w₂ period).visitors)
    (hpageviews : pageviews = (generalStats overrides plan rows w₁ w₂ period).pageviews) :
    fastStats overrides plan rows w₁' w₂' visitors pageviews period = generalStats overrides plan rows w₁ w₂ period ↔
      fastTotals overrides plan rows w₁' w₂' period = totals (generalSessions overrides plan rows w₁ w₂ period) := by
  have hfast : (fastTotals overrides plan rows w₁' w₂' period).1 = 0 → _ := fastTotals_none
  have hgeneral : (totals (generalSessions overrides plan rows w₁ w₂ period)).1 = 0 → _ := totals_none
  rw [hvisitors, hpageviews, fastStats, generalStats]
  generalize fastTotals overrides plan rows w₁' w₂' period = fast at hfast ⊢
  generalize totals (generalSessions overrides plan rows w₁ w₂ period) = general at hgeneral ⊢
  obtain ⟨sessions, bounces, durationUs⟩ := fast
  obtain ⟨sessions', bounces', durationUs'⟩ := general
  simp only [PeriodStats.mk.injEq, true_and, Prod.mk.injEq] at *
  constructor
  · rintro ⟨rfl, rfl, hmean⟩
    exact ⟨rfl, rfl, (mean_inj hfast hgeneral).mp hmean⟩
  · rintro ⟨rfl, rfl, rfl⟩
    exact ⟨rfl, rfl, (mean_inj hfast hgeneral).mpr rfl⟩

/-- Sums that differ in one place differ. -/
private theorem sum_ne_of_one {ι : Type} {f g : ι → Totals} {l : List ι} (hl : l.Nodup) {x : ι} (hx : x ∈ l) (hne : f x ≠ g x)
    (h : ∀ y ∈ l, y ≠ x → f y = g y) : (l.map f).sum ≠ (l.map g).sum := by
  induction l with
  | nil => cases hx
  | cons z l ih =>
    obtain ⟨hz, hl⟩ := List.nodup_cons.mp hl
    rw [List.map_cons, List.map_cons, List.sum_cons, List.sum_cons]
    rcases List.mem_cons.mp hx with rfl | hx
    · have hrest : l.map f = l.map g := List.map_congr_left fun y hy => h y (List.mem_cons_of_mem x hy) fun heq => hz (heq ▸ hy)
      rw [hrest]
      exact fun heq => hne (add_right_cancel heq)
    · rw [h z (List.mem_cons_self ..) fun heq => hz (heq ▸ hx)]
      exact fun heq => ih hl hx (fun y hy => h y (List.mem_cons_of_mem z hy)) (add_left_cancel heq)

/-- The totals of both paths agree in both periods, whatever the order of the events that tie, where the partitions are settled and nowhere else. -/
theorem totals_agree_iff (hrows : (rows.map Row.order).Nodup) :
    (∀ (w₁' : Window (Row U) Row.ts) (w₂' : Window (Row U × Nat) fun m => m.1.ts), ∀ period < 2,
      fastTotals overrides plan rows w₁' w₂' period = totals (generalSessions overrides plan rows w₁ w₂ period)) ↔
      ∀ part ∈ sessionless overrides plan rows, Settled part.2 := by
  have hnodup : rows.Nodup := List.Nodup.of_map Row.order hrows
  simp only [generalTotals w₁ w₂ hrows, fastTotals_eq]
  constructor
  · intro h part hpart
    by_contra hs
    obtain ⟨w₁', w₂', hdiffer, hothers⟩ := exists_windows (part_nodup hnodup hpart) hs
    have hperiod : part.1.1 < 2 := by
      obtain ⟨⟨row, -, hkey⟩, -⟩ := mem_groups.mp hpart
      rw [← hkey, Plan.period]
      dsimp only
      split <;> omega
    have heq := add_left_cancel (h w₁' w₂' part.1.1 hperiod)
    have hmem : part ∈ partsOf overrides plan rows part.1.1 := List.mem_filter.mpr ⟨hpart, decide_eq_true rfl⟩
    have hparts : (partsOf overrides plan rows part.1.1).Nodup := (List.Nodup.of_map Prod.fst groups_nodup).filter _
    have hsub : ∀ other ∈ partsOf overrides plan rows part.1.1, other ≠ part →
        numberedTotals (runNumbers sessionGapMicros w₁' w₂' other.2) = visitTotals other.2 := fun other hother hne =>
      hothers other.2 (part_nodup hnodup (List.mem_of_mem_filter hother)) (part_disjoint hpart (List.mem_of_mem_filter hother) hne)
    exact sum_ne_of_one hparts hmem hdiffer hsub heq
  · intro hs w₁' w₂' period _
    congr 2
    refine List.map_congr_left fun part hpart => ?_
    have hpart' := List.mem_of_mem_filter hpart
    exact (hs part hpart').numbered w₁' w₂' (part_nodup hnodup hpart')

end general
end Hoglet.Explore
