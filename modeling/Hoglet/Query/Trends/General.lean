import Hoglet.Query.Trends.Answer
import Hoglet.Query.Trends.Periods

/-! The general SQL of the active-person maths counts the distinct persons of every bucket: those of a group, or the
islands that hold the end of a window. -/
namespace Hoglet.Query.Trends
variable {C : Chrono} {ctx : Ctx} {q : TrendsQuery} {node : EventNode} {period : Period} {top : Option Top}

variable (C ctx q node period top) in
/-- The values of the active-person maths. -/
def PersonAnswer (rows : Masked) : Prop :=
  Answer period.buckets (fun bucket key => (bucketPersons C ctx q node period top bucket key).length)
    (fun key => (rangePersons ctx q node period top key).length) rows

private theorem exists_of_length {l : List String} (h : (l.length : Rat) ≠ 0) : ∃ person, person ∈ l := by
  cases l with
  | nil => simp at h
  | cons person _ => exact ⟨person, List.mem_cons_self ..⟩

/-! Distinct counts of groups. -/

/-- The events of the range by breakdown have the persons of the range. -/
private theorem range_group {g : Option String × List Event}
    (hg : g ∈ groups (breakdownKey ctx q top) ((ctx.relation period.range.fromUs period.range.toUs).filter (predicate ctx q node))) :
    (g.2.map ctx.person).dedup.length = (rangePersons ctx q node period top g.1).length := by
  apply length_rangePersons
  intro person
  rw [mem_rangePersons, (mem_groups.mp hg).2, List.mem_map]
  simp only [List.mem_filter, decide_eq_true_eq, and_assoc]

private theorem exists_range_group {key : Option String} (h : ((rangePersons ctx q node period top key).length : Rat) ≠ 0) :
    ∃ g ∈ groups (breakdownKey ctx q top) ((ctx.relation period.range.fromUs period.range.toUs).filter (predicate ctx q node)), g.1 = key := by
  obtain ⟨person, hperson⟩ := exists_of_length h
  obtain ⟨e, he, ⟨hpred, rfl⟩, -⟩ := mem_rangePersons.mp hperson
  exact exists_group (List.mem_filter.mpr ⟨he, hpred⟩)

theorem groupingSets_answer (hmath : node.math = .dau) : PersonAnswer C ctx q node period top (groupingSets ctx q node period top, []) := by
  have haggregate : ∀ events, aggregate ctx node events = some ((events.map ctx.person).dedup.length : Rat) := fun events => by
    rw [aggregate, hmath]
  have hcounts : ∀ bucket ts, counts C node.math period bucket ts = true ↔
      (period.range.fromUs ≤ ts ∧ ts < period.range.toUs) ∧ bucketExpr period.range.interval ts = bucket := fun bucket ts => by
    rw [counts, hmath, and_assoc]
    exact decide_eq_true_iff
  constructor
  · intro row hr hw
    rcases List.mem_append.mp hr with hr | hr
    · obtain ⟨g, hg, rfl⟩ := List.mem_map.mp hr
      refine ⟨g.1.1, rfl, ?_⟩
      refine (haggregate g.2).trans (congrArg (fun n : Nat => some (n : Rat)) ?_)
      apply length_bucketPersons
      intro person
      rw [mem_bucketPersons, (mem_groups.mp hg).2, List.mem_map]
      constructor
      · rintro ⟨e, he, rfl⟩
        obtain ⟨he, hkey⟩ := List.mem_filter.mp he
        obtain ⟨hrel, hpred⟩ := List.mem_filter.mp he
        obtain ⟨hevent, hrange⟩ := mem_relation.mp hrel
        have hkey := of_decide_eq_true hkey
        refine ⟨e, hevent, (hcounts _ _).mpr ⟨hrange, ?_⟩, ⟨hpred, ?_⟩, rfl⟩ <;> simp [← hkey]
      · rintro ⟨e, hevent, hc, ⟨hpred, hkey⟩, rfl⟩
        obtain ⟨hrange, hbucket⟩ := (hcounts _ _).mp hc
        refine ⟨e, List.mem_filter.mpr ⟨List.mem_filter.mpr ⟨mem_relation.mpr ⟨hevent, hrange⟩, hpred⟩, ?_⟩, rfl⟩
        exact decide_eq_true (Prod.ext hbucket hkey)
    · obtain ⟨g, -, rfl⟩ := List.mem_map.mp hr
      cases hw
  · intro row hr hw
    rcases List.mem_append.mp hr with hr | hr
    · obtain ⟨g, -, rfl⟩ := List.mem_map.mp hr
      cases hw
    · obtain ⟨g, hg, rfl⟩ := List.mem_map.mp hr
      rw [haggregate, range_group hg]
  · intro row hr
    cases hr
  · intro bucket _ key hne
    obtain ⟨person, hperson⟩ := exists_of_length hne
    obtain ⟨e, hevent, hc, ⟨hpred, hkey⟩, -⟩ := mem_bucketPersons.mp hperson
    obtain ⟨hrange, hbucket⟩ := (hcounts _ _).mp hc
    have he : e ∈ (ctx.relation period.range.fromUs period.range.toUs).filter (predicate ctx q node) :=
      List.mem_filter.mpr ⟨mem_relation.mpr ⟨hevent, hrange⟩, hpred⟩
    obtain ⟨g, hg, hgkey⟩ : ∃ g ∈ groups (fun e => (bucketExpr period.range.interval e.ts, breakdownKey ctx q top e)) _,
      g.1 = (bucketExpr period.range.interval e.ts, breakdownKey ctx q top e) := exists_group he
    refine ⟨_, List.mem_append_left _ (List.mem_map_of_mem hg), rfl, ?_, ?_⟩
    · rw [hgkey, hbucket]
    · rw [hgkey, hkey]
  · intro key hne
    obtain ⟨g, hg, hgkey⟩ := exists_range_group hne
    exact .inl ⟨_, List.mem_append_right _ (List.mem_map_of_mem hg), rfl, hgkey⟩

/-! Islands. -/

section windows
variable {days : Int}

/-- What one entry of a list without duplicates adds. -/
private theorem sum_single {l : List Int} (hl : l.Nodup) {f : Int → Nat} {a : Int} (ha : a ∈ l) (h : ∀ b ∈ l, b ≠ a → f b = 0) :
    (l.map f).sum = f a := by
  rw [← List.sum_toFinset f hl]
  apply Finset.sum_eq_single a
  · exact fun b hb hne => h b (List.mem_toFinset.mp hb) hne
  · exact fun hnot => absurd (List.mem_toFinset.mpr ha) hnot

variable (hp : period.Covered C) (hd : node.math.windowDays = some days) {bucket : Int} (hb : bucket ∈ period.buckets)
include hp hd hb

/-- The islands of a breakdown value that hold the end of a window are the persons active in it. -/
theorem countP_personIslands (key : Option String) :
    ((personIslands C ctx q node period top days).countP fun i => i.1 = key ∧ i.2.Holds (nextBucket C bucket period.range.interval)) =
      (bucketPersons C ctx q node period top bucket key).length := by
  unfold personIslands
  extract_lets events pairs
  generalize hstop : nextBucket C bucket period.range.interval = stop
  have hpart : ∀ part : (String × Option String) × List ((String × Option String) × Int),
      ((islands (days * dayUs) (part.2.map Prod.snd)).map fun island => (part.1.2, island)).countP (fun i => i.1 = key ∧ i.2.Holds stop) =
        if part.1.2 = key ∧ ∃ pair ∈ part.2, pair.2 < stop ∧ stop ≤ pair.2 + days * dayUs then 1 else 0 := by
    intro part
    rw [List.countP_map]
    by_cases hkey : part.1.2 = key
    · have hcount := countP_islands (days * dayUs) (part.2.map Prod.snd) stop
      simp only [List.mem_map, exists_exists_and_eq_and] at hcount
      simp only [hkey, true_and, Function.comp_def]
      exact hcount
    · simp [hkey, Function.comp_def]
  have hsum : ∀ parts : List ((String × Option String) × List ((String × Option String) × Int)),
      (parts.map fun part => if part.1.2 = key ∧ ∃ pair ∈ part.2, pair.2 < stop ∧ stop ≤ pair.2 + days * dayUs then 1 else 0).sum =
        parts.countP fun part => part.1.2 = key ∧ ∃ pair ∈ part.2, pair.2 < stop ∧ stop ≤ pair.2 + days * dayUs := by
    intro parts
    induction parts with
    | nil => rfl
    | cons part parts ih =>
      rw [List.map_cons, List.sum_cons, ih, List.countP_cons, Nat.add_comm]
      simp only [decide_eq_true_eq]
  rw [List.countP_flatMap, Function.comp_def]
  simp only [hpart]
  rw [hsum]
  refine (countP_groups (fun pair : (String × Option String) × Int => pair.1.2) pairs (fun pair => pair.1.1) key
    (fun pair => pair.2 < stop ∧ stop ≤ pair.2 + days * dayUs) fun part _ => ?_).trans ?_
  · simp only [decide_eq_true_eq]
  apply length_bucketPersons
  intro person
  rw [mem_bucketPersons, List.mem_map]
  have hcovers : ∀ e ∈ events, (bucketExpr (granule period.range.interval) e.ts < stop ∧
      stop ≤ bucketExpr (granule period.range.interval) e.ts + days * dayUs) ↔ counts C node.math period bucket e.ts = true := by
    intro e he
    obtain ⟨-, -, hlt⟩ := mem_relation.mp (List.mem_filter.mp he).1
    rw [← hstop]
    exact granule_covers hp hb hd hlt
  constructor
  · rintro ⟨pair, hpair, rfl⟩
    obtain ⟨hpair, hkey⟩ := List.mem_filter.mp hpair
    obtain ⟨e, he, rfl⟩ := List.mem_map.mp (List.mem_dedup.mp hpair)
    simp only [Bool.and_eq_true, decide_eq_true_eq] at hkey
    obtain ⟨hrel, hpred⟩ := List.mem_filter.mp he
    exact ⟨e, (mem_relation.mp hrel).1, (hcovers e he).mp hkey.2, ⟨hpred, hkey.1⟩, rfl⟩
  · rintro ⟨e, hevent, hc, ⟨hpred, hkey⟩, rfl⟩
    have he : e ∈ events := by
      refine List.mem_filter.mpr ⟨mem_relation.mpr ⟨hevent, ?_⟩, hpred⟩
      have hload := (windowFrom_le C period days).2 bucket hb
      rw [counts, hd] at hc
      obtain ⟨hlo, hhi⟩ := of_decide_eq_true hc
      exact ⟨hload.trans hlo, hhi.trans_le (min_le_right _ _)⟩
    refine ⟨((ctx.person e, breakdownKey ctx q top e), bucketExpr (granule period.range.interval) e.ts), List.mem_filter.mpr ⟨?_, ?_⟩, rfl⟩
    · exact List.mem_dedup.mpr (List.mem_map_of_mem he)
    · simpa only [Bool.and_eq_true, decide_eq_true_eq] using ⟨hkey, (hcovers e he).mpr hc⟩

/-- The joined rows of a bucket and a breakdown value. -/
private theorem countP_joined (key : Option String) :
    (((period.buckets.map fun bucket => (bucket, nextBucket C bucket period.range.interval)).flatMap fun w =>
      ((personIslands C ctx q node period top days).filter fun i => i.2.Holds w.2).map fun i => (w.1, i.1)).countP
        fun row => row = (bucket, key)) = (bucketPersons C ctx q node period top bucket key).length := by
  rw [← countP_personIslands hp hd hb key, List.countP_flatMap, List.map_map]
  refine (sum_single (buckets_nodup hp) hb fun other _ hne => ?_).trans ?_
  · rw [Function.comp_apply, Function.comp_apply, List.countP_map, List.countP_eq_zero]
    intro i _ heq
    exact hne (Prod.mk.inj (of_decide_eq_true heq)).1
  · rw [Function.comp_apply, Function.comp_apply, List.countP_map, List.countP_filter]
    apply List.countP_congr
    intro i _
    simp [Prod.ext_iff]

end windows

theorem windowRows_answer (hp : period.Covered C) {days : Int} (hd : node.math.windowDays = some days) :
    PersonAnswer C ctx q node period top (windowRows C ctx q node period top days, rangeRows ctx q node period top) := by
  have hjoined : ∀ bucket ∈ period.buckets, ∀ key, _ = (bucketPersons C ctx q node period top bucket key).length :=
    fun bucket hb key => countP_joined hp hd hb key
  constructor
  · intro row hr _
    rw [windowRows] at hr
    obtain ⟨g, hg, rfl⟩ := List.mem_map.mp hr
    obtain ⟨⟨w, hw, hkey⟩, hrows⟩ := mem_groups.mp hg
    refine ⟨g.1.1, rfl, ?_⟩
    -- a joined row has one of the buckets
    have hb : g.1.1 ∈ period.buckets := by
      obtain ⟨slot, hslot, hin⟩ := List.mem_flatMap.mp hw
      obtain ⟨bucket, hb, rfl⟩ := List.mem_map.mp hslot
      obtain ⟨i, -, rfl⟩ := List.mem_map.mp hin
      rw [← hkey]
      exact hb
    refine congrArg (fun n : Nat => some (n : Rat)) ?_
    rw [← hjoined g.1.1 hb g.1.2, hrows, ← List.countP_eq_length_filter]
    rfl
  · intro row hr hw
    rw [windowRows] at hr
    obtain ⟨g, -, rfl⟩ := List.mem_map.mp hr
    cases hw
  · intro row hr
    obtain ⟨g, hg, rfl⟩ := List.mem_map.mp hr
    rw [range_group hg]
  · intro bucket hb key hne
    rw [← hjoined bucket hb key] at hne
    have hpos : 0 < List.countP _ _ := Nat.pos_of_ne_zero fun hzero => hne (by rw [hzero]; rfl)
    obtain ⟨w, hw, heq⟩ := List.countP_pos_iff.mp hpos
    obtain ⟨g, hg, hkey⟩ : ∃ g ∈ groups id _, g.1 = id w := exists_group hw
    refine ⟨_, List.mem_map_of_mem hg, rfl, ?_, ?_⟩
    · rw [hkey, of_decide_eq_true heq]
      rfl
    · rw [hkey, of_decide_eq_true heq]
      rfl
  · intro key hne
    obtain ⟨g, hg, hkey⟩ := exists_range_group hne
    exact .inr ⟨_, List.mem_map_of_mem hg, hkey⟩

/-- The general SQL of every active-person math has the persons of every bucket and of the range. -/
theorem generalRows_answer (hp : period.Covered C) (hmath : node.math.needsPerson = true) :
    PersonAnswer C ctx q node period top (generalRows C ctx q node period top) := by
  rw [generalRows]
  cases hd : node.math.windowDays with
  | some days => exact (windowRows_answer hp hd).perm (ctx.arrange_perm _) (ctx.arrange_perm _)
  | none =>
    have hdau : node.math = .dau := by
      cases h : node.math <;> rw [h] at hmath hd <;> cases hmath <;> first | rfl | cases hd
    exact (groupingSets_answer hdau).perm (ctx.arrange_perm _) (.refl _)

end Hoglet.Query.Trends
