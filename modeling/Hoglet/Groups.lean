import Mathlib.Algebra.BigOperators.Group.Finset.Basic
import Mathlib.Data.List.Dedup
import Mathlib.Data.List.Sort
import Mathlib.Tactic

/-! Tables as lists of rows: grouping them by a key, and sums over the groups. -/
namespace Hoglet
variable {α κ μ : Type} [DecidableEq κ]

/-- `GROUP BY`: every key with its rows. -/
def groups (key : α → κ) (rows : List α) : List (κ × List α) :=
  (rows.map key).dedup.map fun k => (k, rows.filter (key · = k))

section groups
variable {key : α → κ} {rows : List α}

theorem mem_groups {g : κ × List α} : g ∈ groups key rows ↔ (∃ a ∈ rows, key a = g.1) ∧ g.2 = rows.filter (key · = g.1) := by
  simp only [groups, List.mem_map, List.mem_dedup]
  constructor
  · rintro ⟨k, ⟨a, ha, rfl⟩, rfl⟩
    exact ⟨⟨a, ha, rfl⟩, rfl⟩
  · rintro ⟨⟨a, ha, hk⟩, hg⟩
    exact ⟨g.1, ⟨a, ha, hk⟩, Prod.ext rfl hg.symm⟩

theorem exists_group {a : α} (h : a ∈ rows) : ∃ g ∈ groups key rows, g.1 = key a :=
  ⟨(key a, rows.filter (key · = key a)), mem_groups.mpr ⟨⟨a, h, rfl⟩, rfl⟩, rfl⟩

theorem groups_nodup : ((groups key rows).map Prod.fst).Nodup := by
  have hfst : (groups key rows).map Prod.fst = (rows.map key).dedup := by simp [groups, Function.comp_def]
  rw [hfst]
  exact List.nodup_dedup _

variable [AddCommMonoid μ] (f : κ × List α → μ)

theorem sum_groups : ((groups key rows).map f).sum = ∑ k ∈ (rows.map key).toFinset, f (k, rows.filter (key · = k)) := by
  have hkeys : (rows.map key).toFinset = (rows.map key).dedup.toFinset := List.toFinset.ext fun k => List.mem_dedup.symm
  rw [hkeys, List.sum_toFinset _ (List.nodup_dedup _), groups, List.map_map]
  rfl

/-- A group without rows adds nothing, so that the sum may run over any keys that include those of the rows. -/
theorem sum_groups_subset (hf : ∀ k, f (k, []) = 0) {keys : Finset κ} (hk : ∀ a ∈ rows, key a ∈ keys) :
    ((groups key rows).map f).sum = ∑ k ∈ keys, f (k, rows.filter (key · = k)) := by
  rw [sum_groups]
  apply Finset.sum_subset
  · intro k hmem
    obtain ⟨a, ha, rfl⟩ := List.mem_map.mp (List.mem_toFinset.mp hmem)
    exact hk a ha
  · intro k _ hnot
    have hnil : rows.filter (key · = k) = [] := List.filter_eq_nil_iff.mpr fun a ha heq =>
      hnot (List.mem_toFinset.mpr (List.mem_map.mpr ⟨a, ha, by simpa using heq⟩))
    rw [hnil, hf]

variable (key) in
omit [AddCommMonoid μ] in
/-- Renaming the keys leaves the groups. -/
theorem groups_comp {κ' : Type} [DecidableEq κ'] {g : κ → κ'} (hg : g.Injective) :
    groups (fun a => g (key a)) rows = (groups key rows).map (Prod.map g id) := by
  have hmap : rows.map (fun a => g (key a)) = (rows.map key).map g := by simp
  rw [groups, hmap, List.dedup_map_of_injective hg, List.map_map, groups, List.map_map]
  apply List.map_congr_left
  intro k _
  simp [hg.eq_iff]

/-- Grouping by a pair of keys groups the rows of each first key by the second. -/
theorem sum_groups_pair {ι : Type} [DecidableEq ι] (outer : α → ι) (f : List α → μ) (hf : f [] = 0) :
    ((groups (fun a => (outer a, key a)) rows).map (f ·.2)).sum =
      ((groups outer rows).map fun g => ((groups key g.2).map (f ·.2)).sum).sum := by
  have hkeys : ∀ a ∈ rows, (outer a, key a) ∈ (rows.map outer).toFinset ×ˢ (rows.map key).toFinset := fun a ha =>
    Finset.mem_product.mpr ⟨List.mem_toFinset.mpr (List.mem_map_of_mem ha), List.mem_toFinset.mpr (List.mem_map_of_mem ha)⟩
  rw [sum_groups_subset (fun g => f g.2) (fun _ => hf) hkeys, Finset.sum_product, sum_groups]
  refine Finset.sum_congr rfl fun i _ => ?_
  have hinner : ∀ a ∈ rows.filter (outer · = i), key a ∈ (rows.map key).toFinset := fun a ha =>
    List.mem_toFinset.mpr (List.mem_map_of_mem (List.mem_of_mem_filter ha))
  rw [sum_groups_subset (fun g => f g.2) (fun _ => hf) hinner]
  refine Finset.sum_congr rfl fun k _ => ?_
  congr 1
  rw [List.filter_filter]
  apply List.filter_congr
  intro a _
  simp [and_comm]

omit [AddCommMonoid μ] in
private theorem filter_key (q : κ → Bool) (k : κ) :
    (rows.filter fun a => q (key a)).filter (key · = k) = if q k then rows.filter (key · = k) else [] := by
  rw [List.filter_filter]
  split
  · rename_i hq
    apply List.filter_congr
    intro a _
    by_cases hk : key a = k <;> simp [hk, hq]
  · rename_i hq
    refine List.filter_eq_nil_iff.mpr fun a _ => ?_
    by_cases hk : key a = k <;> simp [hk, hq]

/-- The groups whose key passes a test are the groups of the rows whose key does. -/
theorem sum_groups_filter (q : κ → Bool) (f : List α → μ) (hf : f [] = 0) :
    (((groups key rows).filter fun g => q g.1).map (f ·.2)).sum = ((groups key (rows.filter fun a => q (key a))).map (f ·.2)).sum := by
  have hfilter : ∀ l : List (κ × List α), ((l.filter fun g => q g.1).map (f ·.2)).sum = (l.map fun g => if q g.1 then f g.2 else 0).sum := by
    intro l
    induction l with
    | nil => rfl
    | cons g l ih => by_cases hq : q g.1 = true <;> simp [hq, ih]
  have hkeys : ∀ a ∈ rows.filter (fun a => q (key a)), key a ∈ (rows.map key).toFinset := fun a ha =>
    List.mem_toFinset.mpr (List.mem_map_of_mem (List.mem_of_mem_filter ha))
  rw [hfilter, sum_groups, sum_groups_subset (fun g => f g.2) (fun _ => hf) hkeys]
  refine Finset.sum_congr rfl fun k _ => ?_
  rw [filter_key]
  by_cases hq : q k = true <;> simp [hq, hf]

/-- The groups on the two sides of a test on the key. -/
theorem sum_groups_split (q : κ → Bool) (f : List α → μ) (hf : f [] = 0) :
    ((groups key rows).map (f ·.2)).sum = ((groups key (rows.filter fun a => q (key a))).map (f ·.2)).sum +
      ((groups key (rows.filter fun a => !q (key a))).map (f ·.2)).sum := by
  have hkeys : ∀ p : α → Bool, ∀ a ∈ rows.filter p, key a ∈ (rows.map key).toFinset := fun p a ha =>
    List.mem_toFinset.mpr (List.mem_map_of_mem (List.mem_of_mem_filter ha))
  rw [sum_groups, sum_groups_subset (fun g => f g.2) (fun _ => hf) (hkeys fun a => q (key a)),
    sum_groups_subset (fun g => f g.2) (fun _ => hf) (hkeys fun a => !q (key a)), ← Finset.sum_add_distrib]
  refine Finset.sum_congr rfl fun k _ => ?_
  rw [filter_key, filter_key fun k => !q k]
  by_cases hq : q k = true <;> simp [hq, hf]

omit [AddCommMonoid μ] in
/-- Grouping the images of rows. -/
theorem groups_map {β : Type} {h : β → α} {l : List β} :
    groups key (l.map h) = (groups (fun b => key (h b)) l).map fun g => (g.1, g.2.map h) := by
  simp only [groups, List.map_map, List.filter_map, Function.comp_def]

omit [AddCommMonoid μ] in
/-- The groups hold the rows. -/
theorem flatMap_groups_perm : ((groups key rows).flatMap Prod.snd).Perm rows := by
  classical
  rw [List.perm_iff_count]
  intro a
  have hsum : ((groups key rows).map fun g => g.2.count a).sum = _ := sum_groups _
  rw [List.count_flatMap]
  refine hsum.trans ?_
  rw [Finset.sum_eq_single (key a)]
  · exact List.count_filter (by simp)
  · intro k _ hne
    refine List.count_eq_zero.mpr fun h => hne ?_
    exact (of_decide_eq_true (List.mem_filter.mp h).2).symm
  · intro hnot
    refine List.count_eq_zero.mpr fun h => hnot ?_
    exact List.mem_toFinset.mpr (List.mem_map_of_mem (List.mem_of_mem_filter h))

/-- Rows of one key are one group. -/
theorem sum_groups_one (f : List α → μ) (hf : f [] = 0) {k : κ} (h : ∀ a ∈ rows, key a = k) :
    ((groups key rows).map (f ·.2)).sum = f rows := by
  have hkeys : ∀ a ∈ rows, key a ∈ ({k} : Finset κ) := fun a ha => Finset.mem_singleton.mpr (h a ha)
  rw [sum_groups_subset (fun g => f g.2) (fun _ => hf) hkeys, Finset.sum_singleton,
    List.filter_eq_self.mpr fun a ha => decide_eq_true (h a ha)]

/-- Rows whose keys a test tells apart are grouped apart. -/
theorem sum_groups_append (q : κ → Bool) (f : List α → μ) (hf : f [] = 0) {left right : List α} (hl : ∀ a ∈ left, q (key a) = true)
    (hr : ∀ a ∈ right, q (key a) = false) : ((groups key (left ++ right)).map (f ·.2)).sum =
      ((groups key left).map (f ·.2)).sum + ((groups key right).map (f ·.2)).sum := by
  have hleft : (left ++ right).filter (fun a => q (key a)) = left := by
    rw [List.filter_append, List.filter_eq_self.mpr hl, List.filter_eq_nil_iff.mpr fun a ha => by simp [hr a ha], List.append_nil]
  have hright : (left ++ right).filter (fun a => !q (key a)) = right := by
    rw [List.filter_append, List.filter_eq_nil_iff.mpr fun a ha => by simp [hl a ha],
      List.filter_eq_self.mpr fun a ha => by simp [hr a ha], List.nil_append]
  rw [sum_groups_split q f hf, hleft, hright]

/-- Rows made under distinct keys are grouped as they were made. -/
theorem sum_groups_flatMap {β : Type} (f : List α → μ) (hf : f [] = 0) {l : List (κ × β)} (hl : (l.map Prod.fst).Nodup)
    {make : κ × β → List α} (hkey : ∀ g ∈ l, ∀ a ∈ make g, key a = g.1) :
    ((groups key (l.flatMap make)).map (f ·.2)).sum = (l.map fun g => f (make g)).sum := by
  induction l with
  | nil => rfl
  | cons g l ih =>
    obtain ⟨hg, hl⟩ := List.nodup_cons.mp hl
    have hthis : ∀ a ∈ make g, key a = g.1 := hkey g (List.mem_cons_self ..)
    have hrest : ∀ a ∈ l.flatMap make, key a ≠ g.1 := fun a ha heq => by
      obtain ⟨g', hg', ha⟩ := List.mem_flatMap.mp ha
      exact hg (heq ▸ hkey g' (List.mem_cons_of_mem g hg') a ha ▸ List.mem_map_of_mem hg')
    rw [List.flatMap_cons, sum_groups_append (fun k => decide (k = g.1)) f hf (fun a ha => decide_eq_true (hthis a ha))
      fun a ha => decide_eq_false (hrest a ha), sum_groups_one f hf hthis, ih hl fun g' hg' => hkey g' (List.mem_cons_of_mem g hg'),
      List.map_cons, List.sum_cons]

/-- The rows of the groups whose key passes a test. -/
theorem sum_groups_length (c : κ → Prop) [DecidablePred c] :
    ((groups key rows).map fun g => if c g.1 then g.2.length else 0).sum = rows.countP fun a => c (key a) := by
  have hsum : ∀ l : List α, ∀ keys : Finset κ, (∀ a ∈ l, key a ∈ keys) →
      (∑ k ∈ keys, if c k then (l.filter (key · = k)).length else 0) = l.countP fun a => c (key a) := by
    intro l keys
    induction l with
    | nil => simp
    | cons a l ih =>
      intro hmem
      have hone : (∑ k ∈ keys, if c k ∧ key a = k then 1 else 0) = if c (key a) then 1 else 0 := by
        rw [Finset.sum_eq_single (key a)]
        · simp
        · intro k _ hne
          exact if_neg fun h => hne h.2.symm
        · intro hnot
          exact absurd (hmem a (List.mem_cons_self ..)) hnot
      rw [List.countP_cons, ← ih fun b hb => hmem b (List.mem_cons_of_mem a hb)]
      simp only [decide_eq_true_eq]
      rw [← hone, ← Finset.sum_add_distrib]
      refine Finset.sum_congr rfl fun k _ => ?_
      by_cases hk : key a = k <;> by_cases hc : c k <;> simp [hk, hc]
  rw [sum_groups fun g => if c g.1 then g.2.length else 0]
  exact hsum rows _ fun a ha => List.mem_toFinset.mpr (List.mem_map_of_mem ha)

variable (key rows) in
/-- The groups of one second key that have a row of a kind are as many as the first keys of such rows. -/
theorem countP_groups {ι : Type} [DecidableEq ι] (outer : α → ι) (k : κ) (P : α → Bool) {p : (ι × κ) × List α → Bool}
    (hp : ∀ g ∈ groups (fun a => (outer a, key a)) rows, p g = true ↔ g.1.2 = k ∧ ∃ a ∈ g.2, P a = true) :
    (groups (fun a => (outer a, key a)) rows).countP p = ((rows.filter fun a => key a = k && P a).map outer).dedup.length := by
  have hnodup : (groups (fun a => (outer a, key a)) rows).Nodup := List.Nodup.of_map Prod.fst groups_nodup
  have hinj : ∀ g ∈ (groups (fun a => (outer a, key a)) rows).filter p, ∀ g' ∈ (groups (fun a => (outer a, key a)) rows).filter p,
      g.1.1 = g'.1.1 → g = g' := by
    intro g hg g' hg' heq
    obtain ⟨hg, hpg⟩ := List.mem_filter.mp hg
    obtain ⟨hg', hpg'⟩ := List.mem_filter.mp hg'
    exact List.inj_on_of_nodup_map groups_nodup hg hg' (Prod.ext heq (((hp g hg).mp hpg).1.trans ((hp g' hg').mp hpg').1.symm))
  rw [List.countP_eq_length_filter, ← List.length_map (f := fun g : (ι × κ) × List α => g.1.1)]
  apply List.Perm.length_eq
  rw [List.perm_ext_iff_of_nodup ((hnodup.filter p).map_on hinj) (List.nodup_dedup _)]
  intro i
  rw [List.mem_dedup, List.mem_map, List.mem_map]
  constructor
  · rintro ⟨g, hg, rfl⟩
    obtain ⟨hg, hpg⟩ := List.mem_filter.mp hg
    obtain ⟨hk, a, ha, hPa⟩ := (hp g hg).mp hpg
    rw [(mem_groups.mp hg).2] at ha
    obtain ⟨ha, hkey⟩ := List.mem_filter.mp ha
    have hkey := of_decide_eq_true hkey
    exact ⟨a, List.mem_filter.mpr ⟨ha, by simp [hPa, ← hk, ← hkey]⟩, by rw [← hkey]⟩
  · rintro ⟨a, ha, rfl⟩
    obtain ⟨ha, hPa⟩ := List.mem_filter.mp ha
    rw [Bool.and_eq_true, decide_eq_true_eq] at hPa
    obtain ⟨g, hg, hkey⟩ : ∃ g ∈ groups (fun a => (outer a, key a)) rows, g.1 = (outer a, key a) := exists_group ha
    refine ⟨g, List.mem_filter.mpr ⟨hg, (hp g hg).mpr ⟨by rw [hkey]; exact hPa.1, a, ?_, hPa.2⟩⟩, by rw [hkey]⟩
    rw [(mem_groups.mp hg).2]
    exact List.mem_filter.mpr ⟨ha, by simp [hkey]⟩

end groups

/-- The first ones of a ranking are those with few before them. -/
theorem mem_take_iff {r : α → α → Bool} (hr : ∀ a b, r a b = true → r b a = false) {l : List α}
    (hl : l.Pairwise fun a b => r a b = true) {a : α} (ha : a ∈ l) {n : Nat} : a ∈ l.take n ↔ (l.filter (r · a)).length < n := by
  have hirrefl : r a a = false := by
    cases h : r a a with
    | false => rfl
    | true => exact (hr a a h).symm.trans h |>.symm
  obtain ⟨before, rest, rfl⟩ := List.append_of_mem ha
  obtain ⟨-, hrest, hbefore⟩ := List.pairwise_append.mp hl
  have hfilter : (before ++ a :: rest).filter (r · a) = before := by
    rw [List.filter_append, List.filter_eq_self.mpr fun b hb => hbefore b hb a (List.mem_cons_self ..), List.filter_cons,
      if_neg (by rw [hirrefl]; exact Bool.false_ne_true),
      List.filter_eq_nil_iff.mpr fun b hb => by rw [hr a b ((List.pairwise_cons.mp hrest).1 b hb)]; exact Bool.false_ne_true,
      List.append_nil]
  rw [hfilter, List.take_append]
  constructor
  · intro hmem
    by_contra hle
    rw [Nat.sub_eq_zero_of_le (not_lt.mp hle), List.take_zero, List.append_nil] at hmem
    have hself := hbefore a (List.mem_of_mem_take hmem) a (List.mem_cons_self ..)
    rw [hirrefl] at hself
    cases hself
  · intro hlt
    obtain ⟨k, hk⟩ : ∃ k, n - before.length = k + 1 := ⟨n - before.length - 1, by omega⟩
    rw [hk]
    simp

/-- Lists of the same entries have as many distinct ones. -/
theorem length_dedup_congr {l l' : List κ} (h : ∀ k, k ∈ l ↔ k ∈ l') : l.dedup.length = l'.dedup.length := by
  apply List.Perm.length_eq
  rw [List.perm_ext_iff_of_nodup (List.nodup_dedup l) (List.nodup_dedup l')]
  intro k
  rw [List.mem_dedup, List.mem_dedup, h]

end Hoglet
