import Hoglet.Gaps
import Hoglet.Groups

/-! Coverage merged into islands: every point covers the span after it, and a point no further from those before it than
a span belongs to their island. Two window functions find the islands, as they do runs; here the first point starts none. -/
namespace Hoglet

/-- A stretch of coverage, after its start and up to its stop. -/
structure Island where
  start : Int
  stop : Int

def Island.Holds (island : Island) (w : Int) : Prop := island.start < w ∧ w ≤ island.stop

instance (island : Island) (w : Int) : Decidable (island.Holds w) := inferInstanceAs (Decidable (_ ∧ _))

section islands
variable (span : Int)

/-- Every point with 1 when it lies more than the span after the largest before it, and 0 otherwise. -/
def islandMarks (largest : Option Int) : List Int → List (Int × Nat)
  | [] => []
  | g :: rest => (g, if ∃ m ∈ largest, m + span < g then 1 else 0) :: islandMarks (some (max (largest.getD g) g)) rest

/-- Every point with the number of its island. -/
def islandNumbers (points : List Int) : List (Int × Nat) :=
  numbered 0 (islandMarks span none (points.insertionSort (· ≤ ·)))

/-- From the least point of each island to a span after its greatest. -/
def islands (points : List Int) : List Island :=
  (groups Prod.snd (islandNumbers span points)).map fun g =>
    ⟨(g.2.map Prod.fst).min?.getD 0, (g.2.map Prod.fst).max?.getD 0 + span⟩

variable {span}

theorem map_islandMarks (largest : Option Int) (points : List Int) : (islandMarks span largest points).map Prod.fst = points := by
  induction points generalizing largest with
  | nil => rfl
  | cons g rest ih => rw [islandMarks, List.map_cons, ih]

theorem mem_islandNumbers {points : List Int} {g : Int} : (∃ n, (g, n) ∈ islandNumbers span points) ↔ g ∈ points := by
  have hmap : (islandNumbers span points).map Prod.fst = points.insertionSort (· ≤ ·) := by
    rw [islandNumbers, map_numbered, map_islandMarks]
  rw [← (List.perm_insertionSort (· ≤ ·) points).mem_iff, ← hmap, List.mem_map]
  constructor
  · rintro ⟨n, h⟩
    exact ⟨_, h, rfl⟩
  · rintro ⟨⟨_, n⟩, h, rfl⟩
    exact ⟨n, h⟩

/-- A later number comes after a gap from every point with an earlier one. -/
private theorem numbers_after {points : List Int} (hs : points.Pairwise (· ≤ ·)) {largest : Option Int}
    (hl : ∀ m ∈ largest, ∀ g ∈ points, m ≤ g) (n : Nat) :
    (∀ b ∈ numbered n (islandMarks span largest points), b.1 ∈ points ∧ n ≤ b.2 ∧ ∀ m ∈ largest, n < b.2 → m + span < b.1) ∧
      (numbered n (islandMarks span largest points)).Pairwise fun a b => a.1 ≤ b.1 ∧ a.2 ≤ b.2 ∧ (a.2 < b.2 → a.1 + span < b.1) := by
  induction points generalizing largest n with
  | nil => simp [islandMarks, numbered]
  | cons g rest ih =>
    obtain ⟨hg, hrest⟩ := List.pairwise_cons.mp hs
    have hmax : max (largest.getD g) g = g := by
      cases largest with
      | none => exact max_self g
      | some m => exact max_eq_right (hl m rfl g (List.mem_cons_self ..))
    rw [islandMarks, numbered, hmax]
    generalize hk : (if ∃ m ∈ largest, m + span < g then 1 else 0) = k
    have hfirst : ∀ m ∈ some g, ∀ b ∈ rest, m ≤ b := by
      rintro m ⟨⟩ b hb
      exact hg b hb
    obtain ⟨hafter, hpairs⟩ := ih hrest hfirst (n + k)
    constructor
    · intro b hb
      rcases List.mem_cons.mp hb with rfl | hb
      · refine ⟨List.mem_cons_self .., Nat.le_add_right n k, fun m hm hlt => ?_⟩
        by_contra hnot
        have hzero : k = 0 := by
          rw [← hk, if_neg]
          rintro ⟨m', hm', hlt'⟩
          rw [Option.mem_unique hm hm'] at hnot
          exact hnot hlt'
        dsimp only at hlt
        omega
      · obtain ⟨hmem, hle, hgap⟩ := hafter b hb
        refine ⟨List.mem_cons_of_mem _ hmem, (Nat.le_add_right n k).trans hle, fun m hm hlt => ?_⟩
        have hmg := hl m hm g (List.mem_cons_self ..)
        by_cases hfar : m + span < g
        · exact hfar.trans_le (hg b.1 hmem)
        · have hzero : k = 0 := by
            rw [← hk, if_neg]
            rintro ⟨m', hm', hlt'⟩
            rw [Option.mem_unique hm hm'] at hfar
            exact hfar hlt'
          have := hgap g rfl (by omega)
          omega
    · refine List.pairwise_cons.mpr ⟨fun b hb => ?_, hpairs⟩
      obtain ⟨hmem, hle, hgap⟩ := hafter b hb
      exact ⟨hg b.1 hmem, hle, hgap g rfl⟩

/-- Up to a point that starts no island, all is covered. -/
private theorem covered_from {points : List Int} (hs : points.Pairwise (· ≤ ·)) {m : Int} (hm : ∀ g ∈ points, m ≤ g) {n : Nat}
    {b : Int} (hb : (b, n) ∈ numbered n (islandMarks span (some m) points)) {w : Int} (hmw : m < w) (hwb : w ≤ b) :
    w ≤ m + span ∨ ∃ c ∈ points, c < w ∧ w ≤ c + span := by
  induction points generalizing m with
  | nil => cases hb
  | cons g rest ih =>
    obtain ⟨hg, hrest⟩ := List.pairwise_cons.mp hs
    have hmg := hm g (List.mem_cons_self ..)
    rw [islandMarks, numbered, Option.getD_some, max_eq_right hmg] at hb
    by_cases hfar : m + span < g
    · -- the mark here would be counted in every number from here on
      rw [if_pos ⟨m, rfl, hfar⟩] at hb
      rcases List.mem_cons.mp hb with heq | hb
      · have := (Prod.mk.inj heq).2
        omega
      · have := ((numbers_after hrest (by rintro m ⟨⟩ b hb; exact hg b hb) (n + 1)).1 _ hb).2.1
        dsimp only at this
        omega
    · rw [if_neg (by rintro ⟨m', ⟨⟩, hlt⟩; exact hfar hlt), Nat.add_zero] at hb
      by_cases hwg : w ≤ g
      · left
        omega
      · rcases List.mem_cons.mp hb with heq | hb
        · have := (Prod.mk.inj heq).1
          omega
        · rcases ih hrest hg hb (by omega) with hle | ⟨c, hc, hcw⟩
          · exact .inr ⟨g, List.mem_cons_self .., by omega, hle⟩
          · exact .inr ⟨c, List.mem_cons_of_mem _ hc, hcw⟩

/-- Between two points of an island all is covered. -/
private theorem covered_between {points : List Int} (hs : points.Pairwise (· ≤ ·)) {largest : Option Int}
    (hl : ∀ m ∈ largest, ∀ g ∈ points, m ≤ g) {n k : Nat} {a b : Int} (ha : (a, k) ∈ numbered n (islandMarks span largest points))
    (hb : (b, k) ∈ numbered n (islandMarks span largest points)) {w : Int} (haw : a < w) (hwb : w ≤ b) :
    ∃ c ∈ points, c < w ∧ w ≤ c + span := by
  induction points generalizing largest n with
  | nil => cases ha
  | cons g rest ih =>
    obtain ⟨hg, hrest⟩ := List.pairwise_cons.mp hs
    have hmax : max (largest.getD g) g = g := by
      cases largest with
      | none => exact max_self g
      | some m => exact max_eq_right (hl m rfl g (List.mem_cons_self ..))
    have hfirst : ∀ m ∈ some g, ∀ b ∈ rest, m ≤ b := by
      rintro m ⟨⟩ b hb
      exact hg b hb
    rw [islandMarks, numbered, hmax] at ha hb
    rcases List.mem_cons.mp ha with heq | ha
    · obtain ⟨rfl, rfl⟩ := Prod.mk.inj heq
      rcases List.mem_cons.mp hb with heq | hb
      · have := (Prod.mk.inj heq).1
        omega
      · rcases covered_from hrest hg hb haw hwb with hle | ⟨c, hc, hcw⟩
        · exact ⟨a, List.mem_cons_self .., haw, hle⟩
        · exact ⟨c, List.mem_cons_of_mem _ hc, hcw⟩
    · rcases List.mem_cons.mp hb with heq | hb
      · have hle := hg a ((numbers_after hrest hfirst _).1 _ ha).1
        have := (Prod.mk.inj heq).1
        omega
      · obtain ⟨c, hc, hcw⟩ := ih hrest hfirst ha hb
        exact ⟨c, List.mem_cons_of_mem _ hc, hcw⟩

/-- What at most one entry passes is counted at most once. -/
theorem countP_unique {α : Type} {p : α → Prop} [DecidablePred p] {l : List α} (hl : l.Nodup)
    (h : ∀ a ∈ l, ∀ b ∈ l, p a → p b → a = b) : l.countP p = if ∃ a ∈ l, p a then 1 else 0 := by
  induction l with
  | nil => simp
  | cons a l ih =>
    obtain ⟨ha, hl⟩ := List.nodup_cons.mp hl
    have hrest := ih hl fun b hb c hc => h b (List.mem_cons_of_mem _ hb) c (List.mem_cons_of_mem _ hc)
    by_cases hpa : p a
    · have hnone : ¬ ∃ b ∈ l, p b := by
        rintro ⟨b, hb, hpb⟩
        exact ha (h a (List.mem_cons_self ..) b (List.mem_cons_of_mem _ hb) hpa hpb ▸ hb)
      have hsome : ∃ b ∈ a :: l, p b := ⟨a, List.mem_cons_self .., hpa⟩
      rw [List.countP_cons, hrest, if_neg hnone, if_pos hsome]
      simp [hpa]
    · rw [List.countP_cons, hrest]
      simp [hpa]

section groups
variable {points : List Int}

private theorem sorted_points : (points.insertionSort (· ≤ ·)).Pairwise (· ≤ ·) := List.pairwise_insertionSort _ points

private theorem numbers_pairs : (islandNumbers span points).Pairwise fun a b =>
    a.1 ≤ b.1 ∧ a.2 ≤ b.2 ∧ (a.2 < b.2 → a.1 + span < b.1) :=
  (numbers_after sorted_points (by simp) 0).2

private theorem numbers_lt {a b : Int × Nat} (ha : a ∈ islandNumbers span points) (hb : b ∈ islandNumbers span points)
    (h : a.2 < b.2) : a.1 + span < b.1 := by
  obtain ⟨i, hi, rfl⟩ := List.mem_iff_getElem.mp ha
  obtain ⟨j, hj, rfl⟩ := List.mem_iff_getElem.mp hb
  rcases lt_trichotomy i j with hij | rfl | hij
  · exact (List.pairwise_iff_getElem.mp numbers_pairs i j hi hj hij).2.2 h
  · exact absurd h (lt_irrefl _)
  · exact absurd (List.pairwise_iff_getElem.mp numbers_pairs j i hj hi hij).2.1 (not_le.mpr h)

/-- The bounds of an island are those of some of its points. -/
private theorem bounds {g : Nat × List (Int × Nat)} (hg : g ∈ groups Prod.snd (islandNumbers span points)) :
    ∃ first last, (g.2.map Prod.fst).min?.getD 0 = first ∧ (g.2.map Prod.fst).max?.getD 0 = last ∧
      (first, g.1) ∈ islandNumbers span points ∧ (last, g.1) ∈ islandNumbers span points ∧
      ∀ p, (p, g.1) ∈ islandNumbers span points → first ≤ p ∧ p ≤ last := by
  obtain ⟨⟨a, ha, hkey⟩, hrows⟩ := mem_groups.mp hg
  have hmem : ∀ p, p ∈ g.2.map Prod.fst ↔ (p, g.1) ∈ islandNumbers span points := by
    intro p
    rw [hrows]
    simp
  have hp := (hmem a.1).mpr (hkey ▸ ha)
  obtain ⟨first, hfirst⟩ := Option.isSome_iff_exists.mp (List.isSome_min?_of_mem hp)
  obtain ⟨last, hlast⟩ := Option.isSome_iff_exists.mp (List.isSome_max?_of_mem hp)
  obtain ⟨hfirstmem, hle⟩ := List.min?_eq_some_iff.mp hfirst
  obtain ⟨hlastmem, hge⟩ := List.max?_eq_some_iff.mp hlast
  refine ⟨first, last, by rw [hfirst]; rfl, by rw [hlast]; rfl, (hmem first).mp hfirstmem, (hmem last).mp hlastmem, ?_⟩
  intro p hp
  exact ⟨hle p ((hmem p).mpr hp), hge p ((hmem p).mpr hp)⟩

end groups

variable (span) in
/-- At most one island holds an instant, and one does when a point covers it. -/
theorem countP_islands (points : List Int) (w : Int) :
    (islands span points).countP (fun island => island.Holds w) = if ∃ g ∈ points, g < w ∧ w ≤ g + span then 1 else 0 := by
  rw [islands, List.countP_map]
  have hnodup : (groups Prod.snd (islandNumbers span points)).Nodup := List.Nodup.of_map Prod.fst groups_nodup
  have hunique : ∀ g ∈ groups Prod.snd (islandNumbers span points), ∀ h ∈ groups Prod.snd (islandNumbers span points),
      (Island.mk ((g.2.map Prod.fst).min?.getD 0) ((g.2.map Prod.fst).max?.getD 0 + span)).Holds w →
      (Island.mk ((h.2.map Prod.fst).min?.getD 0) ((h.2.map Prod.fst).max?.getD 0 + span)).Holds w → g = h := by
    intro g hg h hh hgw hhw
    obtain ⟨first, last, hfirst, hlast, hf, hl, -⟩ := bounds hg
    obtain ⟨first', last', hfirst', hlast', hf', hl', -⟩ := bounds hh
    simp only [Island.Holds, hfirst, hlast, hfirst', hlast'] at hgw hhw
    apply List.inj_on_of_nodup_map groups_nodup hg hh
    rcases lt_trichotomy g.1 h.1 with hlt | heq | hlt
    · have := numbers_lt hl hf' hlt
      omega
    · exact heq
    · have := numbers_lt hl' hf hlt
      omega
  have hcount := countP_unique hnodup hunique
  refine Eq.trans ?_ (hcount.trans ?_)
  · rfl
  · congr 1
    apply propext
    constructor
    · rintro ⟨g, hg, hw⟩
      obtain ⟨first, last, hfirst, hlast, hf, hl, -⟩ := bounds hg
      simp only [Island.Holds, hfirst, hlast] at hw
      by_cases hwl : w ≤ last
      · obtain ⟨c, hc, hcw⟩ := covered_between sorted_points (by simp) hf hl hw.1 hwl
        exact ⟨c, (List.perm_insertionSort (· ≤ ·) points).mem_iff.mp hc, hcw⟩
      · exact ⟨last, mem_islandNumbers.mp ⟨_, hl⟩, by omega, hw.2⟩
    · rintro ⟨p, hp, hpw⟩
      obtain ⟨n, hn⟩ := mem_islandNumbers.mpr hp
      obtain ⟨g, hg, rfl⟩ : ∃ g ∈ groups Prod.snd (islandNumbers span points), g.1 = n := exists_group hn
      obtain ⟨first, last, hfirst, hlast, -, -, hall⟩ := bounds hg
      have := hall p hn
      refine ⟨g, hg, ?_⟩
      simp only [Island.Holds, hfirst, hlast]
      omega

end islands

example : (islands 7 [20, 0, 5]).map (fun i => (i.start, i.stop)) = [(0, 12), (20, 27)] := by decide

end Hoglet
