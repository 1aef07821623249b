import Mathlib.Data.Finset.Card
import Mathlib.Data.List.Sort
import Mathlib.Data.Prod.Lex
import Mathlib.Tactic

/-! Runs of rows between which a gap of time passes, as two window functions find them: one marks the rows that
come after a gap, and one counts the marks up to each row. Rows that tie have no order of their own, and the two
windows may order them differently. -/
namespace Hoglet
variable {α κ : Type}

/-- The order a window function gives to its rows: by a key, with any order among those that tie. -/
structure Window (α : Type) {κ : Type} [LE κ] (key : α → κ) where
  arrange : List α → List α
  perm : ∀ rows, (arrange rows).Perm rows
  sorted : ∀ rows, (arrange rows).Pairwise fun a b => key a ≤ key b

/-- An order by a finer key is one by a coarser key. -/
def Window.coarsen {κ' : Type} [LE κ] [LE κ'] {key : α → κ} {key' : α → κ'} (w : Window α key)
    (h : ∀ a b, key a ≤ key b → key' a ≤ key' b) : Window α key' :=
  ⟨w.arrange, w.perm, fun rows => (w.sorted rows).imp fun {a b} => h a b⟩

/-- The rows sorted by their key. -/
def Window.by [LinearOrder κ] (key : α → κ) : Window α key where
  arrange rows := rows.insertionSort fun a b => key a ≤ key b
  perm rows := List.perm_insertionSort _ rows
  sorted rows :=
    have : Std.Total fun a b : α => key a ≤ key b := ⟨fun a b => le_total (key a) (key b)⟩
    have : IsTrans α fun a b => key a ≤ key b := ⟨fun _ _ _ => le_trans⟩
    List.pairwise_insertionSort _ rows

/-- The rows sorted by their key, and those that tie by a rank. -/
def Window.ranked [LinearOrder κ] (key : α → κ) (rank : α → Nat) : Window α key :=
  (Window.by fun a => toLex (key a, rank a)).coarsen fun _ _ h => (Prod.Lex.toLex_le_toLex'.mp h).1

theorem Window.ranked_sorted [LinearOrder κ] (key : α → κ) (rank : α → Nat) (rows : List α) :
    ((Window.ranked key rank).arrange rows).Pairwise fun a b => key a = key b → rank a ≤ rank b :=
  ((Window.by fun a => toLex (key a, rank a)).sorted rows).imp fun h => (Prod.Lex.toLex_le_toLex'.mp h).2

section runs
variable (ts : α → Int) (gap : Int)

/-- Every row with 1 when it comes after a gap, or first, and 0 otherwise. -/
def marked (previous : Option Int) : List α → List (α × Nat)
  | [] => []
  | a :: rest => (a, if ∃ t ∈ previous, ts a - t ≤ gap then 0 else 1) :: marked (some (ts a)) rest

/-- Every row with the number of marks up to it. -/
def numbered (n : Nat) : List (α × Nat) → List (α × Nat)
  | [] => []
  | (a, mark) :: rest => (a, n + mark) :: numbered (n + mark) rest

/-- The instants at which a run starts. -/
def starts (rows : List α) : Finset Int :=
  (rows.map ts).toFinset.filter fun t => ∀ a ∈ rows, ts a < t → gap < t - ts a

/-- The number of the run that an instant falls in. -/
def runOf (rows : List α) (t : Int) : Nat := ((starts ts gap rows).filter (· ≤ t)).card

variable {ts gap}

theorem mem_starts {rows : List α} {t : Int} :
    t ∈ starts ts gap rows ↔ (∃ a ∈ rows, ts a = t) ∧ ∀ a ∈ rows, ts a < t → gap < t - ts a := by
  simp [starts]

theorem starts_perm {rows rows' : List α} (h : rows.Perm rows') : starts ts gap rows = starts ts gap rows' := by
  ext t
  simp only [mem_starts, h.mem_iff]

theorem runOf_mono {rows : List α} {t t' : Int} (h : t ≤ t') : runOf ts gap rows t ≤ runOf ts gap rows t' :=
  Finset.card_le_card fun _ hs => Finset.mem_filter.mpr ⟨(Finset.mem_filter.mp hs).1, (Finset.mem_filter.mp hs).2.trans h⟩

/-- A start begins a run of its own. -/
theorem runOf_lt {rows : List α} {t t' : Int} (ht : t' ∈ starts ts gap rows) (h : t < t') :
    runOf ts gap rows t < runOf ts gap rows t' := by
  apply Finset.card_lt_card
  refine ⟨fun s hs => Finset.mem_filter.mpr ⟨(Finset.mem_filter.mp hs).1, (Finset.mem_filter.mp hs).2.trans h.le⟩, fun hsub => ?_⟩
  have hmem := hsub (Finset.mem_filter.mpr ⟨ht, le_rfl⟩)
  exact absurd (Finset.mem_filter.mp hmem).2 (not_le.mpr h)

theorem map_marked (previous : Option Int) (rows : List α) : (marked ts gap previous rows).map Prod.fst = rows := by
  induction rows generalizing previous with
  | nil => rfl
  | cons a rest ih => rw [marked, List.map_cons, ih]

theorem mark_le {previous : Option Int} {rows : List α} {m : α × Nat} (h : m ∈ marked ts gap previous rows) :
    m.2 = 0 ∨ m.2 = 1 := by
  induction rows generalizing previous with
  | nil => cases h
  | cons a rest ih =>
    rcases List.mem_cons.mp h with rfl | h
    · dsimp only
      split
      · exact .inl rfl
      · exact .inr rfl
    · exact ih h

/-- A mark comes after a gap from every instant before the rows. -/
theorem gap_lt_of_marked {rows : List α} {t : Int} (hs : rows.Pairwise fun a b => ts a ≤ ts b) (ht : ∀ a ∈ rows, t ≤ ts a)
    {a : α} (h : (a, 1) ∈ marked ts gap (some t) rows) : gap < ts a - t := by
  induction rows generalizing t with
  | nil => cases h
  | cons b rest ih =>
    rcases List.mem_cons.mp h with heq | h
    · obtain ⟨rfl, hmark⟩ := Prod.mk.inj heq
      by_contra hle
      rw [if_pos ⟨t, rfl, not_lt.mp hle⟩] at hmark
      cases hmark
    · have hb := ih (List.pairwise_cons.mp hs).2 (List.pairwise_cons.mp hs).1 h
      have := ht b (List.mem_cons_self ..)
      omega

/-- Of the rows at one instant only the first is marked. -/
theorem marked_first (hgap : 0 ≤ gap) {P : α → α → Prop} {previous : Option Int} {rows : List α}
    (hs : rows.Pairwise fun a b => ts a ≤ ts b) (hP : rows.Pairwise P) {a b : α} (ha : (a, 1) ∈ marked ts gap previous rows)
    (hb : b ∈ rows) (hab : ts b = ts a) : b = a ∨ P a b := by
  induction rows generalizing previous with
  | nil => cases hb
  | cons c rest ih =>
    obtain ⟨hle, hrest⟩ := List.pairwise_cons.mp hs
    obtain ⟨hPc, hPrest⟩ := List.pairwise_cons.mp hP
    rcases List.mem_cons.mp ha with heq | ha
    · obtain ⟨rfl, -⟩ := Prod.mk.inj heq
      rcases List.mem_cons.mp hb with rfl | hb
      · exact .inl rfl
      · exact .inr (hPc b hb)
    · rcases List.mem_cons.mp hb with rfl | hb
      · have := gap_lt_of_marked hrest hle ha
        omega
      · exact ih hrest hPrest ha hb

/-- The marked rows are at the starts, in order. -/
theorem marked_starts (hgap : 0 ≤ gap) {rows : List α} (hs : rows.Pairwise fun a b => ts a ≤ ts b) (previous : Option Int)
    (hp : ∀ t ∈ previous, ∀ a ∈ rows, t ≤ ts a) :
    (((marked ts gap previous rows).filter (·.2 = 1)).map (ts ·.1)).Pairwise (· < ·) ∧
      ∀ t, t ∈ ((marked ts gap previous rows).filter (·.2 = 1)).map (ts ·.1) ↔
        t ∈ starts ts gap rows ∧ ∀ t' ∈ previous, gap < t - t' := by
  induction rows generalizing previous with
  | nil => simp [marked, starts]
  | cons a rest ih =>
    obtain ⟨hle, hs⟩ := List.pairwise_cons.mp hs
    obtain ⟨hsorted, hmem⟩ := ih hs (some (ts a)) (by rintro t ⟨⟩ b hb; exact hle b hb)
    have htail : ∀ t, t ∈ ((marked ts gap (some (ts a)) rest).filter (·.2 = 1)).map (ts ·.1) ↔
        (∃ b ∈ rest, ts b = t) ∧ (∀ b ∈ rest, ts b < t → gap < t - ts b) ∧ gap < t - ts a := fun t => by
      rw [hmem, mem_starts, and_assoc]
      simp
    have hwhole : ∀ t, t ∈ starts ts gap (a :: rest) ↔
        (ts a = t ∨ ∃ b ∈ rest, ts b = t) ∧ (ts a < t → gap < t - ts a) ∧ ∀ b ∈ rest, ts b < t → gap < t - ts b := fun t => by
      rw [mem_starts]
      simp
    by_cases hfar : ∃ t ∈ previous, ts a - t ≤ gap
    · rw [marked, if_pos hfar, List.filter_cons_of_neg (by simp)]
      obtain ⟨p, hprev, hnear⟩ := hfar
      refine ⟨hsorted, fun t => ?_⟩
      rw [htail, hwhole]
      constructor
      · rintro ⟨hb, hgaps, hgapa⟩
        refine ⟨⟨.inr hb, fun _ => hgapa, hgaps⟩, fun t' ht' => ?_⟩
        have := hp t' ht' a (List.mem_cons_self ..)
        omega
      · rintro ⟨⟨hat, hgapa, hgaps⟩, hprevious⟩
        have := hprevious p hprev
        rcases hat with rfl | hb
        · omega
        · exact ⟨hb, hgaps, hgapa (by omega)⟩
    · rw [marked, if_neg hfar, List.filter_cons_of_pos (by simp), List.map_cons]
      push Not at hfar
      constructor
      · refine List.pairwise_cons.mpr ⟨fun t ht => ?_, hsorted⟩
        have hlt := ((htail t).mp ht).2.2
        change ts a < t
        omega
      · intro t
        rw [List.mem_cons, htail, hwhole]
        constructor
        · rintro (rfl | ⟨hb, hgaps, hgapa⟩)
          · exact ⟨⟨.inl rfl, fun h => absurd h (lt_irrefl _), fun b hb hlt => absurd hlt (not_lt.mpr (hle b hb))⟩, hfar⟩
          · refine ⟨⟨.inr hb, fun _ => hgapa, hgaps⟩, fun t' ht' => ?_⟩
            have := hfar t' ht'
            omega
        · rintro ⟨⟨hat, hgapa, hgaps⟩, -⟩
          by_cases heq : t = ts a
          · exact .inl heq
          · obtain ⟨b, hb, rfl⟩ := hat.resolve_left fun h => heq h.symm
            have := hle b hb
            exact .inr ⟨⟨b, hb, rfl⟩, hgaps, hgapa (by omega)⟩

theorem map_numbered (n : Nat) (rows : List (α × Nat)) : (numbered n rows).map Prod.fst = rows.map Prod.fst := by
  induction rows generalizing n with
  | nil => rfl
  | cons m rest ih => rw [numbered, List.map_cons, ih, List.map_cons]

/-- A row's number is the sum of the marks up to it. -/
theorem mem_numbered {n k : Nat} {rows : List (α × Nat)} {a : α} (h : (a, k) ∈ numbered n rows) :
    ∃ before mark after, rows = before ++ (a, mark) :: after ∧ k = n + (before.map Prod.snd).sum + mark := by
  induction rows generalizing n with
  | nil => cases h
  | cons m rest ih =>
    rcases List.mem_cons.mp h with heq | h
    · cases heq
      exact ⟨[], m.2, rest, rfl, by simp⟩
    · obtain ⟨before, mark, after, rfl, hk⟩ := ih h
      exact ⟨m :: before, mark, after, rfl, by rw [hk, List.map_cons, List.sum_cons, Nat.add_assoc n]⟩

private theorem sum_marks {rows : List (α × Nat)} (h : ∀ m ∈ rows, m.2 = 0 ∨ m.2 = 1) :
    (rows.map Prod.snd).sum = ((rows.filter (·.2 = 1)).map (ts ·.1)).length := by
  induction rows with
  | nil => rfl
  | cons m rest ih =>
    rw [List.map_cons, List.sum_cons, ih fun m hm => h m (List.mem_cons_of_mem _ hm)]
    rcases h m (List.mem_cons_self ..) with hm | hm <;> simp [hm, Nat.add_comm]

/-- A row's number counts the starts up to its instant, unless the marked row of that instant comes after it. -/
private theorem numbered_cases {S : Finset Int} {Q : α × Nat → α × Nat → Prop} {rows : List (α × Nat)}
    (hs : rows.Pairwise fun m m' => ts m.1 ≤ ts m'.1) (hQ : rows.Pairwise Q) (hmark : ∀ m ∈ rows, m.2 = 0 ∨ m.2 = 1)
    (hnodup : ((rows.filter (·.2 = 1)).map (ts ·.1)).Nodup) (hS : ∀ t, t ∈ S ↔ ∃ b, (b, 1) ∈ rows ∧ ts b = t) {a : α} {n : Nat}
    (h : (a, n) ∈ numbered 0 rows) : ∃ mark, (a, mark) ∈ rows ∧
      ((n = (S.filter (· ≤ ts a)).card ∧ ∀ b, (b, 1) ∈ rows → ts b = ts a → (b, 1) = (a, mark) ∨ Q (b, 1) (a, mark)) ∨
        (n + 1 = (S.filter (· ≤ ts a)).card ∧ ts a ∈ S ∧ ∀ b, (b, 1) ∈ rows → ts b = ts a → Q (a, mark) (b, 1))) := by
  obtain ⟨before, mark, after, rfl, hn⟩ := mem_numbered h
  refine ⟨mark, by simp, ?_⟩
  have hsplit : before ++ (a, mark) :: after = (before ++ [(a, mark)]) ++ after := by simp
  obtain ⟨-, hafter, hbefore⟩ := List.pairwise_append.mp hs
  obtain ⟨-, hQafter, hQbefore⟩ := List.pairwise_append.mp hQ
  have hcard : n = ((((before ++ [(a, mark)]).filter (·.2 = 1)).map (ts ·.1)).toFinset).card := by
    rw [hsplit, List.filter_append, List.map_append] at hnodup
    rw [List.toFinset_card_of_nodup (List.nodup_append.mp hnodup).1, ← sum_marks fun m hm => hmark m (by simp at hm ⊢; tauto)]
    simpa [Nat.add_assoc] using hn
  have hD : ∀ t, t ∈ (((before ++ [(a, mark)]).filter (·.2 = 1)).map (ts ·.1)).toFinset ↔
      ∃ b, (b, 1) ∈ before ++ [(a, mark)] ∧ ts b = t := fun t => by
    simp only [List.mem_toFinset, List.mem_map, List.mem_filter, decide_eq_true_eq]
    constructor
    · rintro ⟨⟨b, m⟩, ⟨hb, rfl⟩, rfl⟩
      exact ⟨b, hb, rfl⟩
    · rintro ⟨b, hb, rfl⟩
      exact ⟨(b, 1), ⟨hb, rfl⟩, rfl⟩
  have hle : ∀ b, (b, 1) ∈ before ++ [(a, mark)] → ts b ≤ ts a := fun b hb => by
    rcases List.mem_append.mp hb with hb | hb
    · exact hbefore _ hb _ (List.mem_cons_self ..)
    · cases List.mem_singleton.mp hb
      exact le_rfl
  have hin : ∀ b, (b, 1) ∈ before ++ (a, mark) :: after → ts b < ts a → (b, 1) ∈ before ++ [(a, mark)] := fun b hb hlt => by
    rw [hsplit] at hb
    refine (List.mem_append.mp hb).resolve_right fun hb => ?_
    have := (List.pairwise_cons.mp hafter).1 _ hb
    exact absurd hlt (not_lt.mpr this)
  rw [hcard]
  by_cases hcase : ∃ b, (b, 1) ∈ before ++ [(a, mark)] ∧ ts b = ts a
  · left
    constructor
    · congr 1
      ext t
      rw [hD, Finset.mem_filter, hS]
      constructor
      · rintro ⟨b, hb, rfl⟩
        exact ⟨⟨b, by rw [hsplit]; exact List.mem_append_left _ hb, rfl⟩, hle b hb⟩
      · rintro ⟨⟨b, hb, rfl⟩, hbt⟩
        rcases lt_or_eq_of_le hbt with hlt | heq
        · exact ⟨b, hin b hb hlt, rfl⟩
        · rw [heq]
          exact hcase
    · intro b hb heq
      obtain ⟨c, hc, hceq⟩ := hcase
      rw [hsplit] at hb hnodup
      rcases List.mem_append.mp hb with hb | hb
      · rcases List.mem_append.mp hb with hb | hb
        · exact .inr (hQbefore _ hb _ (List.mem_cons_self ..))
        · exact .inl (List.mem_singleton.mp hb)
      · -- two marks at one instant
        rw [List.filter_append, List.map_append] at hnodup
        refine absurd rfl ((List.nodup_append.mp hnodup).2.2 (ts a) ?_ (ts a) ?_)
        · exact hceq ▸ List.mem_map.mpr ⟨(c, 1), List.mem_filter.mpr ⟨hc, by simp⟩, rfl⟩
        · exact heq ▸ List.mem_map.mpr ⟨(b, 1), List.mem_filter.mpr ⟨hb, by simp⟩, rfl⟩
  · have hlater : ∀ b, (b, 1) ∈ before ++ (a, mark) :: after → ts b = ts a → (b, 1) ∈ after := fun b hb heq => by
      rw [hsplit] at hb
      exact (List.mem_append.mp hb).resolve_left fun hb => hcase ⟨b, hb, heq⟩
    have hless : (((before ++ [(a, mark)]).filter (·.2 = 1)).map (ts ·.1)).toFinset = (S.filter (· ≤ ts a)).erase (ts a) := by
      ext t
      rw [hD, Finset.mem_erase, Finset.mem_filter, hS]
      constructor
      · rintro ⟨b, hb, rfl⟩
        exact ⟨fun heq => hcase ⟨b, hb, heq⟩, ⟨b, by rw [hsplit]; exact List.mem_append_left _ hb, rfl⟩, hle b hb⟩
      · rintro ⟨hne, ⟨b, hb, rfl⟩, hbt⟩
        exact ⟨b, hin b hb (lt_of_le_of_ne hbt hne), rfl⟩
    rw [hless]
    by_cases hmem : ts a ∈ S
    · right
      have hmem' : ts a ∈ S.filter (· ≤ ts a) := Finset.mem_filter.mpr ⟨hmem, le_rfl⟩
      refine ⟨Finset.card_erase_add_one hmem', hmem, fun b hb heq => ?_⟩
      exact (List.pairwise_cons.mp hQafter).1 _ (hlater b hb heq)
    · left
      refine ⟨by rw [Finset.erase_eq_of_notMem fun h => hmem (Finset.mem_filter.mp h).1], fun b hb heq => ?_⟩
      exact absurd ((hS _).mpr ⟨b, hb, heq⟩) hmem

/-- Rows numbered with the run before theirs: rows at a start, and never all of them. -/
structure Early (ts : α → Int) (gap : Int) (rows : List α) (early : α → Bool) : Prop where
  start : ∀ a ∈ rows, early a = true → ts a ∈ starts ts gap rows
  late : ∀ t ∈ starts ts gap rows, ∃ a ∈ rows, ts a = t ∧ early a = false

section windows
variable (gap) (w₁ : Window α ts) (w₂ : Window (α × Nat) fun m => ts m.1) (rows : List α)

/-- The marks of one window, counted by the other. -/
def runNumbers : List (α × Nat) := numbered 0 (w₂.arrange (marked ts gap none (w₁.arrange rows)))

theorem runNumbers_perm : ((runNumbers gap w₁ w₂ rows).map Prod.fst).Perm rows := by
  rw [runNumbers, map_numbered]
  refine ((w₂.perm _).map Prod.fst).trans ?_
  rw [map_marked]
  exact w₁.perm rows

variable {gap w₁ w₂ rows} (hgap : 0 ≤ gap)
include hgap

variable (w₁) in
theorem marked_iff {t : Int} : (∃ a, (a, 1) ∈ marked ts gap none (w₁.arrange rows) ∧ ts a = t) ↔ t ∈ starts ts gap rows := by
  have h := (marked_starts hgap (w₁.sorted rows) none (by simp)).2 t
  simp only [List.mem_map, List.mem_filter, decide_eq_true_eq, starts_perm (w₁.perm rows), Option.mem_def, reduceCtorEq,
    false_implies, implies_true, and_true] at h
  rw [← h]
  constructor
  · rintro ⟨a, ha, rfl⟩
    exact ⟨(a, 1), ⟨ha, rfl⟩, rfl⟩
  · rintro ⟨⟨a, mark⟩, ⟨ha, rfl⟩, rfl⟩
    exact ⟨a, ha, rfl⟩

/-- A row has the number of its run, or the one before when the second window puts it before the row that the first
has marked at its instant. -/
theorem runNumbers_cases {Q : α × Nat → α × Nat → Prop}
    (hQ : (w₂.arrange (marked ts gap none (w₁.arrange rows))).Pairwise Q) {a : α} {n : Nat}
    (h : (a, n) ∈ runNumbers gap w₁ w₂ rows) : ∃ mark, (a, mark) ∈ marked ts gap none (w₁.arrange rows) ∧
      ((n = runOf ts gap rows (ts a) ∧ ∀ b, (b, 1) ∈ marked ts gap none (w₁.arrange rows) → ts b = ts a →
          (b, 1) = (a, mark) ∨ Q (b, 1) (a, mark)) ∨
        (n + 1 = runOf ts gap rows (ts a) ∧ ts a ∈ starts ts gap rows ∧
          ∀ b, (b, 1) ∈ marked ts gap none (w₁.arrange rows) → ts b = ts a → Q (a, mark) (b, 1))) := by
  have hperm := w₂.perm (marked ts gap none (w₁.arrange rows))
  obtain ⟨hmarks, -⟩ := marked_starts hgap (w₁.sorted rows) none (by simp)
  have hnodup : (((w₂.arrange (marked ts gap none (w₁.arrange rows))).filter (·.2 = 1)).map (ts ·.1)).Nodup :=
    (((hperm.filter _).map _).nodup_iff).mpr (hmarks.imp ne_of_lt)
  have hS : ∀ t, t ∈ starts ts gap rows ↔ ∃ b, (b, 1) ∈ w₂.arrange (marked ts gap none (w₁.arrange rows)) ∧ ts b = t := fun t => by
    simp only [← marked_iff w₁ hgap, hperm.mem_iff]
  have hcases := numbered_cases (w₂.sorted _) hQ (fun m hm => mark_le (hperm.mem_iff.mp hm)) hnodup hS h
  simp only [hperm.mem_iff] at hcases
  exact hcases

theorem marked_inj {a b : α} (ha : (a, 1) ∈ marked ts gap none (w₁.arrange rows)) (hb : (b, 1) ∈ marked ts gap none (w₁.arrange rows))
    (h : ts a = ts b) : a = b := by
  have hnodup := (marked_starts hgap (w₁.sorted rows) none (by simp)).1.imp (S := (· ≠ ·)) ne_of_lt
  have heq := List.inj_on_of_nodup_map hnodup (List.mem_filter.mpr ⟨ha, by simp⟩) (List.mem_filter.mpr ⟨hb, by simp⟩) h
  exact (Prod.mk.inj heq).1

variable (hrows : rows.Nodup)
include hrows

omit hgap in
private theorem marked_ne : (w₂.arrange (marked ts gap none (w₁.arrange rows))).Pairwise fun m m' => m.1 ≠ m'.1 := by
  rw [← List.pairwise_map (R := (· ≠ ·)), ← List.nodup_iff_pairwise_ne, ((w₂.perm _).map Prod.fst).nodup_iff, map_marked,
    (w₁.perm rows).nodup_iff]
  exact hrows

omit hgap hrows in
private theorem mem_of_marked {a : α} {mark : Nat} (h : (a, mark) ∈ marked ts gap none (w₁.arrange rows)) : a ∈ rows := by
  rw [← (w₁.perm rows).mem_iff, ← map_marked none (w₁.arrange rows)]
  exact List.mem_map.mpr ⟨_, h, rfl⟩

/-- Where no two rows tie, the numbers are those of the runs. -/
theorem runNumbers_exact {κ : Type} [PartialOrder κ] {key : α → κ} (h₁ : (w₁.arrange rows).Pairwise fun a b => key a ≤ key b)
    (h₂ : (w₂.arrange (marked ts gap none (w₁.arrange rows))).Pairwise fun m m' => key m.1 ≤ key m'.1)
    (hkey : ∀ a ∈ rows, ∀ b ∈ rows, key a = key b → a = b) {a : α} {n : Nat} (h : (a, n) ∈ runNumbers gap w₁ w₂ rows) :
    n = runOf ts gap rows (ts a) := by
  obtain ⟨mark, hmark, ⟨hn, -⟩ | ⟨-, hstart, hlate⟩⟩ := runNumbers_cases hgap (h₂.and (marked_ne hrows)) h
  · exact hn
  · have ha := mem_of_marked hmark
    obtain ⟨b, hb, hts⟩ := (marked_iff w₁ hgap).mpr hstart
    obtain ⟨hle, hab⟩ := hlate b hb hts
    rcases marked_first hgap (w₁.sorted rows) h₁ hb ((w₁.perm rows).mem_iff.mpr ha) hts.symm with heq | hba
    · exact absurd heq hab
    · exact absurd (hkey a ha b (mem_of_marked hb) (le_antisymm hle hba)) hab

omit hgap in
theorem runNumbers_inj {a : α} {n k : Nat} (hn : (a, n) ∈ runNumbers gap w₁ w₂ rows) (hk : (a, k) ∈ runNumbers gap w₁ w₂ rows) :
    n = k := by
  have hnodup : ((runNumbers gap w₁ w₂ rows).map Prod.fst).Nodup := (runNumbers_perm gap w₁ w₂ rows).nodup_iff.mpr hrows
  exact (Prod.mk.inj (List.inj_on_of_nodup_map hnodup hn hk rfl)).2

/-- Whatever orders the windows choose, they number some rows early, and the others with their runs. -/
theorem runNumbers_early [DecidableEq α] : ∃ early, Early ts gap rows early ∧
    ∀ a n, (a, n) ∈ runNumbers gap w₁ w₂ rows → n + (if early a then 1 else 0) = runOf ts gap rows (ts a) := by
  have hnumber : ∀ a ∈ rows, ∃ n, (a, n) ∈ runNumbers gap w₁ w₂ rows := fun a ha => by
    obtain ⟨⟨b, n⟩, hb, rfl⟩ := List.mem_map.mp ((runNumbers_perm gap w₁ w₂ rows).mem_iff.mpr ha)
    exact ⟨n, hb⟩
  refine ⟨fun a => decide ((a, runOf ts gap rows (ts a)) ∉ runNumbers gap w₁ w₂ rows), ⟨fun a ha hearly => ?_, fun t ht => ?_⟩,
    fun a n h => ?_⟩
  · obtain ⟨n, hn⟩ := hnumber a ha
    obtain ⟨mark, -, ⟨rfl, -⟩ | ⟨-, hstart, -⟩⟩ := runNumbers_cases hgap (marked_ne hrows) hn
    · exact absurd hn (of_decide_eq_true hearly)
    · exact hstart
  · obtain ⟨b, hb, rfl⟩ := (marked_iff w₁ hgap).mpr ht
    obtain ⟨n, hn⟩ := hnumber b (mem_of_marked hb)
    obtain ⟨mark, -, ⟨rfl, -⟩ | ⟨-, -, hlate⟩⟩ := runNumbers_cases hgap (marked_ne hrows) hn
    · exact ⟨b, mem_of_marked hb, rfl, decide_eq_false (not_not_intro hn)⟩
    · exact absurd rfl (hlate b hb rfl)
  · obtain ⟨mark, -, ⟨rfl, -⟩ | ⟨hn, -, -⟩⟩ := runNumbers_cases hgap (marked_ne hrows) h
    · rw [if_neg (by simpa using h), Nat.add_zero]
    · rw [if_pos, hn]
      refine decide_eq_true fun h' => ?_
      have := runNumbers_inj hrows h h'
      omega

/-- Any rows of one start but `r` can be numbered early: the first window puts `r` first, and the second puts them
before it. -/
theorem runNumbers_ranked [DecidableEq α] (early : α → Bool) (r : α) (hr : early r = false)
    (h : ∀ a ∈ rows, early a = true → r ∈ rows ∧ ts a = ts r ∧ ts r ∈ starts ts gap rows) {a : α} {n : Nat}
    (ha : (a, n) ∈ runNumbers gap (Window.ranked ts fun a => if a = r then 0 else 1)
      (Window.ranked (fun m : α × Nat => ts m.1) fun m : α × Nat => if early m.1 then 0 else if m.2 = 1 then 1 else 2) rows) :
    n + (if early a then 1 else 0) = runOf ts gap rows (ts a) := by
  generalize hw₁ : (Window.ranked ts fun a => if a = r then 0 else 1) = w₁ at ha
  generalize hw₂ : (Window.ranked (fun m : α × Nat => ts m.1) fun m => if early m.1 then 0 else if m.2 = 1 then 1 else 2) = w₂ at ha
  have hfirst : (w₁.arrange rows).Pairwise fun a b => ts a = ts b → (if a = r then 0 else 1) ≤ if b = r then 0 else 1 := by
    rw [← hw₁]
    exact Window.ranked_sorted _ _ rows
  have hsecond : (w₂.arrange (marked ts gap none (w₁.arrange rows))).Pairwise fun m m' => ts m.1 = ts m'.1 →
      (if early m.1 then 0 else if m.2 = 1 then 1 else 2) ≤ if early m'.1 then 0 else if m'.2 = 1 then 1 else 2 := by
    rw [← hw₂]
    exact Window.ranked_sorted _ _ _
  obtain ⟨mark, hmark, ⟨hn, hlate⟩ | ⟨hn, hstart, hlate⟩⟩ := runNumbers_cases hgap (hsecond.and (marked_ne hrows)) ha
  · cases hearly : early a with
    | false => simpa using hn
    | true =>
      -- the row marked at this start is `r`, which comes after all early rows
      obtain ⟨hr', hts, hstart⟩ := h a (mem_of_marked hmark) hearly
      obtain ⟨b, hb, hbts⟩ := (marked_iff w₁ hgap).mpr hstart
      have hbr : b = r := by
        rcases marked_first hgap (w₁.sorted rows) hfirst hb ((w₁.perm rows).mem_iff.mpr hr') hbts.symm with heq | hle
        · exact heq.symm
        · by_contra hbr
          have := hle hbts
          rw [if_neg hbr, if_pos rfl] at this
          omega
      subst hbr
      rcases hlate b hb hts.symm with heq | ⟨hle, -⟩
      · cases heq
        rw [hr] at hearly
        cases hearly
      · have := hle hts.symm
        simp [hr, hearly] at this
  · cases hearly : early a with
    | true => simpa using hn
    | false =>
      obtain ⟨b, hb, hbts⟩ := (marked_iff w₁ hgap).mpr hstart
      obtain ⟨hle, hab⟩ := hlate b hb hbts
      have hrank := hle hbts.symm
      by_cases hbearly : early b = true
      · simp only [hearly, hbearly, Bool.false_eq_true, if_false, if_true] at hrank
        split at hrank <;> omega
      · have hone : mark = 1 := by
          by_contra hne
          simp [hearly, hbearly, hne] at hrank
        subst hone
        exact absurd (marked_inj hgap hmark hb hbts.symm) hab

end windows
end runs
end Hoglet
