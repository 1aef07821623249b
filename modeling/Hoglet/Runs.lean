import Mathlib.Data.List.Dedup
import Mathlib.Order.Lattice

/-! Rows that come together by key, streamed with one open run: it is closed when the key changes and at the end. -/
namespace Hoglet
variable {α κ σ ρ : Type} [DecidableEq κ] (key : α → κ)

/-- The runs of rows with the same key. -/
def runs : List α → List (κ × List α)
  | [] => []
  | a :: rows =>
    match runs rows with
    | [] => [(key a, [a])]
    | (k, run) :: rest => if k = key a then (k, a :: run) :: rest else (key a, [a]) :: (k, run) :: rest

/-- What is closed so far, and the open run. -/
structure Stream (σ κ ρ : Type) where
  out : σ
  current : Option (κ × ρ)

section stream
variable (start : κ → ρ) (push : ρ → α → ρ) (close : σ → κ → ρ → σ)

def Stream.finish (s : Stream σ κ ρ) : σ :=
  match s.current with
  | none => s.out
  | some (k, run) => close s.out k run

def Stream.step (s : Stream σ κ ρ) (a : α) : Stream σ κ ρ :=
  match s.current with
  | none => ⟨s.out, some (key a, push (start (key a)) a)⟩
  | some (k, run) => if k = key a then ⟨s.out, some (k, push run a)⟩ else ⟨close s.out k run, some (key a, push (start (key a)) a)⟩

variable {key}

theorem runs_cons_ne (a : α) (rows : List α) : ∃ run rest, runs key (a :: rows) = (key a, run) :: rest := by
  rw [runs]
  split
  · exact ⟨_, _, rfl⟩
  · split
    · rename_i h
      exact ⟨_, _, by rw [h]⟩
    · exact ⟨_, _, rfl⟩

/-- The open run takes the rows of its key, the other runs follow. -/
private theorem foldl_open (rows : List α) (out : σ) (k : κ) (run : ρ) :
    Stream.finish close (rows.foldl (Stream.step key start push close) ⟨out, some (k, run)⟩) =
      match runs key rows with
      | (k', first) :: rest =>
        if k' = k then rest.foldl (fun out run => close out run.1 (run.2.foldl push (start run.1))) (close out k (first.foldl push run))
        else (runs key rows).foldl (fun out run => close out run.1 (run.2.foldl push (start run.1))) (close out k run)
      | [] => close out k run := by
  induction rows generalizing out k run with
  | nil => rfl
  | cons a rows ih =>
    rw [List.foldl_cons, Stream.step]
    dsimp only
    by_cases hk : k = key a
    · rw [if_pos hk, ih, runs]
      subst hk
      cases hruns : runs key rows with
      | nil => simp
      | cons head rest =>
        obtain ⟨k', first⟩ := head
        by_cases hk' : k' = key a
        · simp [hk']
        · simp [hk']
    · rw [if_neg hk, ih, runs]
      have hk' : ¬ key a = k := Ne.symm hk
      cases hruns : runs key rows with
      | nil => simp [hk']
      | cons head rest =>
        obtain ⟨k', first⟩ := head
        by_cases hk'' : k' = key a
        · simp [hk'', hk']
        · simp [hk'', hk']

/-- A stream closes the runs of its rows one by one. -/
theorem finish_foldl_step (rows : List α) (out : σ) : Stream.finish close (rows.foldl (Stream.step key start push close) ⟨out, none⟩) =
    (runs key rows).foldl (fun out run => close out run.1 (run.2.foldl push (start run.1))) out := by
  cases rows with
  | nil => rfl
  | cons a rows =>
    rw [List.foldl_cons, Stream.step]
    dsimp only
    rw [foldl_open, runs]
    cases hruns : runs key rows with
    | nil => simp
    | cons head rest =>
      obtain ⟨k', first⟩ := head
      by_cases hk' : k' = key a
      · simp [hk']
      · simp [hk']

end stream

section together
variable {key}

theorem mem_runs_key {rows : List α} {k : κ} : k ∈ (runs key rows).map Prod.fst ↔ ∃ a ∈ rows, key a = k := by
  induction rows with
  | nil => simp [runs]
  | cons a rows ih =>
    have hkeys : k ∈ (runs key (a :: rows)).map Prod.fst ↔ key a = k ∨ k ∈ (runs key rows).map Prod.fst := by
      rw [runs]
      cases hruns : runs key rows with
      | nil => simp [eq_comm]
      | cons head rest =>
        obtain ⟨k', first⟩ := head
        by_cases hk' : k' = key a
        · simp [hk', eq_comm]
        · simp [hk', eq_comm]
    rw [hkeys, ih]
    simp

/-- Where no key comes back its run has all its rows. -/
theorem run_eq_filter {rows : List α} (h : ((runs key rows).map Prod.fst).Nodup) :
    ∀ run ∈ runs key rows, run.2 = rows.filter fun a => key a = run.1 := by
  induction rows with
  | nil => simp [runs]
  | cons a rows ih =>
    rw [runs] at h ⊢
    cases hruns : runs key rows with
    | nil =>
      cases rows with
      | nil => simp
      | cons b rows =>
        obtain ⟨run, rest, heq⟩ : ∃ run rest, runs key (b :: rows) = (key b, run) :: rest := runs_cons_ne b rows
        rw [heq] at hruns
        cases hruns
    | cons head rest =>
      obtain ⟨k, first⟩ := head
      rw [hruns] at h ih
      dsimp only at h ⊢
      by_cases hk : k = key a
      · rw [if_pos hk] at h ⊢
        have ih := ih h
        intro run hrun
        rcases List.mem_cons.mp hrun with rfl | hrun
        · rw [List.filter_cons_of_pos (by simp [hk])]
          exact congrArg (a :: ·) (ih (k, first) (List.mem_cons_self ..))
        · have hne : key a ≠ run.1 := by
            intro heq
            have hmem : run.1 ∈ rest.map Prod.fst := List.mem_map_of_mem hrun
            rw [← heq, ← hk] at hmem
            exact (List.nodup_cons.mp h).1 hmem
          rw [List.filter_cons_of_neg (by simp [hne]), ih run (List.mem_cons_of_mem _ hrun)]
      · rw [if_neg hk] at h ⊢
        have hnodup := List.nodup_cons.mp h
        have ih := ih hnodup.2
        have hnone : ∀ b ∈ rows, key b ≠ key a := by
          intro b hb heq
          have hmem : key b ∈ (runs key rows).map Prod.fst := mem_runs_key.mpr ⟨b, hb, rfl⟩
          rw [hruns, heq] at hmem
          exact hnodup.1 hmem
        intro run hrun
        rcases List.mem_cons.mp hrun with rfl | hrun
        · rw [List.filter_cons_of_pos (by simp), List.filter_eq_nil_iff.mpr fun b hb => by simpa using hnone b hb]
        · have hne : key a ≠ run.1 := by
            intro heq
            have hmem : run.1 ∈ ((k, first) :: rest).map Prod.fst := List.mem_map_of_mem hrun
            rw [← heq] at hmem
            exact hnodup.1 hmem
          rw [List.filter_cons_of_neg (by simp [hne]), ih run hrun]

/-- Rows sorted by a rank of the key come together. -/
theorem runs_pairwise {β : Type} [LinearOrder β] {rank : κ → β} {rows : List α} (h : rows.Pairwise fun a b => rank (key a) ≤ rank (key b))
    (hrank : rank.Injective) : ((runs key rows).map Prod.fst).Pairwise fun k k' => rank k < rank k' := by
  induction rows with
  | nil => exact .nil
  | cons a rows ih =>
    obtain ⟨hfirst, hrows⟩ := List.pairwise_cons.mp h
    have ih := ih hrows
    have hle : ∀ k ∈ (runs key rows).map Prod.fst, rank (key a) ≤ rank k := by
      intro k hk
      obtain ⟨b, hb, rfl⟩ := mem_runs_key.mp hk
      exact hfirst b hb
    rw [runs]
    cases hruns : runs key rows with
    | nil => simp
    | cons head rest =>
      obtain ⟨k, first⟩ := head
      rw [hruns] at ih hle
      dsimp only
      by_cases hk : k = key a
      · rw [if_pos hk]
        exact ih
      · rw [if_neg hk]
        refine List.pairwise_cons.mpr ⟨fun k' hk' => ?_, ih⟩
        have hlt := lt_of_le_of_ne (hle k (List.mem_cons_self ..)) fun heq => hk (hrank heq).symm
        rcases List.mem_cons.mp hk' with rfl | hk'
        · exact hlt
        · exact hlt.trans ((List.pairwise_cons.mp ih).1 k' hk')

theorem runs_nodup {β : Type} [LinearOrder β] {rank : κ → β} {rows : List α} (h : rows.Pairwise fun a b => rank (key a) ≤ rank (key b))
    (hrank : rank.Injective) : ((runs key rows).map Prod.fst).Nodup :=
  (runs_pairwise h hrank).imp fun hlt heq => hlt.ne (congrArg rank heq)

end together
end Hoglet
