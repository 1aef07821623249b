import Mathlib.Data.Set.Function

/-! What a store holds after a sequence of entries, each of which takes rows out and puts rows in, when the
store may keep one row for each key. -/
namespace Hoglet
variable {ε ρ κ : Type*}

/-- Some of the rows, and a row for each of their keys. -/
def Thins (key : ρ → κ) (S S' : Set ρ) : Prop := S' ⊆ S ∧ ∀ r ∈ S, ∃ r' ∈ S', key r' = key r

theorem Thins.refl (key : ρ → κ) (S : Set ρ) : Thins key S S := ⟨subset_rfl, fun r hr => ⟨r, hr, rfl⟩⟩

theorem Thins.trans {key : ρ → κ} {S S' Q : Set ρ} (h : Thins key S S') (h' : Thins key S' Q) : Thins key S Q := by
  refine ⟨h'.1.trans h.1, fun r hr => ?_⟩
  obtain ⟨r', hr', hkey⟩ := h.2 r hr
  obtain ⟨r'', hr'', hkey'⟩ := h'.2 r' hr'
  exact ⟨r'', hr'', hkey'.trans hkey⟩

/-- The rows that an entry takes out, those that it then puts in, and the key of a row. -/
structure Bookkeeping (ε ρ κ : Type*) where
  drops : ε → Set ρ
  adds : ε → Set ρ
  key : ρ → κ

namespace Bookkeeping
variable {R : Bookkeeping ε ρ κ} {ledger : List ε} {S S' : Set ρ}

/-- The entries are made one after another, and the store is thinned in between. -/
inductive Moves (R : Bookkeeping ε ρ κ) : List ε → Set ρ → Set ρ → Prop
  | refl {S : Set ρ} : Moves R [] S S
  | thin {ledger : List ε} {S S' Q : Set ρ} (h : Moves R ledger S S') (hthin : Thins R.key S' Q) : Moves R ledger S Q
  | enter {ledger : List ε} {S Q : Set ρ} (h : Moves R ledger S Q) (e : ε) :
      Moves R (ledger ++ [e]) S (Q \ R.drops e ∪ R.adds e)

/-- The rows that some entry put in. -/
def added (R : Bookkeeping ε ρ κ) (ledger : List ε) : Set ρ := {r | ∃ e ∈ ledger, r ∈ R.adds e}

/-- The rows that some entry put in and no later one took out. -/
def standing (R : Bookkeeping ε ρ κ) (ledger : List ε) : Set ρ :=
  {r | ∃ before e after, ledger = before ++ e :: after ∧ r ∈ R.adds e ∧ ∀ e' ∈ after, r ∉ R.drops e'}

/-- Every row of the store stands, and a row that was put in has one of its key in the store unless a later
entry took out a row of that key. -/
structure Accounts (R : Bookkeeping ε ρ κ) (ledger : List ε) (S : Set ρ) : Prop where
  entered : S ⊆ R.standing ledger
  kept : ∀ before e after, ledger = before ++ e :: after → ∀ r ∈ R.adds e,
    (∀ e' ∈ after, ∀ r' ∈ R.drops e' ∩ R.added ledger, R.key r' ≠ R.key r) → ∃ r' ∈ S, R.key r' = R.key r

theorem standing_subset : R.standing ledger ⊆ R.added ledger := by
  rintro r ⟨before, e, after, rfl, hr, -⟩
  exact ⟨e, by simp, hr⟩

theorem added_subset (more : List ε) : R.added ledger ⊆ R.added (ledger ++ more) := by
  rintro r ⟨e, he, hr⟩
  exact ⟨e, List.mem_append_left _ he, hr⟩

namespace Accounts

theorem nil (R : Bookkeeping ε ρ κ) : R.Accounts [] ∅ := ⟨Set.empty_subset _, fun before e after h => by simp at h⟩

theorem thin (h : R.Accounts ledger S) (hthin : Thins R.key S S') : R.Accounts ledger S' := by
  refine ⟨hthin.1.trans h.entered, fun before e after hledger r hr hnone => ?_⟩
  obtain ⟨r', hr', hkey⟩ := h.kept before e after hledger r hr hnone
  obtain ⟨r'', hr'', hkey'⟩ := hthin.2 r' hr'
  exact ⟨r'', hr'', hkey'.trans hkey⟩

/-- One more entry. -/
theorem enter (h : R.Accounts ledger S) (e : ε) : R.Accounts (ledger ++ [e]) (S \ R.drops e ∪ R.adds e) := by
  constructor
  · rintro r (⟨hr, hnot⟩ | hr)
    · obtain ⟨before, e', after, rfl, hadd, hafter⟩ := h.entered hr
      refine ⟨before, e', after ++ [e], by simp, hadd, fun e'' he'' => ?_⟩
      rcases List.mem_append.mp he'' with he'' | he''
      · exact hafter e'' he''
      · rwa [List.mem_singleton.mp he'']
    · exact ⟨ledger, e, [], by simp, hr, by simp⟩
  · intro before e' after hledger r hr hnone
    rcases List.eq_nil_or_concat after with rfl | ⟨after, e'', rfl⟩
    · obtain ⟨-, rfl⟩ := List.append_singleton_inj.mp hledger
      exact ⟨r, .inr hr, rfl⟩
    · rw [List.concat_eq_append, ← List.cons_append, ← List.append_assoc] at hledger
      obtain ⟨hbefore, rfl⟩ := List.append_singleton_inj.mp hledger
      obtain ⟨r', hr', hkey⟩ := h.kept before e' after hbefore r hr fun d hd r' hr' =>
        hnone d (by simp [hd]) r' ⟨hr'.1, added_subset [e] hr'.2⟩
      refine ⟨r', .inl ⟨hr', fun hdrop => ?_⟩, hkey⟩
      exact hnone e (by simp) r' ⟨hdrop, added_subset [e] (standing_subset (h.entered hr'))⟩ hkey

theorem move {made : List ε} (h : R.Accounts ledger S) (hmoves : R.Moves made S S') : R.Accounts (ledger ++ made) S' := by
  induction hmoves with
  | refl => rwa [List.append_nil]
  | thin _ hthin ih => exact (ih h).thin hthin
  | enter _ e ih => exact List.append_assoc _ _ _ ▸ (ih h).enter e

/-- When no two rows that were put in share a key, the store holds the rows that stand and no others. -/
theorem exact (h : R.Accounts ledger S) (hkeys : Set.InjOn R.key (R.added ledger)) : S = R.standing ledger := by
  refine subset_antisymm h.entered ?_
  rintro r ⟨before, e, after, hledger, hr, hafter⟩
  have hadded : r ∈ R.added ledger := ⟨e, by simp [hledger], hr⟩
  obtain ⟨r', hr', hkey⟩ := h.kept before e after hledger r hr fun e' he' r' hr' hkey =>
    hafter e' he' (hkeys hr'.2 hadded hkey ▸ hr'.1)
  exact hkeys (standing_subset (h.entered hr')) hadded hkey ▸ hr'

end Accounts

namespace Moves

theorem single (e : ε) : R.Moves [e] S (S \ R.drops e ∪ R.adds e) := .enter .refl e

theorem trans {made : List ε} {Q : Set ρ} (h : R.Moves ledger S S') (h' : R.Moves made S' Q) : R.Moves (ledger ++ made) S Q := by
  induction h' with
  | refl => rwa [List.append_nil]
  | thin _ hthin ih => exact (ih h).thin hthin
  | enter _ e ih => exact List.append_assoc _ _ _ ▸ (ih h).enter e

/-- What is new was put in. -/
theorem subset (h : R.Moves ledger S S') : S' ⊆ S ∪ R.added ledger := by
  induction h with
  | refl => exact Set.subset_union_left
  | thin _ hthin ih => exact hthin.1.trans ih
  | enter _ e ih =>
    rintro r (⟨hr, -⟩ | hr)
    · exact (ih hr).imp_right fun h => added_subset [e] h
    · exact .inr ⟨e, by simp, hr⟩

end Moves
end Bookkeeping
end Hoglet
