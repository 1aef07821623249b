import Mathlib.Algebra.Order.Ring.Defs
import Mathlib.Algebra.Order.BigOperators.Group.List
import Mathlib.Data.List.Forall2
import Mathlib.Tactic.Linarith

/-! Two ways to choose from a list: the first entry that passes a test, and the entry on whose range a value falls when
the entries take consecutive half-open ranges. -/
namespace Hoglet

/-- The first entry that passes, and how many come before it. -/
inductive First {α : Type*} (p : α → Prop) : List α → Nat → α → Prop where
  | here {a : α} {l : List α} : p a → First p (a :: l) 0 a
  | later {a b : α} {l : List α} {i : Nat} : ¬ p b → First p l i a → First p (b :: l) (i + 1) a

section first
variable {α β : Type*} {p : α → Prop} {l : List α} {i : Nat} {a : α}

theorem First.getElem? (h : First p l i a) : l[i]? = some a := by
  induction h with
  | here _ => rfl
  | later _ _ ih => exact ih

theorem First.mem (h : First p l i a) : a ∈ l := List.mem_of_getElem? h.getElem?

theorem exists_first (h : ∃ a ∈ l, p a) : ∃ i a, First p l i a := by
  induction l with
  | nil => exact absurd h (by simp)
  | cons b l ih =>
    by_cases hb : p b
    · exact ⟨0, b, .here hb⟩
    · obtain ⟨a, ha, hpa⟩ := h
      rcases List.mem_cons.mp ha with rfl | ha
      · exact absurd hpa hb
      · obtain ⟨i, c, hfirst⟩ := ih ⟨a, ha, hpa⟩
        exact ⟨i + 1, c, .later hb hfirst⟩

theorem First.unique {j : Nat} {b : α} (h : First p l i a) (h' : First p l j b) : i = j ∧ a = b := by
  induction h generalizing j b with
  | here ha =>
    cases h' with
    | here _ => exact ⟨rfl, rfl⟩
    | later hb _ => exact absurd ha hb
  | later hb _ ih =>
    cases h' with
    | here hp => exact absurd hp hb
    | later _ hfirst =>
      obtain ⟨rfl, rfl⟩ := ih hfirst
      exact ⟨rfl, rfl⟩

/-- Where every entry passes whose counterpart did, the first one comes no later. -/
theorem First.earlier {q : β → Prop} {r : α → β → Prop} {l' : List β} (hpq : ∀ a b, r a b → p a → q b)
    (hl : List.Forall₂ r l l') (h : First p l i a) : ∃ j ≤ i, ∃ b, First q l' j b := by
  induction h generalizing l' with
  | here ha =>
    cases hl with
    | cons hab _ => exact ⟨0, le_rfl, _, .here (hpq _ _ hab ha)⟩
  | later _ _ ih =>
    cases hl with
    | @cons _ b' _ l' _ hl =>
      by_cases hb' : q b'
      · exact ⟨0, Nat.zero_le _, b', .here hb'⟩
      · obtain ⟨j, hj, c, hfirst⟩ := ih hl
        exact ⟨j + 1, Nat.succ_le_succ hj, c, .later hb' hfirst⟩

end first

section ranges
variable {κ α : Type*} [Field α] [LinearOrder α] [IsStrictOrderedRing α]

/-- The entry whose half-open range has the value, the ranges one after the other from `lo` on. -/
def pick (value : α) : α → List (κ × α) → Option κ
  | _, [] => none
  | lo, (k, share) :: shares => if lo ≤ value ∧ value < lo + share then some k else pick value (lo + share) shares

/-- Ranges of no share are never picked. -/
theorem pick_share {value lo : α} {k : κ} {shares : List (κ × α)} (h : pick value lo shares = some k) :
    ∃ share, (k, share) ∈ shares ∧ 0 < share := by
  induction shares generalizing lo with
  | nil => exact absurd h (by simp [pick])
  | cons m shares ih =>
    rw [pick] at h
    split at h
    · rename_i hin
      cases h
      exact ⟨m.2, List.mem_cons_self, by linarith [hin.1, hin.2]⟩
    · obtain ⟨share, hmem, hpos⟩ := ih h
      exact ⟨share, List.mem_cons_of_mem _ hmem, hpos⟩

/-- The ranges together are the half-open range of the sum. -/
theorem pick_isSome_iff {value lo : α} {shares : List (κ × α)} (nonneg : ∀ m ∈ shares, 0 ≤ m.2) :
    (pick value lo shares).isSome ↔ lo ≤ value ∧ value < lo + (shares.map Prod.snd).sum := by
  induction shares generalizing lo with
  | nil =>
    simp only [pick, Option.isSome_none, Bool.false_eq_true, List.map_nil, List.sum_nil, add_zero, false_iff, not_and, not_lt]
    exact id
  | cons m shares ih =>
    have hm : 0 ≤ m.2 := nonneg m List.mem_cons_self
    have hrest : ∀ n ∈ shares, 0 ≤ n.2 := fun n hn => nonneg n (List.mem_cons_of_mem _ hn)
    have hsum : 0 ≤ (shares.map Prod.snd).sum := List.sum_nonneg (by
      intro x hx
      obtain ⟨n, hn, rfl⟩ := List.mem_map.mp hx
      exact hrest n hn)
    rw [pick, List.map_cons, List.sum_cons, ← add_assoc]
    by_cases hin : lo ≤ value ∧ value < lo + m.2
    · rw [if_pos hin]
      exact iff_of_true rfl ⟨hin.1, by linarith [hin.2]⟩
    · rw [if_neg hin, ih hrest]
      constructor
      · rintro ⟨hlo, hhi⟩
        exact ⟨by linarith, hhi⟩
      · rintro ⟨hlo, hhi⟩
        exact ⟨not_lt.mp fun hlt => hin ⟨hlo, hlt⟩, hhi⟩

end ranges
end Hoglet
