import Mathlib.Data.List.Basic
import Mathlib.Order.Basic

/-! Histories of a value that may be absent, newest first, whose stamp moves when the value changes: a
stamp that was seen once stands for one value only. -/
namespace Hoglet
variable {α : Type}

/-- The stamp of what is there; nothing is stamped zero. -/
def stampOf (stamp : α → Nat) (o : Option α) : Nat := (o.map stamp).getD 0

/-- A value stays, or goes, or comes with a stamp above those of all the values before it. -/
inductive Stamped (stamp : α → Nat) : List (Option α) → Prop
  | start {o : Option α} (h : ∀ a, o = some a → 0 < stamp a) : Stamped stamp [o]
  | same {o : Option α} {rest : List (Option α)} (h : Stamped stamp (o :: rest)) : Stamped stamp (o :: o :: rest)
  | emptied {o : Option α} {rest : List (Option α)} (h : Stamped stamp (o :: rest)) : Stamped stamp (none :: o :: rest)
  | moved {o : Option α} {a : α} {rest : List (Option α)} (h : Stamped stamp (o :: rest))
      (hnew : ∀ o' ∈ o :: rest, stampOf stamp o' < stamp a) : Stamped stamp (some a :: o :: rest)

namespace Stamped
variable {stamp : α → Nat} {history rest : List (Option α)} {o o' : Option α}

private theorem positive (h : Stamped stamp history) : ∀ a, some a ∈ history → 0 < stamp a := by
  induction h with
  | start h => exact fun a ha => h a (List.mem_singleton.mp ha).symm
  | same _ ih =>
    intro a ha
    rcases List.mem_cons.mp ha with heq | ha
    · exact ih a (heq ▸ List.mem_cons_self)
    · exact ih a ha
  | emptied _ ih =>
    intro a ha
    rcases List.mem_cons.mp ha with heq | ha
    · cases heq
    · exact ih a ha
  | moved _ hnew ih =>
    intro a ha
    rcases List.mem_cons.mp ha with heq | ha
    · cases heq
      exact Nat.lt_of_le_of_lt (Nat.zero_le _) (hnew _ List.mem_cons_self)
    · exact ih a ha

theorem zero_iff (h : Stamped stamp history) (ho : o ∈ history) : stampOf stamp o = 0 ↔ o = none := by
  cases o with
  | none => exact iff_of_true rfl rfl
  | some a => exact iff_of_false (Nat.ne_of_gt (h.positive a ho)) (by simp)

/-- The newest value with the stamp of an earlier one is that one. -/
private theorem newest_eq (h : Stamped stamp history) :
    ∀ o rest, history = o :: rest → ∀ o' ∈ rest, stampOf stamp o = stampOf stamp o' → o = o' := by
  induction h with
  | start =>
    rintro _ _ ⟨⟩ o' ho
    cases ho
  | same h ih =>
    rintro _ _ ⟨⟩ o' ho heq
    rcases List.mem_cons.mp ho with rfl | ho
    · rfl
    · exact ih _ _ rfl o' ho heq
  | emptied h =>
    rintro _ _ ⟨⟩ o' ho heq
    exact ((h.zero_iff ho).mp heq.symm).symm
  | moved h hnew =>
    rintro _ _ ⟨⟩ o' ho heq
    exact absurd heq.symm (Nat.ne_of_lt (hnew o' ho))

private theorem eq_of_stamp_cons {first : Option α} (h : Stamped stamp (first :: rest))
    (hrest : ∀ o ∈ rest, ∀ o' ∈ rest, stampOf stamp o = stampOf stamp o' → o = o') :
    ∀ o ∈ first :: rest, ∀ o' ∈ first :: rest, stampOf stamp o = stampOf stamp o' → o = o' := by
  intro o ho o' ho' heq
  rcases List.mem_cons.mp ho with hfirst | hin <;> rcases List.mem_cons.mp ho' with hfirst' | hin'
  · rw [hfirst, hfirst']
  · rw [hfirst] at heq ⊢
    exact h.newest_eq _ _ rfl o' hin' heq
  · rw [hfirst'] at heq ⊢
    exact (h.newest_eq _ _ rfl o hin heq.symm).symm
  · exact hrest o hin o' hin' heq

/-- One stamp, one value. -/
theorem eq_of_stamp (h : Stamped stamp history) :
    ∀ o ∈ history, ∀ o' ∈ history, stampOf stamp o = stampOf stamp o' → o = o' := by
  induction h with
  | start h => exact eq_of_stamp_cons (.start h) (by simp)
  | same h ih => exact eq_of_stamp_cons h.same ih
  | emptied h ih => exact eq_of_stamp_cons h.emptied ih
  | moved h hnew ih => exact eq_of_stamp_cons (h.moved hnew) ih

/-- A change brings a stamp that no earlier value has, or leaves nothing. -/
theorem changed (h : Stamped stamp (o :: o' :: rest)) (hne : o ≠ o') :
    o = none ∨ ∀ o'' ∈ o' :: rest, stampOf stamp o'' < stampOf stamp o := by
  cases h with
  | same => exact absurd rfl hne
  | emptied => exact .inl rfl
  | moved _ hnew => exact .inr hnew

theorem tail (h : Stamped stamp (o :: o' :: rest)) : Stamped stamp (o' :: rest) := by
  cases h with
  | same h | emptied h | moved h => exact h

/-- What was there before a part of a history is a history. -/
theorem before {newer : List (Option α)} (h : Stamped stamp (newer ++ o :: rest)) : Stamped stamp (o :: rest) := by
  induction newer with
  | nil => exact h
  | cons first newer ih =>
    refine ih ?_
    obtain ⟨second, others, heq⟩ := List.exists_cons_of_ne_nil (l := newer ++ o :: rest) (by simp)
    rw [List.cons_append, heq] at h
    exact heq ▸ h.tail

end Stamped
end Hoglet
