import Mathlib.Data.List.Basic

/-! What began at some call of a run and has been kept by every call since. -/
namespace Hoglet
variable {α : Type*}

/-- Some call of the run begins it and every later one keeps it; both may look at the calls before them. -/
def Since (begins keeps : List α → α → Prop) (run : List α) : Prop :=
  ∃ past c later, run = past ++ c :: later ∧ begins past c ∧ ∀ mid d rest, later = mid ++ d :: rest → keeps (past ++ c :: mid) d

variable {begins keeps begins' keeps' : List α → α → Prop} {run : List α}

@[simp] theorem not_since_nil : ¬ Since begins keeps [] := by
  rintro ⟨past, c, later, h, -, -⟩
  simp at h

/-- One more call begins it, or keeps what the calls before it left. -/
theorem since_append {d : α} : Since begins keeps (run ++ [d]) ↔ begins run d ∨ Since begins keeps run ∧ keeps run d := by
  constructor
  · rintro ⟨past, c, later, hrun, hbegins, hkeeps⟩
    rcases List.eq_nil_or_concat later with rfl | ⟨later, e, rfl⟩
    · obtain ⟨rfl, rfl⟩ := List.append_singleton_inj.mp hrun
      exact .inl hbegins
    · rw [List.concat_eq_append, ← List.cons_append, ← List.append_assoc] at hrun
      obtain ⟨rfl, rfl⟩ := List.append_singleton_inj.mp hrun
      refine .inr ⟨⟨past, c, later, rfl, hbegins, fun mid e rest hlater => ?_⟩, hkeeps later d [] (by simp)⟩
      exact hkeeps mid e (rest ++ [d]) (by simp [hlater])
  · rintro (hbegins | ⟨⟨past, c, later, rfl, hbegins, hkeeps⟩, hkeep⟩)
    · exact ⟨run, d, [], rfl, hbegins, fun mid e rest h => by simp at h⟩
    · refine ⟨past, c, later ++ [d], by simp, hbegins, fun mid e rest hlater => ?_⟩
      rcases List.eq_nil_or_concat rest with rfl | ⟨rest, f, rfl⟩
      · obtain ⟨rfl, rfl⟩ := List.append_singleton_inj.mp hlater
        exact hkeep
      · rw [List.concat_eq_append, ← List.cons_append, ← List.append_assoc] at hlater
        obtain ⟨rfl, rfl⟩ := List.append_singleton_inj.mp hlater
        exact hkeeps mid e rest rfl

theorem Since.imp (hbegins : ∀ past, ∀ c ∈ run, begins past c → begins' past c)
    (hkeeps : ∀ past, ∀ d ∈ run, keeps past d → keeps' past d) (h : Since begins keeps run) : Since begins' keeps' run := by
  obtain ⟨past, c, later, rfl, hc, hlater⟩ := h
  refine ⟨past, c, later, rfl, hbegins past c (by simp) hc, fun mid d rest heq => hkeeps _ d ?_ (hlater mid d rest heq)⟩
  subst heq
  simp

end Hoglet
