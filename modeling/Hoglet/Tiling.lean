import Mathlib.Order.Lattice
import Mathlib.Data.List.Basic

/-! Half-open pieces that follow one another from a start until one ends at or past the stop. -/
namespace Hoglet
variable {α : Type*} [LinearOrder α]

/-- The starts of the pieces; `follows` holds of where a piece starts and where it ends. -/
inductive Tiles (follows : α → α → Prop) (stop : α) : α → List α → Prop where
  | done {start : α} (h : stop ≤ start) : Tiles follows stop start []
  | more {start following : α} {rest : List α} (h : start < stop) (hfollows : follows start following)
      (hrest : Tiles follows stop following rest) : Tiles follows stop start (start :: rest)

namespace Tiles
variable {follows : α → α → Prop} {stop start : α} {starts : List α}

/-- What the first start has and each passes on to the next one before the stop, all have. -/
theorem forall_mem (h : Tiles follows stop start starts) {P : α → Prop} (hstart : start < stop → P start)
    (hstep : ∀ a b, P a → a < stop → follows a b → b < stop → P b) : ∀ a ∈ starts, P a ∧ a < stop := by
  induction h with
  | done _ => exact fun a ha => absurd ha List.not_mem_nil
  | @more start following rest hlt hfollows _ ih =>
    intro a ha
    rcases List.mem_cons.mp ha with rfl | ha
    · exact ⟨hstart hlt, hlt⟩
    · exact ih (hstep _ _ (hstart hlt) hlt hfollows) a ha

/-- Starts increase where every piece ends after it starts. -/
theorem pairwise_lt (h : Tiles follows stop start starts) (hlt : ∀ a b, a < stop → follows a b → a < b) :
    starts.Pairwise (· < ·) := by
  induction h with
  | done _ => exact .nil
  | @more start following rest hstart hfollows hrest ih =>
    have hfirst := hlt start following hstart hfollows
    have hlater := hrest.forall_mem (fun _ => hfirst) fun a b ha hstop hab _ => ha.trans (hlt a b hstop hab)
    exact List.pairwise_cons.mpr ⟨fun b hb => (hlater b hb).1, ih⟩

/-- A start is where the piece before it ends. -/
theorem follows_getElem (h : Tiles follows stop start starts) {k : Nat} {a b : α} (ha : starts[k]? = some a)
    (hb : starts[k + 1]? = some b) : follows a b := by
  induction h generalizing k with
  | done _ => cases ha
  | @more start following rest _ hfollows hrest ih =>
    rw [List.getElem?_cons_succ] at hb
    cases k with
    | zero =>
      cases ha
      cases hrest with
      | done _ => cases hb
      | more _ _ _ =>
        cases hb
        exact hfollows
    | succ k =>
      rw [List.getElem?_cons_succ] at ha
      exact ih ha hb

/-- Every point from the start to the stop lies in a piece. -/
theorem covers (h : Tiles follows stop start starts) {t : α} (hstart : start ≤ t) (hstop : t < stop) :
    ∃ a ∈ starts, ∃ b, follows a b ∧ a ≤ t ∧ t < b := by
  induction h with
  | done h => exact absurd hstop (not_lt.mpr (h.trans hstart))
  | @more start following rest _ hfollows _ ih =>
    rcases lt_or_ge t following with hlt | hge
    · exact ⟨start, List.mem_cons_self, following, hfollows, hstart, hlt⟩
    · obtain ⟨a, ha, hpiece⟩ := ih hge
      exact ⟨a, List.mem_cons_of_mem _ ha, hpiece⟩

end Tiles
end Hoglet
