import Mathlib.Logic.Function.Basic
import Mathlib.Logic.Relation
import Mathlib.Tactic

/-! Maps that send each known id to the root of its class, a root to itself, and the ways in which
their classes may change. -/
namespace Hoglet.Forest
variable {ι : Type} [DecidableEq ι]

/-- What an id maps to is a root: looking it up again changes nothing. -/
def Rooted (m : ι → Option ι) : Prop := ∀ d p, m d = some p → m p = some p

/-- A singleton class for an id that is new. -/
def create (m : ι → Option ι) (d : ι) : ι → Option ι := Function.update m d (some d)

/-- The class of `l` joins the class of `w`. -/
def unite (m : ι → Option ι) (w l : ι) : ι → Option ι := fun d => if m d = some l then some w else m d

/-- The class of `p` goes. -/
def remove (m : ι → Option ι) (p : ι) : ι → Option ι := fun d => if m d = some p then none else m d

/-- A class is created for an unknown id, or exactly two classes become one. -/
inductive Grows : (ι → Option ι) → (ι → Option ι) → Prop
  | created (m : ι → Option ι) (d : ι) (hnew : m d = none) (hroot : ∀ d', m d' ≠ some d) : Grows m (create m d)
  | united (m : ι → Option ι) (w l : ι) (hne : w ≠ l) (hw : m w = some w) (hl : m l = some l) : Grows m (unite m w l)

theorem Rooted.create {m : ι → Option ι} (h : Rooted m) {d : ι} (hnew : m d = none) : Rooted (create m d) := by
  intro e p he
  by_cases heq : e = d
  · subst heq
    obtain rfl : e = p := by simpa [Forest.create] using he
    simp [Forest.create]
  · rw [Forest.create, Function.update_of_ne heq] at he
    have hp := h e p he
    have hne : p ≠ d := by
      rintro rfl
      rw [hnew] at hp
      cases hp
    rw [Forest.create, Function.update_of_ne hne, hp]

theorem Rooted.unite {m : ι → Option ι} (h : Rooted m) {w l : ι} (hne : w ≠ l) (hw : m w = some w) :
    Rooted (unite m w l) := by
  have hw' : Forest.unite m w l w = some w := by simp [Forest.unite, hw, hne]
  intro e p he
  unfold Forest.unite at he
  split at he
  · cases he
    exact hw'
  · rename_i hel
    have hp := h e p he
    rw [Forest.unite, if_neg (by rw [hp, ← he]; exact hel), hp]

theorem Rooted.remove {m : ι → Option ι} (h : Rooted m) (q : ι) : Rooted (remove m q) := by
  intro e p he
  unfold Forest.remove at he
  split at he
  · cases he
  · rename_i hel
    have hp := h e p he
    rw [Forest.remove, if_neg (by rw [hp, ← he]; exact hel), hp]

theorem Grows.rooted {m m' : ι → Option ι} (h : Grows m m') (hr : Rooted m) : Rooted m' := by
  cases h with
  | created d hnew _ => exact hr.create hnew
  | united w l hne hw _ => exact hr.unite hne hw

/-- No known id is forgotten while classes are created and united. -/
theorem Grows.known {m m' : ι → Option ι} (h : Grows m m') {d : ι} (hd : m d ≠ none) : m' d ≠ none := by
  cases h with
  | created e hnew _ =>
    have hne : d ≠ e := by
      rintro rfl
      exact hd hnew
    rwa [create, Function.update_of_ne hne]
  | united w l _ _ _ =>
    unfold unite
    split
    · simp
    · exact hd

theorem known_run {m m' : ι → Option ι} (h : Relation.ReflTransGen Grows m m') {d : ι} (hd : m d ≠ none) : m' d ≠ none := by
  induction h with
  | refl => exact hd
  | tail _ hg ih => exact hg.known ih

/-- Ids of one class keep a root in common, however the classes grow. -/
theorem same_run {m m' : ι → Option ι} (h : Relation.ReflTransGen Grows m m') {d e p : ι} (hd : m d = some p) (he : m e = some p) :
    m' d = m' e := by
  suffices hsame : m' d = m' e ∧ m' d ≠ none from hsame.1
  induction h with
  | refl => exact ⟨hd.trans he.symm, by simp [hd]⟩
  | tail _ hgrow ih =>
    refine ⟨?_, hgrow.known ih.2⟩
    obtain ⟨hsame, hknown⟩ := ih
    cases hgrow with
    | created x hnew _ =>
      have hne : ∀ {y}, _ ≠ none → y ≠ x := fun {y} hy heq => hy (heq ▸ hnew)
      rw [create, Function.update_of_ne (hne hknown), Function.update_of_ne (hne (hsame ▸ hknown)), hsame]
    | united w l _ _ _ => rw [unite, unite, hsame]

/-- Ids of other classes keep their root. -/
theorem remove_other {m : ι → Option ι} {p d : ι} (hp : m d ≠ some p) : remove m p d = m d := by
  rw [remove, if_neg hp]

/-- What the ids of a class relate to. -/
def gathered {α : Type} (m : ι → Option ι) (R : ι → α → Prop) (p : ι) : Set α := {x | ∃ d, m d = some p ∧ R d x}

section gathered
variable {α : Type} {m : ι → Option ι} {R : ι → α → Prop} {d p w l : ι}

theorem gathered_create_self (hroot : ∀ e, m e ≠ some d) : gathered (create m d) R d = {x | R d x} := by
  ext x
  constructor
  · rintro ⟨e, he, hx⟩
    by_cases heq : e = d
    · exact heq ▸ hx
    · rw [create, Function.update_of_ne heq] at he
      exact absurd he (hroot e)
  · exact fun hx => ⟨d, Function.update_self .., hx⟩

theorem gathered_create (hnew : m d = none) (hne : p ≠ d) : gathered (create m d) R p = gathered m R p := by
  ext x
  refine exists_congr fun e => and_congr_left fun _ => ?_
  by_cases heq : e = d
  · subst heq
    simp [create, hnew, hne.symm]
  · rw [create, Function.update_of_ne heq]

theorem gathered_unite_winner : gathered (unite m w l) R w = gathered m R w ∪ gathered m R l := by
  ext x
  rw [Set.mem_union, gathered, gathered, gathered, Set.mem_ofPred, Set.mem_ofPred, Set.mem_ofPred, ← exists_or]
  refine exists_congr fun e => ?_
  rw [← or_and_right, unite]
  refine and_congr_left fun _ => ?_
  split
  · rename_i he
    exact iff_of_true rfl (.inr he)
  · rename_i he
    exact (or_iff_left he).symm

theorem gathered_unite (hw : p ≠ w) (hl : p ≠ l) : gathered (unite m w l) R p = gathered m R p := by
  ext x
  refine exists_congr fun e => and_congr_left fun _ => ?_
  rw [unite]
  split
  · rename_i he
    rw [he, Option.some.injEq, Option.some.injEq]
    exact iff_of_false hw.symm hl.symm
  · rfl

end gathered
end Hoglet.Forest
