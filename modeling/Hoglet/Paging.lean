import Mathlib.Data.List.Sort
import Mathlib.Data.Prod.Lex
import Mathlib.Tactic

/-! Paging: a server that answers a bound with a page and the bound of the next one, a client that follows the
bounds, and rows that are sorted by falling keys. -/
namespace Hoglet.Paging

section pages
variable {α β ε : Type}

/-- The pages that a client has seen since its first bound, and the bound that the next one is to be asked with. -/
inductive Visited (page : β → Except ε (List α × Option β)) (first : β) : List (List α) → Option β → Prop
  | start : Visited page first [] (some first)
  | more {pages : List (List α)} {bound : β} {rows : List α} {next : Option β} (h : Visited page first pages (some bound))
      (hpage : page bound = .ok (rows, next)) : Visited page first (pages ++ [rows]) next

/-- A page is what comes first of the rest below its bound. The last page is all of it; between other pages some rows may be lost. A valid bound
is answered with a valid one. -/
structure Serves (page : β → Except ε (List α × Option β)) (Valid : β → Prop) (rest : β → List α) (Lost : α → Prop) : Prop where
  last : ∀ bound rows, Valid bound → page bound = .ok (rows, none) → rest bound = rows
  more : ∀ bound rows next, Valid bound → page bound = .ok (rows, some next) →
    Valid next ∧ rows ≠ [] ∧ ∃ lost, (∀ x ∈ lost, Lost x) ∧ rest bound = rows ++ lost ++ rest next

variable {page : β → Except ε (List α × Option β)} {Valid : β → Prop} {rest : β → List α} {Lost : α → Prop} {first : β} {pages : List (List α)}
  {next : Option β}

/-- What has been passed of the rest below the first bound: the pages, and what was lost between them. -/
structure Passed (Lost : α → Prop) (pages : List (List α)) (front : List α) : Prop where
  sublist : pages.flatten.Sublist front
  lost : ∀ x ∈ front, x ∈ pages.flatten ∨ Lost x

theorem Passed.append {front rows lost : List α} (h : Passed Lost pages front) (hlost : ∀ x ∈ lost, Lost x) :
    Passed Lost (pages ++ [rows]) (front ++ (rows ++ lost)) := by
  have hflatten : (pages ++ [rows]).flatten = pages.flatten ++ rows := by rw [List.flatten_append, List.flatten_singleton]
  refine ⟨?_, fun x hx => ?_⟩
  · rw [hflatten]
    exact h.sublist.append (List.sublist_append_left rows lost)
  · rw [hflatten, List.mem_append]
    rcases List.mem_append.mp hx with hx | hx
    · exact (h.lost x hx).imp_left .inl
    · rcases List.mem_append.mp hx with hx | hx
      · exact .inl (.inr hx)
      · exact .inr (hlost x hx)

theorem Serves.valid (h : Serves page Valid rest Lost) (hfirst : Valid first) (hv : Visited page first pages next) :
    ∀ bound, next = some bound → Valid bound := by
  induction hv with
  | start => exact fun bound heq => Option.some.inj heq ▸ hfirst
  | more _ hpage ih => exact fun bound heq => (h.more _ _ bound (ih _ rfl) (heq ▸ hpage)).1

theorem Serves.passed (h : Serves page Valid rest Lost) (hfirst : Valid first) (hv : Visited page first pages next) : ∃ front, Passed Lost pages front ∧
    rest first = front ++ next.elim [] rest ∧ (next.isSome → pages.length ≤ front.length) ∧ pages.length ≤ front.length + 1 := by
  induction hv with
  | start => exact ⟨[], ⟨List.Sublist.refl _, fun x hx => by cases hx⟩, rfl, fun _ => le_rfl, Nat.zero_le _⟩
  | @more pages bound rows next hv hpage ih =>
    obtain ⟨front, hpassed, hrest, hlength, -⟩ := ih
    have hvalid := h.valid hfirst hv bound rfl
    have hlength := hlength rfl
    rw [Option.elim_some] at hrest
    cases next with
    | none =>
      have happend : Passed Lost (pages ++ [rows]) (front ++ rows) := by
        simpa using hpassed.append fun x (hx : x ∈ []) => by cases hx
      refine ⟨front ++ rows, happend, ?_, fun h => (by cases h), ?_⟩
      · rw [hrest, h.last bound rows hvalid hpage, Option.elim_none, List.append_nil]
      · rw [List.length_append, List.length_append, List.length_singleton]
        omega
    | some next =>
      obtain ⟨-, hrows, lost, hlost, hrest'⟩ := h.more bound rows next hvalid hpage
      have hpos := List.length_pos_iff.mpr hrows
      refine ⟨front ++ (rows ++ lost), hpassed.append hlost, ?_, fun _ => ?_, ?_⟩
      · rw [hrest, hrest', Option.elim_some]
        simp only [List.append_assoc]
      all_goals
        simp only [List.length_append, List.length_singleton]
        omega

/-- There are no more pages than rows, and one. -/
theorem Serves.length_le (h : Serves page Valid rest Lost) (hfirst : Valid first) (hv : Visited page first pages next) : pages.length ≤ (rest first).length + 1 := by
  obtain ⟨front, -, hrest, -, hlength⟩ := h.passed hfirst hv
  rw [hrest, List.length_append]
  omega

theorem Serves.sublist (h : Serves page Valid rest Lost) (hfirst : Valid first) (hv : Visited page first pages next) : pages.flatten.Sublist (rest first) := by
  obtain ⟨front, hpassed, hrest, -⟩ := h.passed hfirst hv
  rw [hrest]
  exact hpassed.sublist.trans (List.sublist_append_left _ _)

/-- When the pages are over, every row has been seen or lost. -/
theorem Serves.covers (h : Serves page Valid rest Lost) (hfirst : Valid first) (hv : Visited page first pages none) {x : α} (hx : x ∈ rest first) :
    x ∈ pages.flatten ∨ Lost x := by
  obtain ⟨front, hpassed, hrest, -⟩ := h.passed hfirst hv
  rw [hrest, Option.elim_none, List.append_nil] at hx
  exact hpassed.lost x hx

/-- Where nothing is lost, the pages are what comes first. -/
theorem Serves.lossless (h : Serves page Valid rest fun _ => False) (hfirst : Valid first) (hv : Visited page first pages next) :
    rest first = pages.flatten ++ next.elim [] rest := by
  induction hv with
  | start => rfl
  | @more pages bound rows next hv hpage ih =>
    have hvalid := h.valid hfirst hv bound rfl
    rw [ih, Option.elim_some, List.flatten_append, List.flatten_singleton, List.append_assoc]
    cases next with
    | none => rw [h.last bound rows hvalid hpage, Option.elim_none, List.append_nil]
    | some next =>
      obtain ⟨-, -, lost, hlost, hrest⟩ := h.more bound rows next hvalid hpage
      obtain rfl := List.eq_nil_iff_forall_not_mem.mpr hlost
      rw [hrest, List.append_nil, Option.elim_some]

/-- A client that goes on comes to an end: the last page, or an error. -/
theorem Serves.ends (h : Serves page Valid rest Lost) (hfirst : Valid first) : ∃ pages next, Visited page first pages next ∧
    ∀ bound, next = some bound → ∃ e, page bound = .error e := by
  suffices hmore : ∀ n pages bound, Visited page first pages (some bound) → (rest first).length + 1 ≤ pages.length + n →
      ∃ pages next, Visited page first pages next ∧ ∀ bound, next = some bound → ∃ e, page bound = .error e from
    hmore ((rest first).length + 1) [] first .start (by simp)
  intro n
  induction n with
  | zero =>
    intro pages bound hv hn
    obtain ⟨front, -, hrest, hlength, -⟩ := h.passed hfirst hv
    have hlength := hlength rfl
    rw [hrest, List.length_append] at hn
    omega
  | succ n ih =>
    intro pages bound hv hn
    cases hpage : page bound with
    | error e => exact ⟨pages, some bound, hv, fun _ heq => ⟨e, Option.some.inj heq ▸ hpage⟩⟩
    | ok answer =>
      obtain ⟨rows, next⟩ := answer
      cases next with
      | none => exact ⟨_, none, hv.more hpage, fun _ heq => by cases heq⟩
      | some next =>
        refine ih _ next (hv.more hpage) ?_
        rw [List.length_append, List.length_singleton]
        omega

end pages

/-! Rows by falling keys. -/
section sorted
variable {α γ : Type} [LinearOrder γ] (key : α → γ)

/-- `ORDER BY key DESC`. -/
def descending (rows : List α) : List α := rows.mergeSort fun a b => key b ≤ key a

variable {key} {rows : List α}

theorem perm_descending : (descending key rows).Perm rows := List.mergeSort_perm rows _

theorem mem_descending {a : α} : a ∈ descending key rows ↔ a ∈ rows := perm_descending.mem_iff

/-- Rows with keys of their own come in the one order in which the keys fall. -/
theorem pairwise_descending (h : (rows.map key).Nodup) : (descending key rows).Pairwise fun a b => key b < key a := by
  have hle : (descending key rows).Pairwise fun a b => key b ≤ key a := by
    have htrans : ∀ a b c : α, decide (key b ≤ key a) = true → decide (key c ≤ key b) = true → decide (key c ≤ key a) = true := by
      simpa using fun a b c hab hbc => le_trans hbc hab
    have htotal : ∀ a b : α, (decide (key b ≤ key a) || decide (key a ≤ key b)) = true := by
      simpa using fun a b => le_total (key b) (key a)
    exact (List.pairwise_mergeSort htrans htotal rows).imp of_decide_eq_true
  have hne : (descending key rows).Pairwise fun a b => key a ≠ key b :=
    List.pairwise_map.mp ((perm_descending.map key).nodup_iff.mpr h)
  exact (hle.and hne).imp fun ⟨hba, hab⟩ => lt_of_le_of_ne hba (Ne.symm hab)

/-- Sorting some of the rows, or leaving some out of the sorted rows. -/
theorem descending_filter (h : (rows.map key).Nodup) (p : α → Bool) : descending key (rows.filter p) = (descending key rows).filter p := by
  have hfalls : (descending key (rows.filter p)).Pairwise fun a b => key b < key a :=
    pairwise_descending (h.sublist (List.filter_sublist.map key))
  exact List.Perm.eq_of_pairwise (fun _ _ _ _ hab hba => absurd hba hab.asymm) hfalls ((pairwise_descending h).filter p)
    (perm_descending.trans (perm_descending.symm.filter p))

/-- Of falling rows, those that meet a condition which no later row meets come first. -/
theorem filter_append_filter {l : List α} {p : α → Bool} (h : l.Pairwise fun a b => p b = true → p a = true) :
    l = l.filter p ++ l.filter fun a => !p a := by
  induction l with
  | nil => rfl
  | cons a l ih =>
    obtain ⟨hfirst, hrest⟩ := List.pairwise_cons.mp h
    by_cases ha : p a = true
    · simpa [ha] using ih hrest
    · have hnone : l.filter p = [] := List.filter_eq_nil_iff.mpr fun b hb hp => ha (hfirst b hb hp)
      have hall : (l.filter fun b => !p b) = l := List.filter_eq_self.mpr fun b hb => by
        simpa using fun hp => ha (hfirst b hb hp)
      rw [List.filter_cons_of_neg ha, hnone, List.filter_cons_of_pos (by simpa using ha), hall, List.nil_append]

/-- What is left of rows when the ones that are seen do not meet a condition and all others do. -/
theorem filter_of_append {front back : List α} {q : α → Bool} (hfront : ∀ a ∈ front, q a = false) (hback : ∀ a ∈ back, q a = true) :
    (front ++ back).filter q = back := by
  have hnone : front.filter q = [] := List.filter_eq_nil_iff.mpr fun a ha => by simp [hfront a ha]
  rw [List.filter_append, hnone, List.filter_eq_self.mpr hback, List.nil_append]

end sorted
end Hoglet.Paging
