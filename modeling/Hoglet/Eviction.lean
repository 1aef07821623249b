import Hoglet.Table
import Mathlib.Data.List.MinMax
import Mathlib.Algebra.BigOperators.Group.List.Basic

/-! Tables that are kept small: what their rows weigh together, and the row of the least rank that goes first, in
whatever order the rows are visited. -/
namespace Hoglet

/-- An order in which a hash table's rows are visited. -/
structure Visits (κ ρ : Type) where
  order : List (κ × ρ) → List (κ × ρ)
  perm : ∀ rows, (order rows).Perm rows

def Visits.asStored {κ ρ : Type} : Visits κ ρ := ⟨id, fun _ => .refl _⟩

def Visits.backwards {κ ρ : Type} : Visits κ ρ := ⟨List.reverse, List.reverse_perm⟩

namespace Table
variable {κ ρ : Type} [DecidableEq κ]

def size (t : Table κ ρ) : Nat := t.rows.length

def weight (w : ρ → Nat) (t : Table κ ρ) : Nat := (t.rows.map fun m => w m.2).sum

def remove (t : Table κ ρ) (k : κ) : Table κ ρ := t.delete fun k' _ => k' = k

/-- The key of the first row visited that ranks no higher than any other. -/
def least (visits : Visits κ ρ) (rank : ρ → Nat) (t : Table κ ρ) : Option κ :=
  ((visits.order t.rows).argmin fun m => rank m.2).map Prod.fst

variable {t : Table κ ρ} {k k' : κ} {r : ρ} {w rank : ρ → Nat} {visits : Visits κ ρ}

@[simp] theorem get_remove (t : Table κ ρ) (k k' : κ) : (t.remove k).get k' = if k' = k then none else t.get k' := by
  rw [remove, get_delete]
  split
  · rename_i heq
    simp [heq]
  · rename_i hne
    cases t.get k' <;> simp [hne]

/-- A row that is there comes off the table. -/
theorem remove_perm (h : t.get k = some r) : t.rows.Perm ((k, r) :: (t.remove k).rows) := by
  obtain ⟨pre, post, hrows⟩ := List.append_of_mem (get_eq_some.mp h)
  have hunique := t.unique
  rw [hrows, List.map_append, List.map_cons, List.nodup_middle] at hunique
  have hkey : ∀ m ∈ pre ++ post, m.1 ≠ k := by
    intro m hm heq
    have hmem : m.1 ∈ (pre ++ post).map Prod.fst := List.mem_map_of_mem hm
    rw [heq, List.map_append] at hmem
    exact (List.nodup_cons.mp hunique).1 hmem
  have hrest : (t.remove k).rows = pre ++ post := by
    change t.rows.filter _ = _
    rw [hrows, List.filter_append, List.filter_cons_of_neg (by simp), ← List.filter_append]
    exact List.filter_eq_self.mpr fun m hm => by simpa using hkey m hm
  rw [hrest, hrows]
  exact List.perm_middle

theorem size_remove (h : t.get k = some r) : t.size = (t.remove k).size + 1 := (remove_perm h).length_eq

theorem weight_remove (h : t.get k = some r) : t.weight w = w r + (t.remove k).weight w := by
  rw [weight, ((remove_perm h).map _).sum_eq, List.map_cons, List.sum_cons]
  rfl

theorem put_rows (h : t.get k = none) : (t.put k r).rows = t.rows ++ [(k, r)] := by
  obtain ⟨t', ht⟩ := insert_isSome r h
  rw [put, upsert, ht, Option.getD_some]
  exact (insert_eq_some ht).2

omit [DecidableEq κ] in
@[simp] theorem size_update (t : Table κ ρ) (f : κ → ρ → ρ) : (t.update f).size = t.size := List.length_map _

theorem size_upsert_none {f : ρ → ρ} (h : t.get k = none) : (t.upsert k r f).size = t.size + 1 := by
  obtain ⟨t', ht⟩ := insert_isSome r h
  rw [upsert, ht, Option.getD_some, size, (insert_eq_some ht).2, List.length_append]
  rfl

theorem size_upsert_some {f : ρ → ρ} {r' : ρ} (h : t.get k = some r') : (t.upsert k r f).size = t.size := by
  have hi : t.insert k r = none := dif_neg (by simp [h])
  rw [upsert, hi, Option.getD_none]
  exact size_update _ _

theorem weight_put (h : t.get k = none) : (t.put k r).weight w = t.weight w + w r := by
  rw [weight, put_rows h]
  simp [weight]

omit [DecidableEq κ] in
theorem weight_update {f : κ → ρ → ρ} (h : ∀ k r, w (f k r) = w r) : (t.update f).weight w = t.weight w := by
  simp [weight, update, Function.comp_def, h]

omit [DecidableEq κ] in
theorem least_eq_none (h : t.least visits rank = none) : t.rows = [] := by
  rw [least, Option.map_eq_none_iff, List.argmin_eq_none] at h
  have hlength := (visits.perm t.rows).length_eq
  rw [h] at hlength
  exact List.length_eq_zero_iff.mp hlength.symm

/-- The row that goes ranks no higher than any row there is. -/
theorem least_eq_some (h : t.least visits rank = some k) :
    ∃ r, t.get k = some r ∧ ∀ k' r', t.get k' = some r' → rank r ≤ rank r' := by
  rw [least, Option.map_eq_some_iff] at h
  obtain ⟨⟨k, r⟩, hmin, rfl⟩ := h
  have hrow := List.argmin_mem hmin
  refine ⟨r, get_eq_some.mpr ((visits.perm _).mem_iff.mp hrow), fun k' r' hr' => ?_⟩
  exact List.le_of_mem_argmin (f := fun m : κ × ρ => rank m.2) ((visits.perm _).mem_iff.mpr (get_eq_some.mp hr')) hmin

/-- A row that ranks below every other one goes, in whatever order they are visited. -/
theorem least_of_lt (h : t.get k = some r) (hlt : ∀ k' r', t.get k' = some r' → k' ≠ k → rank r < rank r') :
    t.least visits rank = some k := by
  cases hleast : t.least visits rank with
  | none =>
    have hrow := get_eq_some.mp h
    rw [least_eq_none hleast] at hrow
    exact absurd hrow List.not_mem_nil
  | some k' =>
    obtain ⟨r', hr', hle⟩ := least_eq_some hleast
    by_cases heq : k' = k
    · rw [heq]
    · exact absurd (hle k r h) (Nat.not_le.mpr (hlt k' r' hr' heq))

end Table
end Hoglet
