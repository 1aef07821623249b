import Mathlib.Data.List.Nodup
import Mathlib.Tactic

/-! Tables with a primary key: rows in some order, no two of them under one key, and what inserting,
updating and deleting do to the row of each key. -/
namespace Hoglet

/-- The first row under a key. -/
def lookupRow {κ ρ : Type} [DecidableEq κ] (rows : List (κ × ρ)) (k : κ) : Option ρ := rows.lookup k

structure Table (κ ρ : Type) where
  rows : List (κ × ρ)
  unique : (rows.map Prod.fst).Nodup

namespace Table
variable {κ ρ : Type} [DecidableEq κ]

def empty : Table κ ρ := ⟨[], .nil⟩

def get (t : Table κ ρ) (k : κ) : Option ρ := lookupRow t.rows k

/-- `SELECT` of the rows that match, in the table's order. -/
def select (t : Table κ ρ) (p : κ → ρ → Bool) : List (κ × ρ) := t.rows.filter fun m => p m.1 m.2

/-- `UPDATE`: every row becomes what `f` makes of it. -/
def update (t : Table κ ρ) (f : κ → ρ → ρ) : Table κ ρ where
  rows := t.rows.map fun m => (m.1, f m.1 m.2)
  unique := by
    rw [List.map_map]
    exact t.unique

/-- `DELETE` of the rows that match. -/
def delete (t : Table κ ρ) (p : κ → ρ → Bool) : Table κ ρ where
  rows := t.rows.filter fun m => !p m.1 m.2
  unique := t.unique.sublist (List.filter_sublist.map _)

theorem get_eq_some {t : Table κ ρ} {k : κ} {r : ρ} : t.get k = some r ↔ (k, r) ∈ t.rows := by
  constructor
  · intro h
    obtain ⟨pre, post, hrows, -⟩ := List.lookup_eq_some_iff.mp h
    simp [hrows]
  · intro h
    obtain ⟨pre, post, hrows⟩ := List.append_of_mem h
    refine List.lookup_eq_some_iff.mpr ⟨pre, post, hrows, fun m hm => bne_iff_ne.mpr fun heq => ?_⟩
    have hu := t.unique
    rw [hrows, List.map_append, List.nodup_append] at hu
    exact hu.2.2 _ (List.mem_map_of_mem hm) k (by simp) heq.symm

theorem get_eq_none {t : Table κ ρ} {k : κ} : t.get k = none ↔ k ∉ t.rows.map Prod.fst := by
  constructor
  · intro h hmem
    obtain ⟨⟨k', r⟩, hm, rfl⟩ := List.mem_map.mp hmem
    rw [get_eq_some.mpr hm] at h
    cases h
  · intro h
    cases hg : t.get k with
    | none => rfl
    | some r => exact absurd (List.mem_map_of_mem (get_eq_some.mp hg)) h

/-- `INSERT`, refused when the key is taken. -/
def insert (t : Table κ ρ) (k : κ) (r : ρ) : Option (Table κ ρ) :=
  if h : t.get k = none then
    some ⟨t.rows ++ [(k, r)], by
      rw [List.map_append, List.nodup_append]
      refine ⟨t.unique, by simp, fun a ha b hb hab => ?_⟩
      obtain rfl : b = k := by simpa using hb
      exact get_eq_none.mp h (hab ▸ ha)⟩
  else none

/-- `INSERT` that leaves a row already there to `f`. -/
def upsert (t : Table κ ρ) (k : κ) (r : ρ) (f : ρ → ρ) : Table κ ρ :=
  (t.insert k r).getD (t.update fun k' r' => if k' = k then f r' else r')

/-- The row under a key, whether there was one or not. -/
def put (t : Table κ ρ) (k : κ) (r : ρ) : Table κ ρ := t.upsert k r fun _ => r

@[simp] theorem get_empty (k : κ) : (empty : Table κ ρ).get k = none := rfl

@[simp] theorem get_update (t : Table κ ρ) (f : κ → ρ → ρ) (k : κ) : (t.update f).get k = (t.get k).map (f k) := by
  cases h : t.get k with
  | none =>
    rw [get_eq_none] at h
    exact get_eq_none.mpr (by simpa [update] using h)
  | some r => exact get_eq_some.mpr (List.mem_map.mpr ⟨(k, r), get_eq_some.mp h, rfl⟩)

omit [DecidableEq κ] in
theorem update_update (t : Table κ ρ) (f g : κ → ρ → ρ) : (t.update f).update g = t.update fun k r => g k (f k r) := by
  simp [update, Function.comp_def]

theorem get_delete (t : Table κ ρ) (p : κ → ρ → Bool) (k : κ) : (t.delete p).get k = (t.get k).filter fun r => !p k r := by
  cases h : t.get k with
  | none =>
    rw [get_eq_none] at h
    refine get_eq_none.mpr fun hmem => h ?_
    obtain ⟨m, hm, rfl⟩ := List.mem_map.mp hmem
    exact List.mem_map_of_mem (List.mem_of_mem_filter hm)
  | some r =>
    have hr := get_eq_some.mp h
    cases hp : p k r with
    | false =>
      rw [Option.filter_some_pos (by simp [hp])]
      exact get_eq_some.mpr (List.mem_filter.mpr ⟨hr, by simp [hp]⟩)
    | true =>
      rw [Option.filter_some_neg (by simp [hp])]
      refine get_eq_none.mpr fun hmem => ?_
      obtain ⟨⟨k', r'⟩, hm, rfl⟩ := List.mem_map.mp hmem
      obtain ⟨hm, hp'⟩ := List.mem_filter.mp hm
      obtain rfl : r = r' := Option.some.inj (h.symm.trans (get_eq_some.mpr hm))
      simp [hp] at hp'

/-- A row that is there is deleted exactly when it matches. -/
theorem get_delete_eq_some {t : Table κ ρ} {p : κ → ρ → Bool} {k : κ} {r : ρ} :
    (t.delete p).get k = some r ↔ t.get k = some r ∧ p k r = false := by
  simp [get_delete, Option.filter_eq_some_iff]

theorem insert_isSome {t : Table κ ρ} {k : κ} (r : ρ) (h : t.get k = none) : ∃ t', t.insert k r = some t' := by
  rw [insert, dif_pos h]
  exact ⟨_, rfl⟩

theorem insert_eq_some {t t' : Table κ ρ} {k : κ} {r : ρ} (h : t.insert k r = some t') :
    t.get k = none ∧ t'.rows = t.rows ++ [(k, r)] := by
  unfold insert at h
  split at h
  · rename_i hn
    cases h
    exact ⟨hn, rfl⟩
  · cases h

theorem get_insert {t t' : Table κ ρ} {k : κ} {r : ρ} (h : t.insert k r = some t') (k' : κ) :
    t'.get k' = if k' = k then some r else t.get k' := by
  obtain ⟨hn, hrows⟩ := insert_eq_some h
  split
  · rename_i heq
    exact get_eq_some.mpr (by simp [hrows, heq])
  · rename_i hne
    cases hg : t.get k' with
    | none =>
      rw [get_eq_none] at hg ⊢
      simp only [hrows, List.map_append, List.mem_append]
      rintro (hmem | hmem)
      · exact hg hmem
      · exact hne (by simpa using hmem)
    | some r' => exact get_eq_some.mpr (by simp [hrows, get_eq_some.mp hg])

theorem get_upsert (t : Table κ ρ) (k : κ) (r : ρ) (f : ρ → ρ) (k' : κ) :
    (t.upsert k r f).get k' = if k' = k then some (((t.get k).map f).getD r) else t.get k' := by
  cases hg : t.get k with
  | none =>
    obtain ⟨t', ht⟩ := insert_isSome r hg
    rw [upsert, ht, Option.getD_some, get_insert ht]
    rfl
  | some r' =>
    have hi : t.insert k r = none := dif_neg (by simp [hg])
    rw [upsert, hi, Option.getD_none, get_update]
    split
    · rename_i heq
      simp [heq, hg]
    · simp

@[simp] theorem get_put (t : Table κ ρ) (k : κ) (r : ρ) (k' : κ) :
    (t.put k r).get k' = if k' = k then some r else t.get k' := by
  rw [put, get_upsert]
  cases t.get k <;> rfl

/-- Upserts of rows that only depend on their keys. -/
theorem get_upserts (f : κ → ρ) (ks : List κ) (t : Table κ ρ) (k : κ) :
    (ks.foldl (fun t k => t.upsert k (f k) fun _ => f k) t).get k = if k ∈ ks then some (f k) else t.get k := by
  induction ks generalizing t with
  | nil => simp
  | cons k' ks ih =>
    rw [List.foldl_cons, ih, get_upsert]
    by_cases hk : k ∈ ks
    · simp [hk]
    · by_cases heq : k = k'
      · subst heq
        cases t.get k <;> simp
      · simp [hk, heq]

theorem mem_select {t : Table κ ρ} {p : κ → ρ → Bool} {k : κ} :
    k ∈ (t.select p).map Prod.fst ↔ ∃ r, t.get k = some r ∧ p k r = true := by
  simp only [select, List.mem_map, List.mem_filter, Prod.exists, get_eq_some]
  constructor
  · rintro ⟨k', r, ⟨hm, hp⟩, rfl⟩
    exact ⟨r, hm, hp⟩
  · rintro ⟨r, hm, hp⟩
    exact ⟨k, r, ⟨hm, hp⟩, rfl⟩

/-- Updates that leave every row as it is. -/
theorem update_stays {t : Table κ ρ} {f : κ → ρ → ρ} (h : ∀ k r, t.get k = some r → f k r = r) : t.update f = t := by
  have hrows : (t.update f).rows = t.rows := by
    change t.rows.map _ = _
    conv_rhs => rw [← List.map_id t.rows]
    exact List.map_congr_left fun m hm => Prod.ext rfl (h m.1 m.2 (get_eq_some.mpr hm))
  obtain ⟨rows, unique⟩ := t
  exact Table.mk.injEq _ _ _ _ ▸ hrows

theorem upsert_stays {t : Table κ ρ} {k : κ} {r row : ρ} {f : ρ → ρ} (h : t.get k = some r) (hf : f r = r) : t.upsert k row f = t := by
  have hinsert : t.insert k row = none := dif_neg (by simp [h])
  rw [upsert, hinsert, Option.getD_none]
  refine update_stays fun k' r' hr' => ?_
  split
  · rename_i hk
    rw [hk, h] at hr'
    rw [← Option.some.inj hr', hf]
  · rfl

/-- A table has a row exactly when it has one under some key. -/
theorem rows_isEmpty {t : Table κ ρ} : t.rows.isEmpty = false ↔ ∃ k r, t.get k = some r := by
  simp only [get_eq_some]
  cases h : t.rows with
  | nil => simp
  | cons m rest => exact ⟨fun _ => ⟨m.1, m.2, by simp⟩, fun _ => rfl⟩

end Table

/-- The rows of a table in another order. -/
theorem lookupRow_perm {κ ρ : Type} [DecidableEq κ] {rows : List (κ × ρ)} {b : Table κ ρ} (h : rows.Perm b.rows) (k : κ) : lookupRow rows k = b.get k := by
  have hunique : (rows.map Prod.fst).Nodup := (h.map Prod.fst).nodup_iff.mpr b.unique
  have hget : lookupRow rows k = (⟨rows, hunique⟩ : Table κ ρ).get k := rfl
  rw [hget]
  cases hb : b.get k with
  | none =>
    rw [Table.get_eq_none] at hb ⊢
    exact fun hmem => hb ((h.map Prod.fst).mem_iff.mp hmem)
  | some r => exact Table.get_eq_some.mpr (h.mem_iff.mpr (Table.get_eq_some.mp hb))

end Hoglet
