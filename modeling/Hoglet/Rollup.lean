import Hoglet.Table

/-! Items summed up by key: one at a time into a table, or table by table, in windows whose rows are merged into the
rows of the windows before. -/
namespace Hoglet
variable {κ ι ρ : Type} [DecidableEq κ]

/-- The items under a key, in order. -/
def itemsAt (items : List (κ × ι)) (k : κ) : List ι := (items.filter fun m => m.1 = k).map Prod.snd

theorem itemsAt_append (items more : List (κ × ι)) (k : κ) : itemsAt (items ++ more) k = itemsAt items k ++ itemsAt more k := by
  simp [itemsAt]

theorem mem_itemsAt {items : List (κ × ι)} {k : κ} {i : ι} : i ∈ itemsAt items k ↔ (k, i) ∈ items := by
  simp [itemsAt]

theorem itemsAt_eq_nil {items : List (κ × ι)} {k : κ} : itemsAt items k = [] ↔ k ∉ items.map Prod.fst := by
  simp only [List.eq_nil_iff_forall_not_mem, mem_itemsAt, List.mem_map, Prod.exists, not_exists, not_and]
  exact ⟨fun h k' i hm hk => h i (hk ▸ hm), fun h i hm => h k i hm rfl⟩

/-- What some items amount to, and how one more item or another summary is added. -/
structure Rollup (ι ρ : Type) where
  summary : List ι → ρ
  bump : ι → ρ → ρ
  merge : ρ → ρ → ρ
  summary_snoc : ∀ items i, items ≠ [] → bump i (summary items) = summary (items ++ [i])
  summary_append : ∀ items more, items ≠ [] → more ≠ [] → merge (summary more) (summary items) = summary (items ++ more)

/-- The row that one row and another under the same key make. -/
def combine (merge : ρ → ρ → ρ) (old : Option ρ) : Option ρ → Option ρ
  | none => old
  | some excluded => some ((old.map (merge excluded)).getD excluded)

namespace Rollup
variable (R : Rollup ι ρ) {t t' b : Table κ ρ} {items more : List (κ × ι)} {k : κ}

def SumsAt (t : Table κ ρ) (items : List (κ × ι)) (k : κ) : Prop :=
  t.get k = if itemsAt items k = [] then none else some (R.summary (itemsAt items k))

def Sums (t : Table κ ρ) (items : List (κ × ι)) : Prop := ∀ k, R.SumsAt t items k

variable {R}

theorem sums_empty : R.Sums (.empty : Table κ ρ) [] := fun _ => rfl

theorem SumsAt.agree (h : R.SumsAt t items k) (h' : R.SumsAt t' items k) : t.get k = t'.get k := h.trans h'.symm

theorem SumsAt.row (h : R.SumsAt t items k) {row : ρ} (hrow : t.get k = some row) :
    itemsAt items k ≠ [] ∧ row = R.summary (itemsAt items k) := by
  rw [SumsAt, hrow] at h
  split at h
  · cases h
  · rename_i hne
    exact ⟨hne, Option.some.inj h⟩

theorem Sums.upsert (h : R.Sums t items) (k : κ) (i : ι) : R.Sums (t.upsert k (R.summary [i]) (R.bump i)) (items ++ [(k, i)]) := by
  intro k'
  have hold := h k'
  rw [SumsAt, Table.get_upsert, itemsAt_append]
  by_cases hk : k' = k
  · subst hk
    have hone : itemsAt [(k', i)] k' = [i] := by simp [itemsAt]
    rw [if_pos rfl, hone, if_neg (by simp), hold]
    split
    · rename_i hnil
      rw [hnil]
      rfl
    · rename_i hne
      rw [Option.map_some, Option.getD_some, R.summary_snoc _ i hne]
  · have hnone : itemsAt [(k, i)] k' = [] := by simp [itemsAt, Ne.symm hk]
    rw [if_neg hk, hnone, List.append_nil]
    exact hold

/-- The summary of a window is merged into the summary of what came before. -/
theorem SumsAt.merged (h : R.SumsAt t items k) (hb : R.SumsAt b more k) (ht : t'.get k = combine R.merge (t.get k) (b.get k)) :
    R.SumsAt t' (items ++ more) k := by
  rw [SumsAt, ht, itemsAt_append]
  by_cases hmore : itemsAt more k = []
  · have hnone : b.get k = none := hb.trans (if_pos hmore)
    rw [hnone, hmore, List.append_nil]
    exact h
  have hrow : b.get k = some (R.summary (itemsAt more k)) := hb.trans (if_neg hmore)
  rw [hrow, if_neg (fun hnil => hmore (List.append_eq_nil_iff.mp hnil).2)]
  by_cases hitems : itemsAt items k = []
  · have hnone : t.get k = none := h.trans (if_pos hitems)
    rw [hnone, hitems, List.nil_append]
    rfl
  · have hold : t.get k = some (R.summary (itemsAt items k)) := h.trans (if_neg hitems)
    rw [hold, combine, Option.map_some, Option.getD_some, R.summary_append _ _ hitems hmore]

end Rollup

/-! Rows written one after another. -/
section rows
variable {σ μ : Type}

/-- A fallible walk over a list, from what one step makes of what holds of the part walked before. -/
theorem foldlM_ends {step : σ → μ → Option σ} {rows : List μ} {s : σ} {Q : List μ → σ → Prop} (hstart : Q [] s)
    (hstep : ∀ before m s, before ++ [m] <+: rows → Q before s → ∃ s', step s m = some s' ∧ Q (before ++ [m]) s') :
    ∃ s', rows.foldlM step s = some s' ∧ Q rows s' := by
  induction rows using List.reverseRecOn with
  | nil => exact ⟨s, rfl, hstart⟩
  | append_singleton rows m ih =>
    obtain ⟨s₁, hrows, hq⟩ := ih fun before m' s hbefore => hstep before m' s (hbefore.trans (List.prefix_append rows [m]))
    obtain ⟨s₂, hlast, hq'⟩ := hstep rows m s₁ List.prefix_rfl hq
    refine ⟨s₂, ?_, hq'⟩
    rw [List.foldlM_append, hrows]
    change [m].foldlM step s₁ = _
    rw [List.foldlM_cons, hlast]
    rfl

variable {t : Table κ ρ} {rows : List (κ × ρ)} {k : κ}

theorem lookupRow_snoc (rows : List (κ × ρ)) (m : κ × ρ) (k : κ) :
    lookupRow (rows ++ [m]) k = (lookupRow rows k).or (if k = m.1 then some m.2 else none) := by
  have hone : [m].lookup k = if k = m.1 then some m.2 else none := by
    obtain ⟨k', r⟩ := m
    by_cases hk : k = k'
    · simp [hk]
    · simp [List.lookup_cons, hk, beq_eq_false_iff_ne.mpr hk]
  rw [lookupRow, List.lookup_append, hone]
  rfl

theorem lookupRow_eq_none (h : k ∉ rows.map Prod.fst) : lookupRow rows k = none := by
  rw [lookupRow, List.lookup_eq_none_iff]
  intro m hm
  simpa using fun heq : k = m.1 => h (List.mem_map.mpr ⟨m, hm, heq.symm⟩)

omit [DecidableEq κ] in
theorem not_mem_before {before : List (κ × ρ)} {m : κ × ρ} (h : before ++ [m] <+: rows) (hunique : (rows.map Prod.fst).Nodup) :
    m.1 ∉ before.map Prod.fst := by
  obtain ⟨rest, rfl⟩ := h
  rw [List.map_append, List.map_append, List.nodup_append] at hunique
  intro hmem
  exact (List.nodup_append.mp hunique.1).2.2 m.1 hmem m.1 (by simp) rfl

/-- Adding the next row of a table to what the rows before it made. -/
theorem combine_snoc {merge : ρ → ρ → ρ} {before : List (κ × ρ)} {m : κ × ρ} (old : Option ρ) (h : m.1 ∉ before.map Prod.fst) (k : κ) :
    combine merge old (lookupRow (before ++ [m]) k) =
      if k = m.1 then some (((combine merge old (lookupRow before k)).map (merge m.2)).getD m.2)
      else combine merge old (lookupRow before k) := by
  rw [lookupRow_snoc]
  split
  · rename_i hk
    subst hk
    rw [lookupRow_eq_none h]
    rfl
  · rw [Option.or_none]

end rows
end Hoglet
