import Hoglet.Query.IdentitySync

/-! What a batch of override changes carries, however its rows were cut, and what applying one does to the
table. -/
namespace Hoglet.Query
open Projections

theorem lookup_eq_some {l : List (Key × String)} (h : (l.map Prod.fst).Nodup) {k : Key} {p : String} :
    lookupRow l k = some p ↔ (k, p) ∈ l := Table.get_eq_some (t := ⟨l, h⟩)

theorem lookup_eq_none {l : List (Key × String)} (h : (l.map Prod.fst).Nodup) {k : Key} :
    lookupRow l k = none ↔ k ∉ l.map Prod.fst := Table.get_eq_none (t := ⟨l, h⟩)

theorem row_eq_some {t : Tables} {k : Key} {n : Nat} {p : String} :
    t.source.row k = some (n, p) ↔ (k, ⟨p, n⟩) ∈ t.distinctIds.rows := by
  rw [← Table.get_eq_some]
  constructor
  · intro h
    obtain ⟨r, hr, heq⟩ := Option.map_eq_some_iff.mp h
    cases heq
    exact hr
  · intro h
    simp [Tables.source, h]

section apply
variable {overrides changes : List (Key × String)}

theorem applyChanges_unique (ho : (overrides.map Prod.fst).Nodup) (hc : (changes.map Prod.fst).Nodup) :
    ((applyChanges overrides changes).map Prod.fst).Nodup := by
  rw [applyChanges, List.map_append, List.nodup_append]
  refine ⟨ho.sublist (List.filter_sublist.map _), hc.sublist (List.filter_sublist.map _), fun k hk k' hk' heq => ?_⟩
  subst heq
  obtain ⟨o, ho, rfl⟩ := List.mem_map.mp hk
  obtain ⟨c, hc, hck⟩ := List.mem_map.mp hk'
  have hnone := (List.mem_filter.mp ho).2
  have hany : (changes.any fun c => c.1 = o.1) = true :=
    List.any_eq_true.mpr ⟨c, List.mem_of_mem_filter hc, by simpa using hck⟩
  rw [hany] at hnone
  cases hnone

theorem applyChanges_lookup (ho : (overrides.map Prod.fst).Nodup) (hc : (changes.map Prod.fst).Nodup) (k : Key) :
    lookupRow (applyChanges overrides changes) k =
      Feed.patch overrideOf (lookupRow overrides) (lookupRow changes) k := by
  have hu := applyChanges_unique ho hc
  unfold Feed.patch
  cases hck : lookupRow changes k with
  | some p =>
    have hmem := (lookup_eq_some hc).mp hck
    have hany : (changes.any fun c => c.1 = k) = true := List.any_eq_true.mpr ⟨_, hmem, by simp⟩
    change _ = overrideOf k p
    unfold overrideOf
    split
    · rename_i hself
      refine (lookup_eq_none hu).mpr fun hk => ?_
      obtain ⟨o, hin, rfl⟩ := List.mem_map.mp hk
      rcases List.mem_append.mp hin with hold | hnew
      · simp [hany] at hold
      · obtain ⟨hin, hne⟩ := List.mem_filter.mp hnew
        have heq : p = o.2 := Option.some.inj (hck.symm.trans ((lookup_eq_some hc).mpr hin))
        simp [← heq, hself] at hne
    · rename_i hother
      exact (lookup_eq_some hu).mpr (List.mem_append_right _ (List.mem_filter.mpr ⟨hmem, decide_eq_true hother⟩))
  | none =>
    change _ = lookupRow overrides k
    have hout := (lookup_eq_none hc).mp hck
    have hany : (changes.any fun c => c.1 = k) = false := by
      rw [List.any_eq_false]
      rintro c hin heq
      exact hout (List.mem_map.mpr ⟨c, hin, by simpa using heq⟩)
    cases hok : lookupRow overrides k with
    | some p =>
      exact (lookup_eq_some hu).mpr (List.mem_append_left _
        (List.mem_filter.mpr ⟨(lookup_eq_some ho).mp hok, by rw [hany]; rfl⟩))
    | none =>
      refine (lookup_eq_none hu).mpr fun hk => ?_
      obtain ⟨o, hin, rfl⟩ := List.mem_map.mp hk
      rcases List.mem_append.mp hin with hold | hnew
      · exact (lookup_eq_none ho).mp hok (List.mem_map_of_mem (List.mem_of_mem_filter hold))
      · exact hout (List.mem_map_of_mem (List.mem_of_mem_filter hnew))

end apply

section rows
variable {t : Tables} {after upto : Nat}

/-- Changes that are the rows stamped above `after` and up to `upto`. -/
structure Covers (t : Tables) (after upto : Nat) (changes : List (Key × String)) : Prop where
  unique : (changes.map Prod.fst).Nodup
  mem : ∀ k p, (k, p) ∈ changes ↔ ∃ n, t.source.row k = some (n, p) ∧ after < n ∧ n ≤ upto

theorem Covers.carries {changes : List (Key × String)} (h : Covers t after upto changes) {epoch : Nat}
    (hle : after ≤ upto) (hupto : epoch = t.identityState.epoch → upto ≤ t.identityState.seq) :
    Feed.Carries t.source epoch after upto (lookupRow changes) := by
  refine fun heq => ⟨hle, hupto heq, fun k hk => ?_, fun k n r hk => ⟨fun hlt hn => ?_, fun p hp => ?_⟩⟩
  · cases hc : lookupRow changes k with
    | none => rfl
    | some p =>
      obtain ⟨n, hrow, _⟩ := (h.mem k p).mp ((lookup_eq_some h.unique).mp hc)
      rw [hk] at hrow
      cases hrow
  · exact (lookup_eq_some h.unique).mpr ((h.mem k r).mpr ⟨n, hk, hlt, hn⟩)
  · obtain ⟨n', hrow, hlt, hn⟩ := (h.mem k p).mp ((lookup_eq_some h.unique).mp hp)
    rw [hk] at hrow
    cases hrow
    exact ⟨hlt, fun _ => rfl⟩

theorem mem_changedRows {row : Key × DistinctIdRow} :
    row ∈ changedRows t after upto ↔ row ∈ t.distinctIds.rows ∧ after < row.2.seq ∧ row.2.seq ≤ upto := by
  simp [changedRows, Table.select]

theorem mem_stampedRows {seq : Nat} {row : Key × DistinctIdRow} :
    row ∈ stampedRows t seq ↔ row ∈ t.distinctIds.rows ∧ row.2.seq = seq := by
  simp [stampedRows, Table.select]

/-- Rows that are some of the table's, each once. -/
private theorem covers_of_rows {rows : List (Key × DistinctIdRow)} (hu : (rows.map Prod.fst).Nodup)
    (hm : ∀ row, row ∈ rows ↔ row ∈ t.distinctIds.rows ∧ after < row.2.seq ∧ row.2.seq ≤ upto) :
    Covers t after upto (rows.map change) := by
  refine ⟨by simpa [Function.comp_def, change] using hu, fun k p => ?_⟩
  simp only [List.mem_map, row_eq_some]
  constructor
  · rintro ⟨row, hrow, heq⟩
    cases heq
    obtain ⟨hin, hlt, hle⟩ := (hm row).mp hrow
    exact ⟨row.2.seq, hin, hlt, hle⟩
  · rintro ⟨n, hin, hlt, hle⟩
    exact ⟨(k, ⟨p, n⟩), (hm _).mpr ⟨hin, hlt, hle⟩, rfl⟩

private theorem rows_unique {rows selected : List (Key × DistinctIdRow)} (hp : rows.Perm selected)
    (hs : selected.Sublist t.distinctIds.rows) : (rows.map Prod.fst).Nodup :=
  (hp.map Prod.fst).nodup_iff.mpr (t.distinctIds.unique.sublist (hs.map _))

theorem stampedRows_covers {last : Nat} {rows : List (Key × DistinctIdRow)} (hp : rows.Perm (stampedRows t last))
    (hlt : after < last) (honly : ∀ row ∈ t.distinctIds.rows, after < row.2.seq → row.2.seq ≤ last → row.2.seq = last) :
    Covers t after last (rows.map change) := by
  refine covers_of_rows (rows_unique hp List.filter_sublist) fun row => ?_
  rw [hp.mem_iff, mem_stampedRows]
  constructor
  · rintro ⟨hin, rfl⟩
    exact ⟨hin, hlt, le_refl _⟩
  · rintro ⟨hin, hlt, hle⟩
    exact ⟨hin, honly row hin hlt hle⟩

/-- The ordered rows split into a batch whose last seq is `last`, and rows no lower than that. -/
private theorem take_last {rows : List (Key × DistinctIdRow)} (hs : rows.Pairwise fun a b => a.2.seq ≤ b.2.seq)
    (hlen : maxOverrideBatch < rows.length) :
    ∃ row ∈ rows, (rows.take maxOverrideBatch).getLast? = some row ∧
      (∀ r ∈ rows.take maxOverrideBatch, r.2.seq ≤ row.2.seq) ∧ ∀ r ∈ rows.drop maxOverrideBatch, row.2.seq ≤ r.2.seq := by
  have hne : rows.take maxOverrideBatch ≠ [] := by
    intro h
    have := congrArg List.length h
    rw [List.length_take, List.length_nil] at this
    have : 0 < maxOverrideBatch := by decide
    omega
  obtain ⟨pre, row, hpre⟩ := List.eq_nil_or_concat' (rows.take maxOverrideBatch) |>.resolve_left hne
  rw [← List.take_append_drop maxOverrideBatch rows, List.pairwise_append] at hs
  have hrow : row ∈ rows.take maxOverrideBatch := by simp [hpre]
  refine ⟨row, List.mem_of_mem_take hrow, by simp [hpre], fun r hr => ?_, fun r hr => hs.2.2 row hrow r hr⟩
  rw [hpre] at hr
  rcases List.mem_append.mp hr with hr | hr
  · have hsorted := hs.1
    rw [hpre, List.pairwise_append] at hsorted
    exact hsorted.2.2 r hr row (by simp)
  · rw [List.mem_singleton.mp hr]

/-- A cut batch covers the rows up to its seq; all of them unless it is truncated. -/
theorem cutBatch_covers {seq epoch : Nat} {rows : List (Key × DistinctIdRow)} {batch : OverrideBatch}
    (hp : rows.Perm (changedRows t after seq)) (hs : rows.Pairwise fun a b => a.2.seq ≤ b.2.seq)
    (h : cutBatch after seq epoch rows = .inl batch) :
    batch.epoch = epoch ∧ (batch.changes.map Prod.fst).Nodup ∧ (batch.truncated = false → batch.maxSeq = max seq after) ∧
      (after ≤ seq → Covers t after batch.maxSeq batch.changes ∧ after ≤ batch.maxSeq ∧ batch.maxSeq ≤ seq) := by
  have hu := rows_unique hp List.filter_sublist
  have hm : ∀ row, row ∈ rows ↔ row ∈ t.distinctIds.rows ∧ after < row.2.seq ∧ row.2.seq ≤ seq := fun row => by
    rw [hp.mem_iff, mem_changedRows]
  unfold cutBatch at h
  simp only at h
  split at h
  · cases h
    refine ⟨rfl, by simpa [Function.comp_def, change, List.map_take] using hu.sublist (List.take_sublist _ _), fun _ => rfl,
      fun hle => ?_⟩
    rename_i hlen
    rw [List.take_of_length_le hlen]
    simp only [max_eq_left hle]
    exact ⟨covers_of_rows hu hm, hle, le_refl _⟩
  split at h
  · cases h
    rename_i hlen hany
    obtain ⟨row, hrow, hlast, -, hdrop⟩ := take_last hs (not_le.mp hlen)
    simp only [hlast, Option.map_some, Option.getD_some] at hany ⊢
    have hsub : ((rows.take maxOverrideBatch).filter fun r => r.2.seq < row.2.seq).Sublist rows :=
      List.filter_sublist.trans (List.take_sublist _ _)
    obtain ⟨low, hlow, hlt⟩ := List.any_eq_true.mp hany
    have hlow' := (hm low).mp (List.mem_of_mem_take hlow)
    have hrow' := (hm row).mp hrow
    have hlt : low.2.seq < row.2.seq := by simpa using hlt
    refine ⟨trivial, by simpa [Function.comp_def, change] using hu.sublist (hsub.map _), by simp, fun hle =>
      ⟨covers_of_rows (hu.sublist (hsub.map _)) fun r => ?_, by omega, by omega⟩⟩
    rw [List.mem_filter]
    constructor
    · rintro ⟨hr, hlt'⟩
      have := (hm r).mp (List.mem_of_mem_take hr)
      have : r.2.seq < row.2.seq := by simpa using hlt'
      exact ⟨by tauto, by tauto, by omega⟩
    · rintro ⟨hin, hafter, hle'⟩
      have hlt' : r.2.seq < row.2.seq := by omega
      have hr : r ∈ rows := (hm r).mpr ⟨hin, hafter, by omega⟩
      rw [← List.take_append_drop maxOverrideBatch rows, List.mem_append] at hr
      rcases hr with hr | hr
      · exact ⟨hr, by simpa using hlt'⟩
      · exact absurd (hdrop r hr) (by omega)
  · cases h

/-- A batch that is not truncated has all the rows. -/
theorem cutBatch_whole {seq epoch : Nat} {rows : List (Key × DistinctIdRow)} {batch : OverrideBatch}
    (h : cutBatch after seq epoch rows = .inl batch) (ht : batch.truncated = false) : rows.length ≤ maxOverrideBatch := by
  unfold cutBatch at h
  simp only at h
  split at h
  · assumption
  split at h
  · cases h
    cases ht
  · cases h

/-- A seq too large for a batch is the lowest of all the rows. -/
theorem cutBatch_last {seq epoch last : Nat} {rows : List (Key × DistinctIdRow)}
    (hp : rows.Perm (changedRows t after seq)) (hs : rows.Pairwise fun a b => a.2.seq ≤ b.2.seq)
    (h : cutBatch after seq epoch rows = .inr last) :
    after < last ∧ last ≤ seq ∧ ∀ row ∈ t.distinctIds.rows, after < row.2.seq → row.2.seq ≤ last → row.2.seq = last := by
  have hm : ∀ row, row ∈ rows ↔ row ∈ t.distinctIds.rows ∧ after < row.2.seq ∧ row.2.seq ≤ seq := fun row => by
    rw [hp.mem_iff, mem_changedRows]
  unfold cutBatch at h
  simp only at h
  split at h
  · cases h
  split at h
  · cases h
  rename_i hlen hany
  cases h
  obtain ⟨row, hrow, hlast, -, hdrop⟩ := take_last hs (not_le.mp hlen)
  simp only [hlast, Option.map_some, Option.getD_some, Bool.not_eq_true, List.any_eq_false, decide_eq_true_eq, not_lt] at hany ⊢
  have hrow' := (hm row).mp hrow
  refine ⟨hrow'.2.1, hrow'.2.2, fun r hin hafter hle => le_antisymm hle ?_⟩
  have hr : r ∈ rows := (hm r).mpr ⟨hin, hafter, hle.trans hrow'.2.2⟩
  rw [← List.take_append_drop maxOverrideBatch rows, List.mem_append] at hr
  rcases hr with hr | hr
  · exact hany r hr
  · exact hdrop r hr

end rows

/-- A table that shows the projections' overrides holds exactly their rows. -/
theorem perm_of_view {t : Tables} {overrides : List (Key × String)} (hu : (overrides.map Prod.fst).Nodup)
    (h : (lookupRow overrides) = t.source.view overrideOf) : overrides.Perm (overrideRows t) := by
  have hrows : (overrideRows t).Nodup := by
    have hkeys : ((overrideRows t).map Prod.fst).Nodup := by
      rw [overrideRows, List.map_map]
      exact t.distinctIds.unique.sublist (List.filter_sublist.map _)
    exact hkeys.of_map
  refine (List.perm_ext_iff_of_nodup hu.of_map hrows).mpr fun ⟨k, p⟩ => ?_
  rw [← lookup_eq_some hu, show lookupRow overrides k = t.source.view overrideOf k from congrFun h k]
  simp only [Feed.Source.view, overrideRows, Table.select, List.mem_map, List.mem_filter, Option.bind_eq_some_iff]
  constructor
  · rintro ⟨⟨n, q⟩, hrow, heq⟩
    simp only [overrideOf] at heq
    split at heq
    · cases heq
    · rename_i hne
      cases heq
      exact ⟨(k, ⟨p, n⟩), ⟨row_eq_some.mp hrow, by simpa using hne⟩, rfl⟩
  · rintro ⟨⟨k', r⟩, ⟨hin, hne⟩, heq⟩
    cases heq
    exact ⟨(r.seq, r.personId), row_eq_some.mpr hin, if_neg (by simpa using hne)⟩

/-- Through such a table every distinct id resolves to its person. -/
theorem resolve_of_view {t : Tables} {overrides : List (Key × String)}
    (h : (lookupRow overrides) = t.source.view overrideOf) {projectId d p : String}
    (hp : t.personOf projectId d = some p) : resolve overrides (projectId, d) = p := by
  obtain ⟨r, hr, rfl⟩ := Tables.personOf_eq_some.mp hp
  have hrow : t.source.row (projectId, d) = some (r.seq, r.personId) := row_eq_some.mpr (Table.get_eq_some.mp hr)
  rw [resolve, show lookupRow overrides (projectId, d) = t.source.view overrideOf (projectId, d) from congrFun h _,
    Feed.Source.view, hrow, Option.bind_some, overrideOf]
  split
  · rename_i heq
    exact heq.symm
  · rfl

end Hoglet.Query
