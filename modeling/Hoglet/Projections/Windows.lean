import Hoglet.Eviction
import Hoglet.Projections.Catalog
import Hoglet.Rollup

/-! Cutting events into windows at other places leaves the same catalogue: only a key with too many values keeps
values that depend on the cuts. -/
namespace Hoglet.Projections
open Json Capture

/-! The flush as the source has it: maps walked in any order, and the sizes of the keys it has looked up. -/
section walks

/-- The orders in which the batch's maps are walked. -/
structure Walks where
  names : Visits (String × String) Seen
  keys : Visits (String × String) (Seen × String)
  values : Visits (String × String × String) Seen

/-- How many values a key has. -/
def cardinality (t : Table (String × String × String) Seen) (key : String × String) : Nat :=
  (t.select fun k _ => k.1 = key.1 && k.2.1 = key.2).length

/-- The next value row, with the sizes looked up. -/
def writeSized (found : Table (String × String) Nat × Table (String × String × String) Seen) (m : (String × String × String) × Seen) :
    Option (Table (String × String) Nat × Table (String × String × String) Seen) :=
  let (sizes, t) := found
  let key := (m.1.1, m.1.2.1)
  if (t.get m.1).isSome then (writeSeen Seen.count Seen.merge t m).map (sizes, ·)
  else
    let size := match sizes.get key with
      | some size => size
      | none => cardinality t key
    if maxValuesPerKey ≤ size then some (sizes, t)
    else (writeSeen Seen.count Seen.merge t m).map (sizes.put key (size + 1), ·)

def sortedValues (walks : Walks) (batch : CatalogBatch) : List ((String × String × String) × Seen) :=
  (walks.values.order batch.values.rows).mergeSort fun a b => b.2.count ≤ a.2.count

def writeNames : Table (String × String) Seen → (String × String) × Seen → Option (Table (String × String) Seen) :=
  writeSeen Seen.count Seen.merge

def writeKeys : Table (String × String) (Seen × String) → (String × String) × (Seen × String) →
    Option (Table (String × String) (Seen × String)) :=
  writeSeen (·.1.count) fun excluded seen => (excluded.1.merge seen.1, excluded.2)

/-- `CatalogBatch::flush`. -/
def CatalogBatch.flushWalking (walks : Walks) (batch : CatalogBatch) (catalog : Catalog) : Option Catalog := do
  let names ← (walks.names.order batch.names.rows).foldlM writeNames catalog.names
  let keys ← (walks.keys.order batch.keys.rows).foldlM writeKeys catalog.keys
  let (_, values) ← (sortedValues walks batch).foldlM writeSized (.empty, catalog.values)
  return ⟨names, keys, values⟩

theorem sortedValues_perm (walks : Walks) (batch : CatalogBatch) : (sortedValues walks batch).Perm batch.values.rows :=
  (List.mergeSort_perm _ _).trans (walks.values.perm _)

/-- The sizes looked up are those of the table. -/
def Exact (sizes : Table (String × String) Nat) (t : Table (String × String × String) Seen) : Prop :=
  ∀ key size, sizes.get key = some size → size = cardinality t key

theorem writeSeen_eq_some {κ ρ : Type} [DecidableEq κ] {count : ρ → Nat} {merge : ρ → ρ → ρ} {t t' : Table κ ρ} {m : κ × ρ}
    (h : writeSeen count merge t m = some t') : t' = t.upsert m.1 m.2 (merge m.2) := by
  simp only [writeSeen] at h
  split at h
  · exact (Option.some.inj h).symm
  · cases h

theorem cardinality_upsert (t : Table (String × String × String) Seen) (k : String × String × String) (row : Seen) (f : Seen → Seen)
    (key : String × String) : cardinality (t.upsert k row f) key =
      cardinality t key + if t.get k = none ∧ (k.1, k.2.1) = key then 1 else 0 := by
  cases hk : t.get k with
  | none =>
    obtain ⟨t', ht⟩ := Table.insert_isSome row hk
    rw [Table.upsert, ht, Option.getD_some, cardinality, Table.select, (Table.insert_eq_some ht).2, List.filter_append, List.length_append]
    congr 1
    by_cases hkey : (k.1, k.2.1) = key
    · subst hkey
      simp
    · rw [if_neg (fun h => hkey h.2), List.length_eq_zero_iff, List.filter_eq_nil_iff]
      rintro m hm heq
      obtain rfl : m = (k, row) := by simpa using hm
      refine hkey (Prod.ext ?_ ?_)
      · simpa using (Bool.and_eq_true_iff.mp heq).1
      · simpa using (Bool.and_eq_true_iff.mp heq).2
  | some old =>
    have hinsert : t.insert k row = none := dif_neg (by simp [hk])
    rw [Table.upsert, hinsert, Option.getD_none, if_neg (by simp), add_zero]
    change ((t.rows.map _).filter _).length = _
    rw [List.filter_map, List.length_map]
    rfl

/-- The sizes looked up change nothing. -/
theorem writeSized_eq {sizes : Table (String × String) Nat} {t : Table (String × String × String) Seen} (h : Exact sizes t)
    (m : (String × String × String) × Seen) : (writeSized (sizes, t) m).map Prod.snd = writeValue t m ∧
      ∀ sizes' t', writeSized (sizes, t) m = some (sizes', t') → Exact sizes' t' := by
  have hsize : (match sizes.get (m.1.1, m.1.2.1) with
      | some size => size
      | none => cardinality t (m.1.1, m.1.2.1)) = cardinality t (m.1.1, m.1.2.1) := by
    cases hkey : sizes.get (m.1.1, m.1.2.1) with
    | some size => exact h _ _ hkey
    | none => rfl
  have hcard : (t.select fun k _ => k.1 = m.1.1 && k.2.1 = m.1.2.1).length = cardinality t (m.1.1, m.1.2.1) := rfl
  simp only [writeSized, writeValue, hsize, hcard]
  cases hknown : t.get m.1 with
  | some old =>
    refine ⟨by simp, fun sizes' t' hw => ?_⟩
    rw [Option.isSome_some, if_pos rfl] at hw
    obtain ⟨t'', hseen, heq⟩ := Option.map_eq_some_iff.mp hw
    cases heq
    intro key size hget
    rw [writeSeen_eq_some hseen, cardinality_upsert, if_neg (by simp [hknown]), add_zero]
    exact h key size hget
  | none =>
    rw [Option.isSome_none, if_neg (by simp)]
    by_cases hfull : maxValuesPerKey ≤ cardinality t (m.1.1, m.1.2.1)
    · rw [if_pos hfull, if_pos (by simpa using hfull)]
      exact ⟨rfl, fun sizes' t' hw => by cases hw; exact h⟩
    · rw [if_neg hfull, if_neg (by simpa using hfull)]
      refine ⟨by simp, fun sizes' t' hw => ?_⟩
      obtain ⟨t'', hseen, heq⟩ := Option.map_eq_some_iff.mp hw
      cases heq
      intro key size hget
      rw [writeSeen_eq_some hseen, cardinality_upsert]
      rw [Table.get_put] at hget
      split at hget
      · rename_i hkey
        cases hget
        rw [hkey, if_pos ⟨hknown, rfl⟩]
      · rename_i hkey
        rw [if_neg (fun hand => hkey hand.2.symm), add_zero]
        exact h key size hget

theorem writeSized_foldlM {sizes : Table (String × String) Nat} {t : Table (String × String × String) Seen} (h : Exact sizes t)
    (rows : List ((String × String × String) × Seen)) : (rows.foldlM writeSized (sizes, t)).map Prod.snd = rows.foldlM writeValue t := by
  induction rows generalizing sizes t with
  | nil => rfl
  | cons m rows ih =>
    obtain ⟨hsnd, hexact⟩ := writeSized_eq h m
    rw [List.foldlM_cons, List.foldlM_cons, ← hsnd]
    cases hw : writeSized (sizes, t) m with
    | none => rfl
    | some found =>
      obtain ⟨sizes', t'⟩ := found
      exact ih (hexact sizes' t' hw)

/-- The flush of a window, its sizes looked up row by row. -/
theorem flushWalking_eq (walks : Walks) (batch : CatalogBatch) (catalog : Catalog) : batch.flushWalking walks catalog = (do
    let names ← (walks.names.order batch.names.rows).foldlM writeNames catalog.names
    let keys ← (walks.keys.order batch.keys.rows).foldlM writeKeys catalog.keys
    let values ← (sortedValues walks batch).foldlM writeValue catalog.values
    return ⟨names, keys, values⟩) := by
  have hempty : Exact .empty catalog.values := fun key size h => by cases h
  have hvalues := writeSized_foldlM hempty (sortedValues walks batch)
  rw [← hvalues, CatalogBatch.flushWalking]
  cases (walks.names.order batch.names.rows).foldlM writeNames catalog.names with
  | none => rfl
  | some names =>
    cases (walks.keys.order batch.keys.rows).foldlM writeKeys catalog.keys with
    | none => rfl
    | some keys =>
      cases (sortedValues walks batch).foldlM writeSized (.empty, catalog.values) with
      | none => rfl
      | some found => rfl

end walks

/-! What windows add up to. -/
section sums
variable {ν U : Type} (K : Crates ν U)

/-- Counts, and the latest time. -/
def seenRollup : Rollup Int Seen where
  summary ats := ⟨ats.length, ats.foldl max 0⟩
  bump := Seen.bump
  merge := Seen.merge
  summary_snoc ats at_ _ := by simp [Seen.bump]
  summary_append ats more _ _ := by
    have hmax : ∀ (more : List Int) (start : Int), 0 ≤ start → more.foldl max start = max start (more.foldl max 0) := by
      intro more
      induction more with
      | nil => exact fun start hstart => (max_eq_left hstart).symm
      | cons at_ more ih =>
        intro start hstart
        rw [List.foldl_cons, List.foldl_cons, ih _ (le_max_of_le_left hstart), ih _ (le_max_left 0 at_), ← max_assoc, ← max_assoc,
          max_eq_left hstart]
    have hpos : ∀ ats : List Int, 0 ≤ ats.foldl max 0 := fun ats => by
      cases ats with
      | nil => exact le_rfl
      | cons at_ ats =>
        rw [List.foldl_cons, hmax _ _ (le_max_left 0 at_)]
        exact le_max_of_le_left (le_max_left 0 at_)
    simp only [Seen.merge, List.length_append, List.foldl_append, hmax more _ (hpos ats)]

/-- The same, and the last type. -/
def typedRollup : Rollup (Int × String) (Seen × String) where
  summary items := (seenRollup.summary (items.map Prod.fst), (items.getLast?.map Prod.snd).getD "")
  bump item seen := (seen.1.bump item.1, item.2)
  merge excluded seen := (excluded.1.merge seen.1, excluded.2)
  summary_snoc items item hne := by
    have hseen : Seen.bump item.1 (seenRollup.summary (items.map Prod.fst)) = seenRollup.summary (items.map Prod.fst ++ [item.1]) :=
      seenRollup.summary_snoc (items.map Prod.fst) item.1 (by simpa using hne)
    simp [hseen]
  summary_append items more hne hne' := by
    have hseen := seenRollup.summary_append (items.map Prod.fst) (more.map Prod.fst) (by simpa using hne) (by simpa using hne')
    have hlast : (items ++ more).getLast? = more.getLast? := List.getLast?_append_of_ne_nil items hne'
    rw [List.map_append, ← hseen, hlast]
    rfl

abbrev Recorded (ν U : Type) := List (String × CapturedEvent ν U)

def nameItems (events : Recorded ν U) : List ((String × String) × Int) :=
  events.map fun e => ((e.1, e.2.event), e.2.timestamp.milliseconds)

def keyItems (events : Recorded ν U) : List ((String × String) × (Int × String)) :=
  events.flatMap fun e => e.2.properties.members.map fun m => ((e.1, m.1), (e.2.timestamp.milliseconds, valueType m.2))

def valueItems (events : Recorded ν U) : List ((String × String × String) × Int) :=
  events.flatMap fun e => (e.2.properties.members.filter fun m => catalogued K m.1 m.2).map fun m =>
    ((e.1, m.1, valueText K m.2), e.2.timestamp.milliseconds)

/-- The window's batch. -/
def collect (window : Recorded ν U) : CatalogBatch := window.foldl (fun batch e => CatalogBatch.add K e.1 e.2 batch) .empty

/-- The batch has the sums of a window. -/
structure CatalogBatch.Sums (batch : CatalogBatch) (names : List ((String × String) × Int)) (keys : List ((String × String) × (Int × String)))
    (values : List ((String × String × String) × Int)) : Prop where
  names : seenRollup.Sums batch.names names
  keys : typedRollup.Sums batch.keys keys
  values : seenRollup.Sums batch.values values

variable {K} {batch : CatalogBatch} {names : List ((String × String) × Int)} {keys : List ((String × String) × (Int × String))}
  {values : List ((String × String × String) × Int)}

theorem CatalogBatch.Sums.addProperty (h : batch.Sums names keys values) (projectId : String) (at_ : Int) (key : String) (value : Value ν) :
    (CatalogBatch.addProperty K projectId at_ batch key value).Sums names (keys ++ [((projectId, key), (at_, valueType value))])
      (values ++ if catalogued K key value then [((projectId, key, valueText K value), at_)] else []) := by
  have hkeys := h.keys.upsert (projectId, key) (at_, valueType value)
  unfold CatalogBatch.addProperty
  split
  · exact ⟨h.names, hkeys, h.values.upsert (projectId, key, valueText K value) at_⟩
  · rw [List.append_nil]
    exact ⟨h.names, hkeys, h.values⟩

theorem CatalogBatch.Sums.addProperties (h : batch.Sums names keys values) (projectId : String) (at_ : Int)
    (members : List (String × Value ν)) :
    (members.foldl (fun batch (key, value) => CatalogBatch.addProperty K projectId at_ batch key value) batch).Sums names
      (keys ++ members.map fun m => ((projectId, m.1), (at_, valueType m.2)))
      (values ++ (members.filter fun m => catalogued K m.1 m.2).map fun m => ((projectId, m.1, valueText K m.2), at_)) := by
  induction members generalizing batch keys values with
  | nil => simpa using h
  | cons m members ih =>
    have hm := ih (h.addProperty (K := K) projectId at_ m.1 m.2)
    rw [List.append_assoc, List.append_assoc] at hm
    rw [List.foldl_cons, List.map_cons]
    by_cases hcat : catalogued K m.1 m.2
    · rw [if_pos hcat] at hm
      rw [List.filter_cons, if_pos hcat]
      exact hm
    · rw [if_neg hcat] at hm
      rw [List.filter_cons, if_neg hcat]
      exact hm

theorem collect_sums (window : Recorded ν U) : (collect K window).Sums (nameItems window) (keyItems window) (valueItems K window) := by
  induction window using List.reverseRecOn with
  | nil => exact ⟨Rollup.sums_empty, Rollup.sums_empty, Rollup.sums_empty⟩
  | append_singleton window e ih =>
    have hname := ih.names.upsert (e.1, e.2.event) e.2.timestamp.milliseconds
    have hnamed : ({ collect K window with names := _ } : CatalogBatch).Sums _ _ _ := ⟨hname, ih.keys, ih.values⟩
    have hadded := hnamed.addProperties (K := K) e.1 e.2.timestamp.milliseconds e.2.properties.members
    have hcollect : collect K (window ++ [e]) = CatalogBatch.add K e.1 e.2 (collect K window) := by
      rw [collect, List.foldl_append]
      rfl
    have hnames : nameItems (window ++ [e]) = nameItems window ++ [((e.1, e.2.event), e.2.timestamp.milliseconds)] := by
      simp [nameItems]
    have hkeys : keyItems (window ++ [e]) = keyItems window ++ e.2.properties.members.map fun m =>
        ((e.1, m.1), (e.2.timestamp.milliseconds, valueType m.2)) := by
      simp [keyItems]
    have hvalues : valueItems K (window ++ [e]) = valueItems K window ++ (e.2.properties.members.filter fun m =>
        catalogued K m.1 m.2).map fun m => ((e.1, m.1, valueText K m.2), e.2.timestamp.milliseconds) := by
      simp [valueItems]
    rw [hcollect, hnames, hkeys, hvalues]
    exact hadded

end sums

/-! Writing a batch. -/
section writes
variable {κ ρ : Type} [DecidableEq κ] {count : ρ → Nat} {merge : ρ → ρ → ρ} {t b : Table κ ρ}

/-- The check on the column. -/
def Positive (count : ρ → Nat) (t : Table κ ρ) : Prop := ∀ k r, t.get k = some r → 0 < count r

theorem Positive.upsert (h : Positive count t) (hmerge : ∀ excluded r, 0 < count r → 0 < count (merge excluded r)) {m : κ × ρ}
    (hm : 0 < count m.2) : Positive count (t.upsert m.1 m.2 (merge m.2)) := by
  intro k r hr
  rw [Table.get_upsert] at hr
  split at hr
  · cases hold : t.get m.1 with
    | none =>
      rw [hold] at hr
      cases hr
      exact hm
    | some old =>
      rw [hold] at hr
      cases hr
      exact hmerge m.2 old (h m.1 old hold)
  · exact h k r hr

theorem writeSeen_ok (h : Positive count t) (hmerge : ∀ excluded r, 0 < count r → 0 < count (merge excluded r)) {m : κ × ρ}
    (hm : 0 < count m.2) : writeSeen count merge t m = some (t.upsert m.1 m.2 (merge m.2)) := by
  refine if_pos (List.all_eq_true.mpr fun row hrow => decide_eq_true ?_)
  exact (h.upsert hmerge hm) row.1 row.2 (Table.get_eq_some.mpr hrow)

theorem foldlM_writeSeen (h : Positive count t) (hb : Positive count b) (hmerge : ∀ excluded r, 0 < count r → 0 < count (merge excluded r))
    {rows : List (κ × ρ)} (hrows : rows.Perm b.rows) :
    ∃ t', rows.foldlM (writeSeen count merge) t = some t' ∧ ∀ k, t'.get k = combine merge (t.get k) (b.get k) := by
  have hunique : (rows.map Prod.fst).Nodup := (hrows.map Prod.fst).nodup_iff.mpr b.unique
  have hstep : ∀ before m t', before ++ [m] <+: rows → (Positive count t' ∧ ∀ k, t'.get k = combine merge (t.get k) (lookupRow before k)) →
      ∃ t'', writeSeen count merge t' m = some t'' ∧
        Positive count t'' ∧ ∀ k, t''.get k = combine merge (t.get k) (lookupRow (before ++ [m]) k) := by
    rintro before m t' hbefore ⟨hpos, hget⟩
    have hm : 0 < count m.2 := hb m.1 m.2 (Table.get_eq_some.mpr (hrows.mem_iff.mp (hbefore.subset (by simp))))
    refine ⟨_, writeSeen_ok hpos hmerge hm, hpos.upsert hmerge hm, fun k => ?_⟩
    rw [Table.get_upsert, combine_snoc _ (not_mem_before hbefore hunique)]
    split
    · rename_i hk
      rw [hget, hk]
    · exact hget k
  obtain ⟨t', hfold, -, hget⟩ := foldlM_ends (Q := fun before t' => Positive count t' ∧ ∀ k, t'.get k = combine merge (t.get k) (lookupRow before k))
    ⟨h, fun _ => rfl⟩ hstep
  refine ⟨t', hfold, fun k => ?_⟩
  rw [hget, lookupRow_perm hrows]

end writes

section values
variable {t b : Table (String × String × String) Seen} {key : String × String}

/-- A key whose values are among some, of which one is not there, has fewer. -/
theorem cardinality_lt {values : Finset String} (hsub : ∀ v, t.get (key.1, key.2, v) ≠ none → v ∈ values) {v : String} (hv : v ∈ values)
    (hnone : t.get (key.1, key.2, v) = none) : cardinality t key < values.card := by
  have hkey : ∀ m ∈ t.select (fun k _ => k.1 = key.1 && k.2.1 = key.2), m ∈ t.rows ∧ m.1 = (key.1, key.2, m.1.2.2) := by
    intro m hm
    obtain ⟨hmem, hp⟩ := List.mem_filter.mp hm
    obtain ⟨hone, htwo⟩ := Bool.and_eq_true_iff.mp hp
    exact ⟨hmem, Prod.ext (by simpa using hone) (Prod.ext (by simpa using htwo) rfl)⟩
  have hfirst : ((t.select fun k _ => k.1 = key.1 && k.2.1 = key.2).map Prod.fst).Nodup := t.unique.sublist (List.filter_sublist.map _)
  have hnodup : ((t.select fun k _ => k.1 = key.1 && k.2.1 = key.2).map fun m => m.1.2.2).Nodup := by
    refine List.Nodup.map_on (fun m hm m' hm' heq => ?_) (List.Nodup.of_map _ hfirst)
    have hfst : m.1 = m'.1 := by rw [(hkey m hm).2, (hkey m' hm').2, heq]
    exact List.inj_on_of_nodup_map hfirst hm hm' hfst
  have hin : ((t.select fun k _ => k.1 = key.1 && k.2.1 = key.2).map fun m => m.1.2.2).toFinset ⊆ values.erase v := by
    intro v' hv'
    obtain ⟨m, hm, rfl⟩ := List.mem_map.mp (List.mem_toFinset.mp hv')
    obtain ⟨hrow, hfst⟩ := hkey m hm
    have hget : t.get (key.1, key.2, m.1.2.2) = some m.2 := Table.get_eq_some.mpr (hfst ▸ hrow)
    refine Finset.mem_erase.mpr ⟨?_, hsub _ (by simp [hget])⟩
    rintro heq
    rw [heq, hnone] at hget
    cases hget
  calc cardinality t key = ((t.select fun k _ => k.1 = key.1 && k.2.1 = key.2).map fun m => m.1.2.2).toFinset.card := by
        rw [List.toFinset_card_of_nodup hnodup, List.length_map]
        rfl
    _ ≤ (values.erase v).card := Finset.card_le_card hin
    _ < values.card := Finset.card_erase_lt_of_mem hv

/-- The next value is written, or left out because its key is full. -/
theorem writeValue_eq (h : Positive Seen.count t) {m : (String × String × String) × Seen} (hm : 0 < m.2.count) :
    t.get m.1 = none ∧ maxValuesPerKey ≤ cardinality t (m.1.1, m.1.2.1) ∧ writeValue t m = some t ∨
      ¬ (t.get m.1 = none ∧ maxValuesPerKey ≤ cardinality t (m.1.1, m.1.2.1)) ∧
        writeValue t m = some (t.upsert m.1 m.2 (Seen.merge m.2)) := by
  have hmerge : ∀ excluded r : Seen, 0 < r.count → 0 < (Seen.merge excluded r).count := fun _ _ hr => Nat.add_pos_left hr _
  have hcard : (t.select fun k _ => k.1 = m.1.1 && k.2.1 = m.1.2.1).length = cardinality t (m.1.1, m.1.2.1) := rfl
  simp only [writeValue, hcard]
  by_cases hfull : t.get m.1 = none ∧ maxValuesPerKey ≤ cardinality t (m.1.1, m.1.2.1)
  · exact .inl ⟨hfull.1, hfull.2, if_pos (by simp [hfull.1, hfull.2])⟩
  · refine .inr ⟨hfull, ?_⟩
    rw [if_neg, writeSeen_ok h hmerge hm]
    simpa [Option.isNone_iff_eq_none] using hfull

/-- What writing some rows makes of a table, `b` being all of them: a key keeps all its values when they are few. -/
structure Filled (t b : Table (String × String × String) Seen) (before : List ((String × String × String) × Seen))
    (t' : Table (String × String × String) Seen) : Prop where
  positive : Positive Seen.count t'
  few : ∀ key, cardinality t' key ≤ maxValuesPerKey
  origin : ∀ k, t'.get k ≠ none → t.get k ≠ none ∨ b.get k ≠ none
  all : ∀ (key : String × String) (values : Finset String), values.card ≤ maxValuesPerKey →
    (∀ v, t.get (key.1, key.2, v) ≠ none ∨ b.get (key.1, key.2, v) ≠ none → v ∈ values) →
      ∀ v, t'.get (key.1, key.2, v) = combine Seen.merge (t.get (key.1, key.2, v)) (lookupRow before (key.1, key.2, v))

theorem Filled.write {t' : Table (String × String × String) Seen} {before : List ((String × String × String) × Seen)}
    {m : (String × String × String) × Seen} (h : Filled t b before t') (hm : b.get m.1 = some m.2) (hpos : 0 < m.2.count)
    (hnew : m.1 ∉ before.map Prod.fst) : ∃ t'', writeValue t' m = some t'' ∧ Filled t b (before ++ [m]) t'' := by
  have hmerge : ∀ excluded r : Seen, 0 < r.count → 0 < (Seen.merge excluded r).count := fun _ _ hr => Nat.add_pos_left hr _
  rcases writeValue_eq h.positive hpos with ⟨hnone, hfull, hwrite⟩ | ⟨hroom, hwrite⟩
  · refine ⟨t', hwrite, h.positive, h.few, h.origin, fun key values hvalues hsub v => ?_⟩
    rw [combine_snoc _ hnew, if_neg, h.all key values hvalues hsub v]
    -- a key with room for all its values is not full while one of them is missing
    rintro hk
    have hkey : (m.1.1, m.1.2.1) = key := by rw [← hk]
    rw [hkey] at hfull
    have hv : v ∈ values := hsub v (.inr (by rw [hk, hm]; simp))
    have hlt : cardinality t' key < values.card := cardinality_lt (fun v' hv' => hsub v' (h.origin _ hv')) hv (hk ▸ hnone)
    exact absurd (hfull.trans_lt hlt) (not_lt.mpr hvalues)
  · refine ⟨_, hwrite, h.positive.upsert hmerge hpos, fun key => ?_, fun k hk => ?_, fun key values hvalues hsub v => ?_⟩
    · rw [cardinality_upsert]
      split
      · rename_i hinsert
        rw [← hinsert.2]
        exact Nat.lt_of_not_le fun hle => hroom ⟨hinsert.1, hle⟩
      · exact h.few key
    · rw [Table.get_upsert] at hk
      split at hk
      · rename_i heq
        exact .inr (by rw [heq, hm]; simp)
      · exact h.origin k hk
    · rw [Table.get_upsert, combine_snoc _ hnew]
      split
      · rename_i hk
        rw [← hk, h.all key values hvalues hsub v]
      · exact h.all key values hvalues hsub v

theorem foldlM_writeValue (h : Positive Seen.count t) (hb : Positive Seen.count b) (hcard : ∀ key, cardinality t key ≤ maxValuesPerKey)
    {rows : List ((String × String × String) × Seen)} (hrows : rows.Perm b.rows) :
    ∃ t', rows.foldlM writeValue t = some t' ∧ Filled t b rows t' := by
  have hunique : (rows.map Prod.fst).Nodup := (hrows.map Prod.fst).nodup_iff.mpr b.unique
  refine foldlM_ends ⟨h, hcard, fun k hk => .inl hk, fun _ _ _ _ _ => rfl⟩ fun before m t' hbefore hfilled => ?_
  have hm : b.get m.1 = some m.2 := Table.get_eq_some.mpr (hrows.mem_iff.mp (hbefore.subset (by simp)))
  exact hfilled.write hm (hb m.1 m.2 hm) (not_mem_before hbefore hunique)

end values

/-! Windows one after another. -/
section windows
variable {ν U : Type} (K : Crates ν U)

/-- A catalogue after windows of events, each collected in a batch that is flushed. -/
inductive Flushed : List (Recorded ν U) → Catalog → Prop
  | start : Flushed [] .empty
  | window {windows : List (Recorded ν U)} {catalog catalog' : Catalog} (h : Flushed windows catalog) (window : Recorded ν U)
      (walks : Walks) (hflush : (collect K window).flushWalking walks catalog = some catalog') : Flushed (windows ++ [window]) catalog'

/-- The catalogued values of a key. -/
def valuesOf (events : Recorded ν U) (key : String × String) : Finset String :=
  (((valueItems K events).filter fun m => (m.1.1, m.1.2.1) = key).map fun m => m.1.2.2).toFinset

/-- The catalogue of some events, but for the values of keys that have too many. -/
structure Catalog.Sums (events : Recorded ν U) (catalog : Catalog) : Prop where
  names : seenRollup.Sums catalog.names (nameItems events)
  keys : typedRollup.Sums catalog.keys (keyItems events)
  positive : Positive Seen.count catalog.values
  few : ∀ key, cardinality catalog.values key ≤ maxValuesPerKey
  origin : ∀ k, catalog.values.get k ≠ none → k ∈ (valueItems K events).map Prod.fst
  values : ∀ key, (valuesOf K events key).card ≤ maxValuesPerKey →
    ∀ v, seenRollup.SumsAt catalog.values (valueItems K events) (key.1, key.2, v)

variable {K} {events window : Recorded ν U} {windows windows' : List (Recorded ν U)} {catalog catalog' : Catalog}

theorem mem_valuesOf {key : String × String} {v : String} :
    v ∈ valuesOf K events key ↔ (key.1, key.2, v) ∈ (valueItems K events).map Prod.fst := by
  simp only [valuesOf, List.mem_toFinset, List.mem_map, List.mem_filter, decide_eq_true_eq]
  constructor
  · rintro ⟨m, ⟨hm, rfl⟩, rfl⟩
    exact ⟨m, hm, rfl⟩
  · rintro ⟨m, hm, heq⟩
    exact ⟨m, ⟨hm, by rw [heq]⟩, by rw [heq]⟩

theorem valueItems_append (events more : Recorded ν U) : valueItems K (events ++ more) = valueItems K events ++ valueItems K more :=
  List.flatMap_append

theorem positive_sums {κ : Type} [DecidableEq κ] {t : Table κ Seen} {items : List (κ × Int)} (h : seenRollup.Sums t items) :
    Positive Seen.count t := by
  intro k row hrow
  obtain ⟨hne, rfl⟩ := (h k).row hrow
  exact List.length_pos_iff.mpr hne

theorem positive_typed {κ : Type} [DecidableEq κ] {t : Table κ (Seen × String)} {items : List (κ × (Int × String))}
    (h : typedRollup.Sums t items) : Positive (·.1.count) t := by
  intro k row hrow
  obtain ⟨hne, rfl⟩ := (h k).row hrow
  change 0 < ((itemsAt items k).map Prod.fst).length
  rw [List.length_map]
  exact List.length_pos_iff.mpr hne

/-- Every window is flushed, and adds its events to the catalogue's. -/
theorem Catalog.Sums.flush (h : catalog.Sums K events) (window : Recorded ν U) (walks : Walks) :
    ∃ catalog', (collect K window).flushWalking walks catalog = some catalog' ∧ catalog'.Sums K (events ++ window) := by
  have hb := collect_sums (K := K) window
  obtain ⟨names, hnames, hnamesAt⟩ : ∃ t', (walks.names.order (collect K window).names.rows).foldlM writeNames catalog.names = some t' ∧ _ :=
    foldlM_writeSeen (positive_sums h.names) (positive_sums hb.names) (fun _ _ hr => Nat.add_pos_left hr _) (walks.names.perm _)
  obtain ⟨keys, hkeys, hkeysAt⟩ : ∃ t', (walks.keys.order (collect K window).keys.rows).foldlM writeKeys catalog.keys = some t' ∧ _ :=
    foldlM_writeSeen (positive_typed h.keys) (positive_typed hb.keys) (fun _ _ hr => Nat.add_pos_left hr _) (walks.keys.perm _)
  obtain ⟨values, hvalues, hfilled⟩ : ∃ t', (sortedValues walks (collect K window)).foldlM writeValue catalog.values = some t' ∧ _ :=
    foldlM_writeValue h.positive (positive_sums hb.values) h.few (sortedValues_perm walks _)
  have hwindow : ∀ k, (collect K window).values.get k ≠ none → k ∈ (valueItems K window).map Prod.fst := by
    intro k hk
    by_contra hnot
    exact hk ((hb.values k).trans (if_pos (itemsAt_eq_nil.mpr hnot)))
  have horigin : ∀ k, catalog.values.get k ≠ none ∨ (collect K window).values.get k ≠ none →
      k ∈ (valueItems K (events ++ window)).map Prod.fst := by
    intro k hk
    rw [valueItems_append, List.map_append]
    exact List.mem_append.mpr (hk.imp (h.origin k) (hwindow k))
  refine ⟨⟨names, keys, values⟩, ?_, ?_⟩
  · simp only [flushWalking_eq, hnames, hkeys, hvalues]
    rfl
  refine ⟨?_, ?_, hfilled.positive, hfilled.few, fun k hk => horigin k (hfilled.origin k hk), fun key hcard v => ?_⟩
  · rw [nameItems, List.map_append]
    exact fun k => (h.names k).merged (hb.names k) (hnamesAt k)
  · rw [keyItems, List.flatMap_append]
    exact fun k => (h.keys k).merged (hb.keys k) (hkeysAt k)
  · have hfew : (valuesOf K events key).card ≤ maxValuesPerKey := by
      refine (Finset.card_le_card fun v' hv' => ?_).trans hcard
      rw [mem_valuesOf] at hv' ⊢
      rw [valueItems_append, List.map_append]
      exact List.mem_append_left _ hv'
    have hget := hfilled.all key _ hcard (fun v' hv' => mem_valuesOf.mpr (horigin _ hv')) v
    rw [lookupRow_perm (sortedValues_perm walks _)] at hget
    rw [valueItems_append]
    exact (h.values key hfew v).merged (hb.values _) hget

theorem Flushed.sums (h : Flushed K windows catalog) : catalog.Sums K windows.flatten := by
  induction h with
  | start =>
    refine ⟨Rollup.sums_empty, Rollup.sums_empty, fun k row hrow => ?_, fun _ => Nat.zero_le _, fun k hk => absurd rfl hk, fun _ _ _ => rfl⟩
    cases hrow
  | window _ window walks hflush ih =>
    obtain ⟨catalog', hflush', hsums⟩ := ih.flush window walks
    rw [hflush] at hflush'
    cases hflush'
    rw [List.flatten_append, List.flatten_singleton]
    exact hsums

/-- Every window is flushed. However the events are cut into windows, names and keys have the same rows; no key ever has
more than its fill of values; and a key with no more values than that has the same rows of them. -/
theorem windows_independent (h : Flushed K windows catalog) (h' : Flushed K windows' catalog') (hsame : windows.flatten = windows'.flatten) :
    (∀ window walks, ∃ next, (collect K window).flushWalking walks catalog = some next) ∧
    catalog.names.get = catalog'.names.get ∧ catalog.keys.get = catalog'.keys.get ∧
    (∀ key, cardinality catalog.values key ≤ maxValuesPerKey) ∧
    ∀ key, (valuesOf K windows.flatten key).card ≤ maxValuesPerKey →
      ∀ v, catalog.values.get (key.1, key.2, v) = catalog'.values.get (key.1, key.2, v) := by
  have hsums := h.sums
  have hsums' := h'.sums
  rw [← hsame] at hsums'
  refine ⟨fun window walks => ?_, ?_, ?_, hsums.few, fun key hcard v => ?_⟩
  · obtain ⟨next, hnext, -⟩ := hsums.flush window walks
    exact ⟨next, hnext⟩
  · funext k
    exact (hsums.names k).agree (hsums'.names k)
  · funext k
    exact (hsums.keys k).agree (hsums'.keys k)
  · exact (hsums.values key hcard v).agree (hsums'.values key hcard v)

def visit : CapturedEvent Int Small.Uuid :=
  ⟨Small.nilUuid, "$pageview", "u", "phc_t", Small.noon, .ofWritten [("page", .string "home")]⟩

/-- Two visits in one window, or in two. -/
theorem visits_independent : ∃ catalog catalog', Flushed Crates.small [[("p", visit)], [("p", visit)]] catalog ∧
    Flushed Crates.small [[("p", visit), ("p", visit)]] catalog' ∧ catalog.names.get = catalog'.names.get ∧
    catalog.values.get ("p", "page", "home") = catalog'.values.get ("p", "page", "home") := by
  have hstart := (Flushed.start (K := Crates.small)).sums
  let walks : Walks := ⟨.asStored, .asStored, .backwards⟩
  obtain ⟨one, hone, hsums⟩ := hstart.flush [("p", visit)] walks
  obtain ⟨two, htwo, -⟩ := hsums.flush [("p", visit)] walks
  obtain ⟨both, hboth, -⟩ := hstart.flush [("p", visit), ("p", visit)] walks
  have h : Flushed Crates.small [[("p", visit)], [("p", visit)]] two := .window (.window .start _ walks hone) _ walks htwo
  have h' : Flushed Crates.small [[("p", visit), ("p", visit)]] both := .window .start _ walks hboth
  obtain ⟨-, hnames, -, -, hvalues⟩ := windows_independent h h' rfl
  exact ⟨two, both, h, h', hnames, hvalues ("p", "page") (by decide +kernel) "home"⟩

end windows
end Hoglet.Projections
