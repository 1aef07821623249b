import Hoglet.Query.Trends.Compute

/-! What `compute` makes of the rows of an aggregate: the values of each breakdown value, whatever the order of the rows,
and the series it lists. -/
namespace Hoglet.Query.Trends

/-- The rows have the value of each bucket and of the whole range, and leave out nothing but zeros. -/
structure Answer (buckets : List Int) (cell : Int → Option String → Rat) (whole : Option String → Rat) (rows : Masked) : Prop where
  cells : ∀ row ∈ rows.1, row.whole = false → ∃ bucket, row.bucket = some bucket ∧ row.value = some (cell bucket row.breakdown)
  wholes : ∀ row ∈ rows.1, row.whole = true → row.value = some (whole row.breakdown)
  ranges : ∀ row ∈ rows.2, row.2 = some (whole row.1)
  all : ∀ bucket ∈ buckets, ∀ key, cell bucket key ≠ 0 →
    ∃ row ∈ rows.1, row.whole = false ∧ row.bucket = some bucket ∧ row.breakdown = key
  allWhole : ∀ key, whole key ≠ 0 → (∃ row ∈ rows.1, row.whole = true ∧ row.breakdown = key) ∨ ∃ row ∈ rows.2, row.1 = key

/-- The order of the rows is free. -/
theorem Answer.perm {buckets : List Int} {cell : Int → Option String → Rat} {whole : Option String → Rat} {rows rows' : Masked}
    (h : Answer buckets cell whole rows) (h₁ : rows'.1.Perm rows.1) (h₂ : rows'.2.Perm rows.2) : Answer buckets cell whole rows' := by
  constructor
  · exact fun row hr => h.cells row (h₁.mem_iff.mp hr)
  · exact fun row hr => h.wholes row (h₁.mem_iff.mp hr)
  · exact fun row hr => h.ranges row (h₂.mem_iff.mp hr)
  · intro bucket hb key hne
    obtain ⟨row, hr, hrow⟩ := h.all bucket hb key hne
    exact ⟨row, h₁.mem_iff.mpr hr, hrow⟩
  · intro key hne
    rcases h.allWhole key hne with ⟨row, hr, hrow⟩ | ⟨row, hr, hrow⟩
    · exact .inl ⟨row, h₁.mem_iff.mpr hr, hrow⟩
    · exact .inr ⟨row, h₂.mem_iff.mpr hr, hrow⟩

section position
variable {buckets : List Int}

private theorem mem_zipIdx {bucket : Int} {p : Nat} : (bucket, p) ∈ buckets.zipIdx.reverse ↔ buckets[p]? = some bucket := by
  rw [List.mem_reverse, List.mem_zipIdx_iff_getElem?]

theorem position_eq (h : buckets.Nodup) {bucket : Int} {p : Nat} : position buckets bucket = some p ↔ buckets[p]? = some bucket := by
  rw [position, Option.map_eq_some_iff]
  constructor
  · rintro ⟨⟨b, i⟩, hfind, rfl⟩
    have hb : b = bucket := by simpa using List.find?_some hfind
    exact hb ▸ mem_zipIdx.mp (List.mem_of_find?_eq_some hfind)
  · intro hp
    obtain ⟨⟨b, i⟩, hfind⟩ := Option.isSome_iff_exists.mp
      (List.find?_isSome.mpr ⟨(bucket, p), mem_zipIdx.mpr hp, by simp⟩ : (buckets.zipIdx.reverse.find? fun slot => slot.1 = bucket).isSome)
    have hb : b = bucket := by simpa using List.find?_some hfind
    have hi := mem_zipIdx.mp (List.mem_of_find?_eq_some hfind)
    refine ⟨(b, i), hfind, ?_⟩
    have hlt := (List.getElem?_eq_some_iff.mp hp).1
    exact ((List.getElem?_inj hlt h).mp (hp.trans (hb ▸ hi).symm)).symm

/-- Setting the value of one bucket. -/
theorem set_position (h : buckets.Nodup) (f : Int → Rat) (bucket : Int) (v : Rat) :
    ((position buckets bucket).map fun p => (buckets.map f).set p v).getD (buckets.map f) =
      buckets.map fun b => if b = bucket then v else f b := by
  cases hp : position buckets bucket with
  | none =>
    rw [Option.map_none, Option.getD_none]
    apply List.map_congr_left
    intro b hb
    rw [if_neg]
    rintro rfl
    obtain ⟨p, hget⟩ := List.mem_iff_getElem?.mp hb
    rw [(position_eq h).mpr hget] at hp
    cases hp
  | some p =>
    have hget := (position_eq h).mp hp
    rw [Option.map_some, Option.getD_some]
    apply List.ext_getElem?
    intro i
    rw [List.getElem?_set, List.getElem?_map, List.getElem?_map]
    by_cases hi : p = i
    · subst hi
      obtain ⟨hlt, hbucket⟩ := List.getElem?_eq_some_iff.mp hget
      simp [hlt, hbucket]
    · rw [if_neg hi]
      cases hbi : buckets[i]? with
      | none => rfl
      | some b =>
        have hne : b ≠ bucket := by
          rintro rfl
          exact hi ((List.getElem?_inj (List.getElem?_eq_some_iff.mp hget).1 h).mp (hget.trans hbi.symm))
        simp [hne]

end position

section entry
variable (buckets : List Int) (cell : Int → Option String → Rat) (whole : Option String → Rat)

def seen (rows : List Row) (bucket : Int) (key : Option String) : Bool :=
  rows.any fun row => !row.whole && row.bucket = some bucket && row.breakdown = key

def seenWhole (rows : List Row) (key : Option String) : Bool := rows.any fun row => row.whole && row.breakdown = key

/-- The values of one breakdown value, as far as rows have them. -/
def partialEntry (rows : List Row) (key : Option String) : Computed :=
  ⟨key, buckets.map fun bucket => if seen rows bucket key then cell bucket key else 0, if seenWhole rows key then whole key else 0⟩

variable {buckets cell whole}

theorem entry_update (map : ByKey) (key other : Option String) (computed : Computed) :
    ByKey.entry buckets (Function.update map key (some computed)) other = if other = key then computed else map.entry buckets other := by
  rw [ByKey.entry, Function.update_apply]
  split
  · rfl
  · rfl

theorem entry_read (hb : buckets.Nodup) {map : ByKey} {rows : List Row} (hmap : ∀ key, map.entry buckets key = partialEntry buckets cell whole rows key)
    {row : Row} (hcell : row.whole = false → ∃ bucket, row.bucket = some bucket ∧ row.value = some (cell bucket row.breakdown))
    (hwhole : row.whole = true → row.value = some (whole row.breakdown)) (key : Option String) :
    (map.read buckets row).entry buckets key = partialEntry buckets cell whole (rows ++ [row]) key := by
  rw [ByKey.read, entry_update]
  split
  · rename_i hkey
    subst hkey
    cases hw : row.whole with
    | true =>
      rw [hmap, hwhole hw]
      simp [partialEntry, seen, seenWhole, hw]
    | false =>
      obtain ⟨bucket, hbucket, hvalue⟩ := hcell hw
      have hset := set_position hb (fun b => if seen rows b row.breakdown then cell b row.breakdown else 0) bucket (cell bucket row.breakdown)
      have hdata : (buckets.map fun b => if b = bucket then cell bucket row.breakdown else if seen rows b row.breakdown then cell b row.breakdown else 0) =
          buckets.map fun b => if seen (rows ++ [row]) b row.breakdown then cell b row.breakdown else 0 := by
        apply List.map_congr_left
        intro b _
        by_cases hbb : b = bucket
        · simp [seen, hw, hbucket, hbb]
        · simp [seen, hw, hbucket, hbb, Ne.symm hbb]
      rw [hmap, hvalue, hbucket, Option.bind_some, Option.getD_some]
      rw [hdata] at hset
      cases hp : position buckets bucket with
      | none =>
        rw [hp] at hset
        simp only [Option.map_none, Option.getD_none] at hset
        simp [partialEntry, seenWhole, hw, hset]
      | some p =>
        rw [hp] at hset
        simp only [Option.map_some, Option.getD_some] at hset
        simp [partialEntry, seenWhole, hw, hset]
  · rename_i hkey
    have hne : row.breakdown ≠ key := Ne.symm hkey
    rw [hmap]
    simp [partialEntry, seen, seenWhole, hne]

theorem entry_rows (hb : buckets.Nodup) {rows : List Row}
    (hcell : ∀ row ∈ rows, row.whole = false → ∃ bucket, row.bucket = some bucket ∧ row.value = some (cell bucket row.breakdown))
    (hwhole : ∀ row ∈ rows, row.whole = true → row.value = some (whole row.breakdown)) (key : Option String) :
    (rows.foldl (ByKey.read buckets) fun _ => none).entry buckets key = partialEntry buckets cell whole rows key := by
  induction rows using List.reverseRecOn generalizing key with
  | nil =>
    have hzero : (buckets.map fun _ => (0 : Rat)) = List.replicate buckets.length 0 := List.map_const' ..
    simp [ByKey.entry, zeros, partialEntry, seen, seenWhole, hzero]
  | append_singleton rows row ih =>
    rw [List.foldl_append]
    apply entry_read hb
    · exact ih (fun row hr => hcell row (List.mem_append_left _ hr)) fun row hr => hwhole row (List.mem_append_left _ hr)
    · exact hcell row (List.mem_append_right _ (List.mem_singleton_self row))
    · exact hwhole row (List.mem_append_right _ (List.mem_singleton_self row))

theorem entry_ranges (map : ByKey) {rows : List (Option String × Option Rat)} (h : ∀ row ∈ rows, row.2 = some (whole row.1)) (key : Option String) :
    (rows.foldl (ByKey.readWhole buckets) map).entry buckets key =
      if key ∈ rows.map Prod.fst then { map.entry buckets key with aggregated := whole key } else map.entry buckets key := by
  induction rows using List.reverseRecOn generalizing key with
  | nil => simp
  | append_singleton rows row ih =>
    have ih := ih (fun row hr => h row (List.mem_append_left _ hr))
    rw [List.foldl_append, List.foldl_cons, List.foldl_nil, ByKey.readWhole, entry_update,
      h row (List.mem_append_right _ (List.mem_singleton_self row))]
    by_cases hkey : key = row.1
    · subst hkey
      have hmem : row.1 ∈ (rows ++ [row]).map Prod.fst := by simp
      rw [if_pos rfl, if_pos hmem, ih]
      split <;> rfl
    · have hmem : key ∈ (rows ++ [row]).map Prod.fst ↔ key ∈ rows.map Prod.fst := by simp [hkey]
      rw [if_neg hkey, ih]
      simp only [hmem]

/-- The map holds the values that the rows answer. -/
theorem Answer.entry {rows : Masked} (h : Answer buckets cell whole rows) (hb : buckets.Nodup) (key : Option String) :
    (byKey buckets rows).entry buckets key = ⟨key, buckets.map (cell · key), whole key⟩ := by
  have hdata : (buckets.map fun bucket => if seen rows.1 bucket key then cell bucket key else 0) = buckets.map (cell · key) := by
    apply List.map_congr_left
    intro bucket hmem
    by_cases hzero : cell bucket key = 0
    · simp [hzero]
    · obtain ⟨row, hr, hw, hbucket, hkey⟩ := h.all bucket hmem key hzero
      have hseen : seen rows.1 bucket key = true := List.any_eq_true.mpr ⟨row, hr, by simp [hw, hbucket, hkey]⟩
      rw [hseen, if_pos rfl]
  rw [byKey, entry_ranges _ h.ranges, entry_rows hb h.cells h.wholes, partialEntry, hdata]
  split
  · rfl
  · rename_i hrange
    congr 1
    by_cases hzero : whole key = 0
    · simp [hzero]
    · rcases h.allWhole key hzero with ⟨row, hr, hw, hkey⟩ | ⟨row, hr, hkey⟩
      · have hseen : seenWhole rows.1 key = true := List.any_eq_true.mpr ⟨row, hr, by simp [hw, hkey]⟩
        rw [hseen, if_pos rfl]
      · exact absurd (List.mem_map.mpr ⟨row, hr, hkey⟩) hrange

end entry

section listed
open Funnels (breakdownOther)
variable {buckets : List Int}

theorem entry_remove (map : ByKey) (key other : Option String) :
    ByKey.entry buckets (Function.update map key none) other = if other = key then zeros buckets other else map.entry buckets other := by
  rw [ByKey.entry, Function.update_apply]
  split
  · rfl
  · rfl

/-- The series depend on the map by its entries. -/
theorem listed_congr {map map' : ByKey} (h : ∀ key, map.entry buckets key = map'.entry buckets key) (top : Option Top) :
    listed buckets top map = listed buckets top map' := by
  have hlist : ∀ (other : Bool) (values : List String) (map map' : ByKey), (∀ key, map.entry buckets key = map'.entry buckets key) →
      listTop buckets other values map = listTop buckets other values map' := by
    intro other values
    induction values with
    | nil =>
      intro map map' h
      rw [listTop, listTop, h]
    | cons value rest ih =>
      intro map map' h
      rw [listTop, listTop, h]
      congr 1
      apply ih
      intro key
      rw [entry_remove, entry_remove, h]
  cases top with
  | none => simp only [listed, h]
  | some top => exact hlist top.other top.values map map' h

/-- The entry that is left for `$$_other` once the top values are removed. -/
def otherEntry (buckets : List Int) (values : List String) (map : ByKey) : Computed :=
  if breakdownOther ∈ values then zeros buckets (some breakdownOther) else map.entry buckets (some breakdownOther)

theorem mem_listTop {other : Bool} {values : List String} (hv : values.Nodup) {map : ByKey} {computed : Computed} :
    computed ∈ listTop buckets other values map ↔ (∃ value ∈ values, computed = map.entry buckets (some value)) ∨
      computed = otherEntry buckets values map ∧ (other = true ∨ computed.aggregated ≠ 0 ∨ ∃ v ∈ computed.data, v ≠ 0) := by
  induction values generalizing map with
  | nil =>
    rw [listTop, otherEntry, if_neg (List.not_mem_nil)]
    simp only [List.not_mem_nil, false_and, exists_false, false_or]
    split
    · rename_i hshown
      simp only [Bool.or_eq_true, decide_eq_true_eq, List.any_eq_true, or_assoc] at hshown
      rw [List.mem_singleton]
      constructor
      · rintro rfl
        exact ⟨rfl, hshown⟩
      · exact fun h => h.1
    · rename_i hshown
      simp only [Bool.or_eq_true, decide_eq_true_eq, List.any_eq_true, or_assoc] at hshown
      simp only [List.not_mem_nil, false_iff]
      rintro ⟨rfl, h⟩
      exact hshown h
  | cons value rest ih =>
    obtain ⟨hnot, hrest⟩ := List.nodup_cons.mp hv
    have hvalues : (∃ v ∈ rest, computed = ByKey.entry buckets (Function.update map (some value) none) (some v)) ↔
        ∃ v ∈ rest, computed = map.entry buckets (some v) := by
      refine exists_congr fun v => and_congr_right fun hmem => ?_
      have hne : (some v : Option String) ≠ some value := by
        rintro ⟨⟩
        exact hnot hmem
      rw [entry_remove, if_neg hne]
    have hother : otherEntry buckets rest (Function.update map (some value) none) = otherEntry buckets (value :: rest) map := by
      rw [otherEntry, otherEntry, entry_remove]
      by_cases hmem : breakdownOther ∈ rest
      · rw [if_pos hmem, if_pos (List.mem_cons_of_mem _ hmem)]
      · rw [if_neg hmem]
        by_cases hval : breakdownOther = value
        · rw [if_pos (by rw [hval]), if_pos (by simp [hval])]
        · rw [if_neg (by simpa using hval), if_neg (by simp [hval, hmem])]
    rw [listTop, List.mem_cons, ih hrest, hvalues, hother, ← or_assoc]
    simp

end listed
end Hoglet.Query.Trends
