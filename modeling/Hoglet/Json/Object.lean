import Hoglet.Json.Text
import Mathlib.Data.String.Basic

/-! Maps with text keys as association lists in strictly increasing key order, and the normal form of
a value whose objects are such maps. A later member with the same key replaces an earlier one. -/
namespace Hoglet.Json

section map
variable {α : Type}

/-- The keys are strictly increasing. -/
def Sorted (members : List (String × α)) : Prop := (members.map Prod.fst).Pairwise (· < ·)

instance : DecidablePred (Sorted (α := α)) := fun members =>
  inferInstanceAs (Decidable ((members.map Prod.fst).Pairwise (· < ·)))

def insertKey (k : String) (v : α) : List (String × α) → List (String × α)
  | [] => [(k, v)]
  | m :: ms =>
    if k < m.1 then (k, v) :: m :: ms
    else if k = m.1 then (k, v) :: ms
    else m :: insertKey k v ms

def ofMembers (members : List (String × α)) : List (String × α) :=
  members.foldl (fun acc m => insertKey m.1 m.2 acc) []

def getKey (members : List (String × α)) (k : String) : Option α := members.lookup k

def removeKey (members : List (String × α)) (k : String) : List (String × α) := members.filter (·.1 ≠ k)

theorem mem_insertKey {k : String} {v : α} {ms : List (String × α)} {m : String × α}
    (h : m ∈ insertKey k v ms) : m = (k, v) ∨ m ∈ ms := by
  induction ms with
  | nil => simpa [insertKey] using h
  | cons n ms ih =>
    rw [insertKey] at h
    split at h
    · simpa using h
    split at h
    · rcases List.mem_cons.mp h with h | h
      · exact .inl h
      · exact .inr (List.mem_cons_of_mem _ h)
    · rcases List.mem_cons.mp h with h | h
      · exact .inr (by simp [h])
      · exact (ih h).imp_right (List.mem_cons_of_mem _)

theorem sorted_cons {m : String × α} {ms : List (String × α)} :
    Sorted (m :: ms) ↔ (∀ n ∈ ms, m.1 < n.1) ∧ Sorted ms := by
  simp [Sorted]

theorem sorted_insertKey {k : String} {v : α} {ms : List (String × α)} (h : Sorted ms) :
    Sorted (insertKey k v ms) := by
  induction ms with
  | nil => simp [insertKey, Sorted]
  | cons m ms ih =>
    obtain ⟨hm, hs⟩ := sorted_cons.mp h
    rw [insertKey]
    split
    · rename_i hlt
      refine sorted_cons.mpr ⟨fun n hn => ?_, h⟩
      rcases List.mem_cons.mp hn with rfl | hn
      · exact hlt
      · exact hlt.trans (hm n hn)
    split
    · rename_i heq
      exact sorted_cons.mpr ⟨fun n hn => heq ▸ hm n hn, hs⟩
    · rename_i hlt hne
      refine sorted_cons.mpr ⟨fun n hn => ?_, ih hs⟩
      rcases mem_insertKey hn with rfl | hn
      · exact lt_of_le_of_ne (not_lt.mp hlt) (Ne.symm hne)
      · exact hm n hn

theorem sorted_removeKey {ms : List (String × α)} (k : String) (h : Sorted ms) : Sorted (removeKey ms k) := by
  exact h.sublist (List.filter_sublist.map _)

private theorem insertKey_last {k : String} {v : α} {ms : List (String × α)} (h : ∀ m ∈ ms, m.1 < k) :
    insertKey k v ms = ms ++ [(k, v)] := by
  induction ms with
  | nil => rfl
  | cons m ms ih =>
    have hm := h m (by simp)
    rw [insertKey, if_neg hm.asymm, if_neg hm.ne', ih fun n hn => h n (by simp [hn])]
    rfl

private theorem foldl_insertKey (acc : List (String × α)) {ms : List (String × α)} (h : Sorted (acc ++ ms)) :
    ms.foldl (fun acc m => insertKey m.1 m.2 acc) acc = acc ++ ms := by
  induction ms generalizing acc with
  | nil => simp
  | cons m ms ih =>
    have hlast : ∀ n ∈ acc, n.1 < m.1 := by
      intro n hn
      rw [Sorted, List.map_append] at h
      exact (List.pairwise_append.mp h).2.2 _ (List.mem_map_of_mem hn) _ (by simp)
    rw [List.foldl_cons, insertKey_last hlast, ih _ (by simpa using h)]
    simp

/-- A map already in order is built from its own members. -/
theorem ofMembers_of_sorted {ms : List (String × α)} (h : Sorted ms) : ofMembers ms = ms :=
  foldl_insertKey [] h

theorem mem_ofMembers {ms : List (String × α)} {m : String × α} (h : m ∈ ofMembers ms) : m ∈ ms := by
  suffices ∀ acc : List (String × α), m ∈ ms.foldl (fun acc m => insertKey m.1 m.2 acc) acc → m ∈ acc ∨ m ∈ ms by
    simpa using this [] h
  clear h
  induction ms with
  | nil => simp
  | cons n ms ih =>
    intro acc h
    rcases ih _ h with h | h
    · rcases mem_insertKey h with rfl | h
      · exact .inr (by simp)
      · exact .inl h
    · exact .inr (List.mem_cons_of_mem _ h)

theorem sorted_ofMembers (ms : List (String × α)) : Sorted (ofMembers ms) := by
  suffices ∀ acc : List (String × α), Sorted acc → Sorted (ms.foldl (fun acc m => insertKey m.1 m.2 acc) acc) from
    this [] (by simp [Sorted])
  induction ms with
  | nil => exact fun _ h => h
  | cons n ms ih => exact fun _ h => ih _ (sorted_insertKey h)

theorem mem_of_getKey {ms : List (String × α)} {k : String} {v : α} (h : getKey ms k = some v) : (k, v) ∈ ms := by
  obtain ⟨pre, post, rfl, _⟩ := List.lookup_eq_some_iff.mp h
  simp

theorem getKey_cons (m : String × α) (ms : List (String × α)) (k : String) :
    getKey (m :: ms) k = if k = m.1 then some m.2 else getKey ms k := by
  rw [getKey, getKey, List.lookup_cons]
  by_cases hk : k = m.1
  · simp [hk]
  · simp [hk, beq_eq_false_iff_ne.mpr hk]

theorem getKey_insertKey_ne {ms : List (String × α)} {k k' : String} (v : α) (h : k' ≠ k) : getKey (insertKey k v ms) k' = getKey ms k' := by
  induction ms with
  | nil => rw [insertKey, getKey_cons, if_neg h]
  | cons m ms ih =>
    rw [insertKey]
    split
    · rw [getKey_cons, if_neg h]
    split
    · rename_i heq
      subst heq
      rw [getKey_cons, getKey_cons, if_neg h, if_neg h]
    · rw [getKey_cons, getKey_cons, ih]

theorem getKey_insertKey_self (ms : List (String × α)) (k : String) (v : α) : getKey (insertKey k v ms) k = some v := by
  induction ms with
  | nil => rw [insertKey, getKey_cons, if_pos rfl]
  | cons m ms ih =>
    rw [insertKey]
    split
    · rw [getKey_cons, if_pos rfl]
    split
    · rw [getKey_cons, if_pos rfl]
    · rename_i hne
      rw [getKey_cons, if_neg hne, ih]

theorem mem_iff_getKey {ms : List (String × α)} (h : Sorted ms) {k : String} {v : α} : (k, v) ∈ ms ↔ getKey ms k = some v := by
  refine ⟨fun hm => ?_, mem_of_getKey⟩
  obtain ⟨before, after, rfl⟩ := List.append_of_mem hm
  refine List.lookup_eq_some_iff.mpr ⟨before, after, rfl, fun n hn => bne_iff_ne.mpr fun heq => ?_⟩
  rw [Sorted, List.map_append] at h
  have hlt : n.1 < k := (List.pairwise_append.mp h).2.2 n.1 (List.mem_map_of_mem hn) k (by simp)
  exact absurd heq hlt.ne'

theorem getKey_removeKey_ne {ms : List (String × α)} {k k' : String} (h : k' ≠ k) : getKey (removeKey ms k) k' = getKey ms k' := by
  induction ms with
  | nil => rfl
  | cons m ms ih =>
    rw [removeKey] at ih ⊢
    by_cases hm : m.1 = k
    · rw [List.filter_cons_of_neg (by simp [hm]), ih, getKey_cons, if_neg (hm ▸ h)]
    · rw [List.filter_cons_of_pos (by simp [hm]), getKey_cons, getKey_cons, ih]

end map

section normal
variable {ν : Type}

mutual
/-- Every object of the value is a map in key order. -/
def Normal : Value ν → Prop
  | .array items => NormalItems items
  | .object members => Sorted members ∧ NormalMembers members
  | _ => True
def NormalItems : List (Value ν) → Prop
  | [] => True
  | v :: vs => Normal v ∧ NormalItems vs
def NormalMembers : List (String × Value ν) → Prop
  | [] => True
  | m :: ms => Normal m.2 ∧ NormalMembers ms
end

mutual
/-- The map form of a value as it was written. -/
def normalize : Value ν → Value ν
  | .array items => .array (normalizeItems items)
  | .object members => .object (ofMembers (normalizeMembers members))
  | v => v
def normalizeItems : List (Value ν) → List (Value ν)
  | [] => []
  | v :: vs => normalize v :: normalizeItems vs
def normalizeMembers : List (String × Value ν) → List (String × Value ν)
  | [] => []
  | m :: ms => (m.1, normalize m.2) :: normalizeMembers ms
end

theorem normalMembers_iff (members : List (String × Value ν)) :
    NormalMembers members ↔ ∀ m ∈ members, Normal m.2 := by
  induction members with
  | nil => simp [NormalMembers]
  | cons m ms ih => simp [NormalMembers, ih]

mutual
theorem normal_normalize : (v : Value ν) → Normal (normalize v)
  | .null | .bool _ | .number _ | .string _ => trivial
  | .array items => normalItems_normalize items
  | .object members =>
    ⟨sorted_ofMembers _, (normalMembers_iff _).mpr fun m hm =>
      (normalMembers_iff _).mp (normalMembers_normalize members) m (mem_ofMembers hm)⟩
theorem normalItems_normalize : (items : List (Value ν)) → NormalItems (normalizeItems items)
  | [] => trivial
  | v :: vs => ⟨normal_normalize v, normalItems_normalize vs⟩
theorem normalMembers_normalize : (members : List (String × Value ν)) → NormalMembers (normalizeMembers members)
  | [] => trivial
  | m :: ms => ⟨normal_normalize m.2, normalMembers_normalize ms⟩
end

mutual
theorem normalize_of_normal : (v : Value ν) → Normal v → normalize v = v
  | .null, _ | .bool _, _ | .number _, _ | .string _, _ => rfl
  | .array items, h => by rw [normalize, normalizeItems_of_normal items h]
  | .object members, h => by rw [normalize, normalizeMembers_of_normal members h.2, ofMembers_of_sorted h.1]
theorem normalizeItems_of_normal : (items : List (Value ν)) → NormalItems items → normalizeItems items = items
  | [], _ => rfl
  | v :: vs, h => by rw [normalizeItems, normalize_of_normal v h.1, normalizeItems_of_normal vs h.2]
theorem normalizeMembers_of_normal : (members : List (String × Value ν)) → NormalMembers members →
    normalizeMembers members = members
  | [], _ => rfl
  | m :: ms, h => by rw [normalizeMembers, normalize_of_normal m.2 h.1, normalizeMembers_of_normal ms h.2]
end

mutual
theorem nesting_normalize : (v : Value ν) → nesting (normalize v) ≤ nesting v
  | .null | .bool _ | .number _ | .string _ => Nat.le_refl _
  | .array items => Nat.succ_le_succ (nestingItems_normalize items)
  | .object members => Nat.succ_le_succ <| (nestingMembers_le _).mpr fun m hm =>
      (nestingMembers_le _).mp (nestingMembers_normalize members) m (mem_ofMembers hm)
theorem nestingItems_normalize : (items : List (Value ν)) → nestingItems (normalizeItems items) ≤ nestingItems items
  | [] => Nat.le_refl _
  | v :: vs => max_le_max (nesting_normalize v) (nestingItems_normalize vs)
theorem nestingMembers_normalize : (members : List (String × Value ν)) →
    nestingMembers (normalizeMembers members) ≤ nestingMembers members
  | [] => Nat.le_refl _
  | m :: ms => max_le_max (nesting_normalize m.2) (nestingMembers_normalize ms)
end

/-- A map from text to values, the values in normal form too. -/
@[ext] structure Map (ν : Type) where
  members : List (String × Value ν)
  normal : Normal (.object members)

namespace Map

def empty : Map ν := ⟨[], by simp [Normal, Sorted, NormalMembers]⟩

/-- An object as written, read into a map. -/
def ofWritten (members : List (String × Value ν)) : Map ν :=
  ⟨ofMembers (normalizeMembers members), normal_normalize (.object members)⟩

def get (m : Map ν) (k : String) : Option (Value ν) := getKey m.members k

def contains (m : Map ν) (k : String) : Bool := (m.get k).isSome

def insert (m : Map ν) (k : String) (v : Value ν) : Map ν where
  members := insertKey k (normalize v) m.members
  normal := ⟨sorted_insertKey m.normal.1, (normalMembers_iff _).mpr fun n hn => by
    rcases mem_insertKey hn with rfl | hn
    · exact normal_normalize v
    · exact (normalMembers_iff _).mp m.normal.2 n hn⟩

def remove (m : Map ν) (k : String) : Map ν where
  members := removeKey m.members k
  normal := ⟨sorted_removeKey k m.normal.1, (normalMembers_iff _).mpr fun n hn =>
    (normalMembers_iff _).mp m.normal.2 n (List.mem_of_mem_filter hn)⟩

theorem get_insert_ne (m : Map ν) {k k' : String} (v : Value ν) (h : k' ≠ k) : (m.insert k v).get k' = m.get k' :=
  getKey_insertKey_ne _ h

theorem get_remove_ne (m : Map ν) {k k' : String} (h : k' ≠ k) : (m.remove k).get k' = m.get k' := getKey_removeKey_ne h

theorem get_insert (m : Map ν) (k : String) (v : Value ν) (k' : String) :
    (m.insert k v).get k' = if k' = k then some (normalize v) else m.get k' := by
  split
  · rename_i hk
    rw [hk]
    exact getKey_insertKey_self m.members k (normalize v)
  · rename_i hk
    exact m.get_insert_ne v hk

theorem get_remove (m : Map ν) (k k' : String) : (m.remove k).get k' = if k' = k then none else m.get k' := by
  split
  · rename_i hk
    rw [hk]
    refine List.lookup_eq_none_iff.mpr fun n hn => ?_
    have hne := (List.mem_filter.mp hn).2
    simpa using Ne.symm (by simpa using hne)
  · rename_i hk
    exact m.get_remove_ne hk

/-- Maps are equal when they have the same values. -/
theorem ext_get {m m' : Map ν} (h : ∀ k, m.get k = m'.get k) : m = m' := by
  have hkeys : ∀ n, n ∈ m.members ↔ n ∈ m'.members := fun n => by
    rw [mem_iff_getKey m.normal.1, mem_iff_getKey m'.normal.1]
    exact Eq.congr_left (h n.1)
  have hsorted : ∀ m : Map ν, m.members.Pairwise fun a b => a.1 < b.1 := fun m => List.pairwise_map.mp m.normal.1
  have hasymm : ∀ a b : String × Value ν, a ∈ m.members → b ∈ m'.members → a.1 < b.1 → b.1 < a.1 → a = b :=
    fun a b _ _ hab hba => absurd hba hab.asymm
  refine Map.ext (List.Perm.eq_of_pairwise hasymm (hsorted m) (hsorted m') ((List.perm_ext_iff_of_nodup ?_ ?_).mpr hkeys))
  · exact (hsorted m).imp fun hab heq => absurd (heq ▸ hab) (lt_irrefl _)
  · exact (hsorted m').imp fun hab heq => absurd (heq ▸ hab) (lt_irrefl _)

/-- Reading back what a map is written as gives the map. -/
theorem ofWritten_members (m : Map ν) : ofWritten m.members = m := by
  ext1
  change ofMembers (normalizeMembers m.members) = m.members
  rw [normalizeMembers_of_normal _ m.normal.2, ofMembers_of_sorted m.normal.1]

end Map

def Value.asStr : Value ν → Option String
  | .string s => some s
  | _ => none

def Value.asBool : Value ν → Option Bool
  | .bool b => some b
  | _ => none

end normal
end Hoglet.Json
