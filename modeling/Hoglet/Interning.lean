import Mathlib.Data.List.Dedup
import Mathlib.Data.List.Nodup
import Mathlib.Tactic

/-! Names numbered in the order they are first met, with numbers of a fixed width, and slots that collect them. -/
namespace Hoglet
variable {κ : Type} [DecidableEq κ]

/-- The number of every name met, and the names in the order of their numbers. -/
structure Interned (κ : Type) where
  numbers : List (κ × Nat)
  names : List κ

namespace Interned
variable {w : Nat} {t : Interned κ}

def empty : Interned κ := ⟨[], []⟩

/-- The number of a name, which a name that is new gets here. -/
def intern (w : Nat) (t : Interned κ) (name : κ) : Nat × Interned κ :=
  match t.numbers.lookup name with
  | some number => (number, t)
  | none => (t.names.length % w, ⟨(name, t.names.length % w) :: t.numbers, t.names ++ [name]⟩)

/-- Numbers are places among the names. -/
structure Numbered (t : Interned κ) : Prop where
  nodup : t.names.Nodup
  number : ∀ name i, t.numbers.lookup name = some i ↔ t.names[i]? = some name

theorem numbered_empty : (empty : Interned κ).Numbered := ⟨.nil, by simp [empty]⟩

theorem Numbered.lookup_none (h : t.Numbered) {name : κ} : t.numbers.lookup name = none ↔ name ∉ t.names := by
  rw [Option.eq_none_iff_forall_not_mem, List.mem_iff_getElem?, not_exists]
  exact forall_congr' fun i => not_congr (h.number name i)

/-- With room for one more name, a name gets its place, and the names before it keep theirs. -/
theorem Numbered.intern (h : t.Numbered) {name : κ} (hroom : name ∉ t.names → t.names.length < w) :
    (t.intern w name).2.Numbered ∧ (t.intern w name).2.names[(t.intern w name).1]? = some name ∧
      t.names <+: (t.intern w name).2.names ∧ ∀ n ∈ (t.intern w name).2.names, n ∈ t.names ∨ n = name := by
  rw [Interned.intern]
  cases hn : t.numbers.lookup name with
  | some number => exact ⟨h, (h.number _ _).mp hn, List.prefix_rfl, fun _ => .inl⟩
  | none =>
    have hnew := h.lookup_none.mp hn
    have hlast : (t.names ++ [name])[t.names.length]? = some name := by simp
    rw [Nat.mod_eq_of_lt (hroom hnew)]
    refine ⟨⟨?_, fun other i => ?_⟩, hlast, List.prefix_append _ _, fun n hmem => by simpa using hmem⟩
    · exact List.nodup_append'.mpr ⟨h.nodup, List.nodup_singleton name, by simpa using hnew⟩
    · rw [List.lookup_cons]
      by_cases heq : other = name
      · subst heq
        rw [beq_self_eq_true, Option.some.injEq]
        constructor
        · rintro rfl
          exact hlast
        · intro hi
          have hnodup : (t.names ++ [other]).Nodup := List.nodup_append'.mpr ⟨h.nodup, List.nodup_singleton other, by simpa using hnew⟩
          exact (List.getElem?_inj (by simp) hnodup).mp (hlast.trans hi.symm)
      · rw [beq_eq_false_iff_ne.mpr heq, h.number]
        rcases lt_trichotomy i t.names.length with hi | rfl | hi
        · rw [List.getElem?_append_left hi]
        · simp [Ne.symm heq]
        · rw [List.getElem?_eq_none hi.le, List.getElem?_eq_none (by simpa using hi)]

/-- A list of numbers stands for the names in another list. -/
structure Stands (names : List κ) (numbers : List Nat) (named : List κ) : Prop where
  met : ∀ name ∈ named, name ∈ names
  mem : ∀ n, n ∈ numbers ↔ ∃ name ∈ named, names[n]? = some name

variable {names names' named named' : List κ} {numbers numbers' : List Nat}

omit [DecidableEq κ]

private theorem getElem?_prefix {n : Nat} {name : κ} (h : names <+: names') (hn : names[n]? = some name) : names'[n]? = some name := by
  obtain ⟨hlt, -⟩ := List.getElem?_eq_some_iff.mp hn
  obtain ⟨more, rfl⟩ := h
  rw [List.getElem?_append_left hlt, hn]

theorem stands_nil (names : List κ) : Stands names [] [] := ⟨by simp, by simp⟩

theorem Stands.extend (h : Stands names numbers named) (hnodup : names'.Nodup) (hpre : names <+: names') : Stands names' numbers named := by
  refine ⟨fun name hn => hpre.subset (h.met name hn), fun n => (h.mem n).trans ?_⟩
  refine exists_congr fun name => and_congr_right fun hname => ?_
  obtain ⟨i, hi⟩ := List.mem_iff_getElem?.mp (h.met name hname)
  have hi' := getElem?_prefix hpre hi
  constructor
  · intro hn
    exact getElem?_prefix hpre hn
  · intro hn
    obtain ⟨hlt, -⟩ := List.getElem?_eq_some_iff.mp hn
    rw [(List.getElem?_inj hlt hnodup).mp (hn.trans hi'.symm)]
    exact hi

/-- One more number, and its name. -/
theorem Stands.add (h : Stands names numbers named) {n : Nat} {name : κ} (hn : names[n]? = some name)
    (hmem : ∀ m, m ∈ numbers' ↔ m ∈ numbers ∨ m = n) (hnodup : names.Nodup) (hnamed : ∀ a, a ∈ named' ↔ a ∈ named ∨ a = name) :
    Stands names numbers' named' := by
  refine ⟨fun a ha => ?_, fun m => ?_⟩
  · rcases (hnamed a).mp ha with ha | rfl
    · exact h.met a ha
    · exact List.mem_of_getElem? hn
  · rw [hmem, h.mem]
    constructor
    · rintro (⟨a, ha, hm⟩ | rfl)
      · exact ⟨a, (hnamed a).mpr (.inl ha), hm⟩
      · exact ⟨name, (hnamed name).mpr (.inr rfl), hn⟩
    · rintro ⟨a, ha, hm⟩
      rcases (hnamed a).mp ha with ha | rfl
      · exact .inl ⟨a, ha, hm⟩
      · obtain ⟨hlt, -⟩ := List.getElem?_eq_some_iff.mp hm
        exact .inr ((List.getElem?_inj hlt hnodup).mp (hm.trans hn.symm))

theorem Stands.congr (h : Stands names numbers named) (hmem : ∀ m, m ∈ numbers' ↔ m ∈ numbers) (hnamed : ∀ a, a ∈ named' ↔ a ∈ named) :
    Stands names numbers' named' :=
  ⟨fun a ha => h.met a ((hnamed a).mp ha), fun m => (hmem m).trans ((h.mem m).trans (exists_congr fun a => and_congr_left fun _ => (hnamed a).symm))⟩

/-- The numbers in two lists are those of the names in both. -/
theorem Stands.inter [DecidableEq κ] (h : Stands names numbers named) (h' : Stands names numbers' named') :
    Stands names (numbers.filter fun n => n ∈ numbers') (named.filter fun name => name ∈ named') := by
  refine ⟨fun a ha => h.met a (List.mem_of_mem_filter ha), fun n => ?_⟩
  simp only [List.mem_filter, decide_eq_true_eq]
  rw [h.mem, h'.mem]
  constructor
  · rintro ⟨⟨a, ha, hn⟩, a', ha', hn'⟩
    rw [hn] at hn'
    cases hn'
    exact ⟨a, ⟨ha, ha'⟩, hn⟩
  · rintro ⟨a, ⟨ha, ha'⟩, hn⟩
    exact ⟨⟨a, ha, hn⟩, a, ha', hn⟩

/-- Numbers without repetition are read back as the names, each once. -/
theorem Stands.decode (h : Stands names numbers named) (hnodup : names.Nodup) (hnumbers : numbers.Nodup) (default : κ) :
    (numbers.map fun n => names.getD n default).Nodup ∧ ∀ a, a ∈ numbers.map (fun n => names.getD n default) ↔ a ∈ named := by
  have hget : ∀ n ∈ numbers, names[n]? = some (names.getD n default) := by
    intro n hn
    obtain ⟨a, -, ha⟩ := (h.mem n).mp hn
    rw [List.getD_eq_getElem?_getD, ha, Option.getD_some]
  constructor
  · refine (List.nodup_map_iff_inj_on hnumbers).mpr fun n hn m hm heq => ?_
    obtain ⟨hlt, -⟩ := List.getElem?_eq_some_iff.mp (hget n hn)
    exact (List.getElem?_inj hlt hnodup).mp ((hget n hn).trans (heq ▸ (hget m hm).symm))
  · intro a
    constructor
    · intro ha
      obtain ⟨n, hn, rfl⟩ := List.mem_map.mp ha
      obtain ⟨b, hb, heq⟩ := (h.mem n).mp hn
      rw [hget n hn] at heq
      cases heq
      exact hb
    · intro ha
      obtain ⟨n, hn⟩ := List.mem_iff_getElem?.mp (h.met a ha)
      have hmem := (h.mem n).mpr ⟨a, ha, hn⟩
      refine List.mem_map.mpr ⟨n, hmem, ?_⟩
      exact Option.some.inj ((hget n hmem).symm.trans hn)

end Interned
end Hoglet
