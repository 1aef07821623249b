import Hoglet.Query.Paths.Scan

/-! Every link of the paths has as many persons as its actors, each counted once, joins two nodes, and is found again by its
labels. -/
namespace Hoglet.Query.Paths
open Funnels (Row arrowStreaming streamFrom partitionClause)
variable {q : PathsQuery} {ctx : Ctx}

/-! One person's links. -/
section links

theorem collapse_chain (nodes : List (String × Int)) : (collapse nodes).IsChain fun a b => a.1 ≠ b.1 := by
  rw [collapse]
  induction nodes using List.reverseRecOn with
  | nil => exact .nil
  | append_singleton nodes node ih =>
    rw [List.foldl_append, List.foldl_cons, List.foldl_nil]
    split
    · rename_i hlast
      refine List.isChain_append.mpr ⟨ih, .singleton node, fun a ha b hb => ?_⟩
      obtain rfl : node = b := by simpa using hb
      intro heq
      rw [Option.mem_def.mp ha, Option.map_some, heq] at hlast
      exact hlast rfl
    · exact ih

/-- Cutting a path leaves a stretch of it. -/
theorem stretch_of_cut {nodes path : List (String × Int)} (h : (fromStart q nodes).bind (toEnd q) = some path) : path <:+: nodes := by
  obtain ⟨started, hstart, hend⟩ := Option.bind_eq_some_iff.mp h
  have hsuffix : started <:+ nodes := by
    rw [fromStart] at hstart
    split at hstart
    · cases hstart
      exact List.suffix_rfl
    · obtain ⟨index, -, rfl⟩ := Option.map_eq_some_iff.mp hstart
      exact List.drop_suffix index nodes
  have hstarted : path <+: started := by
    rw [toEnd] at hend
    split at hend
    · cases hend
      exact List.prefix_rfl
    · obtain ⟨index, -, rfl⟩ := Option.map_eq_some_iff.mp hend
      exact List.take_prefix (index + 1) started
  exact hstarted.isInfix.trans hsuffix.isInfix

variable (q) in
/-- The links are those between the neighbours of a path without repeats. -/
theorem exists_path (nodes : List (String × Int)) : ∃ path : List (String × Int), (path.IsChain fun a b => a.1 ≠ b.1) ∧
    path.length ≤ q.stepLimit.toNat ∧
    pathLinks q nodes = (path.zip path.tail).mapIdx fun step pair => ((step, pair.1.1, pair.2.1), pair.2.2 - pair.1.2) := by
  rw [pathLinks]
  cases h : (fromStart q (collapse nodes)).bind (toEnd q) with
  | none => exact ⟨[], .nil, Nat.zero_le _, rfl⟩
  | some path =>
    refine ⟨path.take q.stepLimit.toNat, ?_, List.length_take_le _ _, rfl⟩
    exact List.IsChain.infix (collapse_chain nodes) ((List.take_prefix _ _).isInfix.trans (stretch_of_cut h))

/-- A person has at most one link of a step. -/
theorem pathLinks_nodup (nodes : List (String × Int)) : ((pathLinks q nodes).map Prod.fst).Nodup := by
  obtain ⟨path, -, -, heq⟩ := exists_path q nodes
  have hsteps : ((pathLinks q nodes).map Prod.fst).map Prod.fst = List.range (path.zip path.tail).length := by
    rw [heq]
    apply List.ext_getElem
    · simp
    · intro i _ _
      simp
  exact List.Nodup.of_map Prod.fst (hsteps ▸ List.nodup_range)

/-- A link joins two nodes, at a step within the limit. -/
theorem mem_pathLinks {nodes : List (String × Int)} {link : Key × Int} (h : link ∈ pathLinks q nodes) :
    link.1.2.1 ≠ link.1.2.2 ∧ link.1.1 + 1 < q.stepLimit.toNat := by
  obtain ⟨path, hchain, hlength, heq⟩ := exists_path q nodes
  rw [heq] at h
  obtain ⟨i, hi, rfl⟩ := List.mem_mapIdx.mp h
  rw [List.length_zip, List.length_tail] at hi
  have hnext : i + 1 < path.length := by omega
  refine ⟨?_, by simp only; omega⟩
  simp only [List.getElem_zip, List.getElem_tail]
  exact List.isChain_iff_getElem.mp hchain i hnext

end links

/-! The counts of the links. -/
section counts

/-- The links that are counted, in the order of the persons. -/
def counted (q : PathsQuery) (people : List (String × List (String × Int))) : List (Key × Int) :=
  people.flatMap fun person => pathLinks q person.2

theorem addLink_keys (key : Key) (micros : Int) (links : Links) :
    (addLink key micros links).map Prod.fst = if key ∈ links.map Prod.fst then links.map Prod.fst else links.map Prod.fst ++ [key] := by
  induction links with
  | nil => rfl
  | cons entry links ih =>
    obtain ⟨k, value, total⟩ := entry
    rw [addLink]
    by_cases hk : k = key
    · simp [hk]
    · have hne : key ≠ k := Ne.symm hk
      simp only [if_neg hk, List.map_cons, ih, List.mem_cons, hne, false_or]
      split
      · rfl
      · rfl

/-- The entry of the key is one more, the others are as they were. -/
theorem mem_addLink {key : Key} {micros : Int} {links : Links} (hnodup : (links.map Prod.fst).Nodup) {entry : Key × Nat × Int}
    (h : entry ∈ addLink key micros links) : (entry.1 ≠ key ∧ entry ∈ links) ∨
      (entry.1 = key ∧ ((∃ old ∈ links, old.1 = key ∧ entry.2.1 = old.2.1 + 1) ∨ key ∉ links.map Prod.fst ∧ entry.2.1 = 1)) := by
  induction links with
  | nil =>
    cases List.mem_singleton.mp h
    exact .inr ⟨rfl, .inr ⟨List.not_mem_nil, rfl⟩⟩
  | cons first links ih =>
    obtain ⟨k, value, total⟩ := first
    obtain ⟨hnot, hnodup⟩ := List.nodup_cons.mp hnodup
    rw [addLink] at h
    by_cases hk : k = key
    · rw [if_pos hk] at h
      rcases List.mem_cons.mp h with rfl | h
      · exact .inr ⟨hk, .inl ⟨_, List.mem_cons_self .., hk, rfl⟩⟩
      · refine .inl ⟨?_, List.mem_cons_of_mem _ h⟩
        intro heq
        have hmem : entry.1 ∈ links.map Prod.fst := List.mem_map_of_mem h
        rw [heq, ← hk] at hmem
        exact hnot hmem
    · rw [if_neg hk] at h
      rcases List.mem_cons.mp h with rfl | h
      · exact .inl ⟨hk, List.mem_cons_self ..⟩
      · rcases ih hnodup h with ⟨hne, h⟩ | ⟨heq, ⟨old, hold, hkey, hvalue⟩ | ⟨hnone, hvalue⟩⟩
        · exact .inl ⟨hne, List.mem_cons_of_mem _ h⟩
        · exact .inr ⟨heq, .inl ⟨old, List.mem_cons_of_mem _ hold, hkey, hvalue⟩⟩
        · refine .inr ⟨heq, .inr ⟨?_, hvalue⟩⟩
          rw [List.map_cons, List.mem_cons, not_or]
          exact ⟨Ne.symm hk, hnone⟩

/-- Every link has one entry, with the number of times it was added. -/
theorem foldl_addLink (added : List (Key × Int)) :
    let links := added.foldl (fun links link => addLink link.1 link.2 links) []
    (links.map Prod.fst).Nodup ∧ (∀ key, key ∈ links.map Prod.fst ↔ key ∈ added.map Prod.fst) ∧
      ∀ entry ∈ links, entry.2.1 = (added.map Prod.fst).count entry.1 := by
  induction added using List.reverseRecOn with
  | nil => exact ⟨.nil, fun _ => Iff.rfl, fun _ h => absurd h List.not_mem_nil⟩
  | append_singleton added link ih =>
    obtain ⟨hnodup, hkeys, hcount⟩ := ih
    rw [List.foldl_append, List.foldl_cons, List.foldl_nil, List.map_append, List.map_singleton]
    generalize added.foldl (fun links link => addLink link.1 link.2 links) [] = links at hnodup hkeys hcount
    dsimp only
    rw [addLink_keys]
    refine ⟨?_, fun key => ?_, fun entry hentry => ?_⟩
    · split
      · exact hnodup
      · rename_i hnot
        exact hnodup.append (List.nodup_singleton _) (by simpa using hnot)
    · split
      · rename_i hin
        rw [hkeys, List.mem_append, List.mem_singleton]
        refine (or_iff_left_of_imp ?_).symm
        rintro rfl
        exact (hkeys _).mp hin
      · rw [List.mem_append, List.mem_append, hkeys]
    · rw [List.count_append, List.count_singleton]
      rcases mem_addLink hnodup hentry with ⟨hne, hentry⟩ | ⟨heq, ⟨old, hold, hkey, hvalue⟩ | ⟨hnone, hvalue⟩⟩
      · rw [hcount entry hentry]
        simp [Ne.symm hne]
      · rw [hvalue, hcount old hold, hkey, heq]
        simp
      · rw [hvalue, heq, List.count_eq_zero.mpr fun hin => hnone ((hkeys _).mpr hin)]
        simp

theorem foldl_addPath (people : List (String × List (String × Int))) (links : Links) :
    people.foldl (fun links person => addPath q person.2 links) links =
      (counted q people).foldl (fun links link => addLink link.1 link.2 links) links := by
  rw [counted, List.foldl_flatMap]
  rfl

/-- A link is counted once for every person who has it. -/
theorem count_counted (people : List (String × List (String × Int))) (key : Key) :
    ((counted q people).map Prod.fst).count key = people.countP fun person => key ∈ (pathLinks q person.2).map Prod.fst := by
  induction people with
  | nil => rfl
  | cons person people ih =>
    rw [counted, List.flatMap_cons, List.map_append, List.count_append, List.countP_cons]
    rw [counted] at ih
    rw [ih, Nat.add_comm]
    congr 1
    by_cases h : key ∈ (pathLinks q person.2).map Prod.fst
    · rw [List.count_eq_one_of_mem (pathLinks_nodup person.2) h]
      simp [h]
    · rw [List.count_eq_zero.mpr h]
      simp [h]

end counts

/-! The labels. -/
section labels

theorem toList_label (step : Nat) (name : String) : (label step name).toList = Nat.toDigits 10 step ++ '_' :: name.toList := by
  simp [label]

/-- A label is read back, whatever the name has in it. -/
theorem parseNode_label {step : Nat} (h : step + 1 < 2^64) (name : String) : parseNode (label (step + 1) name) = some (step, name.toList) := by
  have hdigits : ∀ c ∈ Nat.toDigits 10 (step + 1), c.isDigit = true := fun c hc => Nat.isDigit_of_mem_toDigits (by decide) (by decide) hc
  have hplain : ∀ c ∈ Nat.toDigits 10 (step + 1), (decide (c ≠ '_')) = true := by
    intro c hc
    rw [decide_eq_true_eq]
    rintro rfl
    exact Nat.underscore_not_in_toDigits hc
  have htake : (label (step + 1) name).toList.takeWhile (· ≠ '_') = Nat.toDigits 10 (step + 1) := by
    rw [toList_label, List.takeWhile_append_of_pos hplain]
    simp
  have hdrop : ((label (step + 1) name).toList.dropWhile (· ≠ '_')).tail = name.toList := by
    rw [toList_label, List.dropWhile_append_of_pos hplain]
    simp
  have hmem : '_' ∈ (label (step + 1) name).toList := by
    rw [toList_label]
    simp
  have hvalue := Nat.ofDigitChars_ten_toDigits (n := step + 1)
  have hne : Nat.toDigits 10 (step + 1) ≠ [] := Nat.toDigits_ne_nil
  rw [parseNode]
  simp only [htake, hdrop, hmem, if_false, not_true_eq_false]
  generalize Nat.toDigits 10 (step + 1) = digits at hdigits hvalue hne
  split
  · -- no digit is a plus sign
    exact absurd (hdigits '+' (List.mem_cons_self ..)) (by decide)
  · have hall := List.all_eq_true.mpr hdigits
    have hvalid : ¬ (digits = [] ∨ ¬ true = true ∨ 2^64 ≤ step + 1 ∨ step + 1 = 0) := by
      simp only [hne, not_true_eq_false, false_or]
      omega
    rw [hvalue, hall, if_neg hvalid, Nat.add_sub_cancel]

theorem label_inj {step step' : Nat} {name name' : String} (h : step + 1 < 2^64) (h' : step' + 1 < 2^64)
    (heq : label (step + 1) name = label (step' + 1) name') : step = step' ∧ name = name' := by
  have hparse := parseNode_label h name
  rw [heq, parseNode_label h' name', Option.some_inj, Prod.mk.injEq] at hparse
  exact ⟨hparse.1.symm, (String.toList_inj.mp hparse.2).symm⟩

end labels
end Hoglet.Query.Paths
