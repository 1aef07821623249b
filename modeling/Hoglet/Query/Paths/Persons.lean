import Hoglet.Query.Paths.Links

/-! A scan gives every person once, in `run` and in `actors` alike. -/
namespace Hoglet.Query.Paths
open Funnels (Row OrderBy arrowStreaming arrowStreaming_foldl streamFrom partitionClause)
variable {q : PathsQuery} {ctx : Ctx}

/-! The persons of a scan. -/
section scan

/-- The persons of a partition, with their ordered nodes. -/
def partPeople (ctx : Ctx) (q : PathsQuery) (partition : Nat) : List (String × List (String × Int)) :=
  (runs Row.person (ctx.rows (selects ctx q partition) .person)).map fun run => (run.1, run.2.foldl (push ctx q) [])

/-- The persons of all partitions. -/
def people (ctx : Ctx) (q : PathsQuery) : List (String × List (String × Int)) := (List.range ctx.partitions).flatMap (partPeople ctx q)

theorem scanFrom_ok {σ : Type} {each : σ → String → List (String × Int) → σ} {parts : List Nat} {state result : σ}
    (h : scanFrom ctx q each parts state = .ok result) :
    result = (parts.flatMap (partPeople ctx q)).foldl (fun state person => each state person.1 person.2) state := by
  induction parts generalizing state with
  | nil =>
    cases h
    rfl
  | cons partition parts ih =>
    obtain ⟨s, hs, h⟩ := bind_ok.mp h
    rw [ih h, arrowStreaming_foldl hs, finish_foldl_step, List.flatMap_cons, List.foldl_append, partPeople, List.foldl_map]

/-- Whether a query has too many rows does not depend on what they are for. -/
theorem streamFrom_of_ok {σ τ : Type} {each : σ → List Row → σ} {batches : List (List Row)} {rows : Nat} {state result : σ}
    (h : streamFrom each rows batches state = .ok result) (each' : τ → List Row → τ) (state' : τ) :
    ∃ result', streamFrom each' rows batches state' = .ok result' := by
  induction batches generalizing rows state state' with
  | nil => exact ⟨state', rfl⟩
  | cons batch rest ih =>
    rw [streamFrom] at h ⊢
    split_ifs at h ⊢
    exact ih h (each' state' batch)

theorem scanFrom_of_ok {σ τ : Type} {each : σ → String → List (String × Int) → σ} {parts : List Nat} {state result : σ}
    (h : scanFrom ctx q each parts state = .ok result) (each' : τ → String → List (String × Int) → τ) (state' : τ) :
    ∃ result', scanFrom ctx q each' parts state' = .ok result' := by
  induction parts generalizing state state' with
  | nil => exact ⟨state', rfl⟩
  | cons partition parts ih =>
    obtain ⟨s, hs, h⟩ := bind_ok.mp h
    obtain ⟨s', hs'⟩ := streamFrom_of_ok hs (List.foldl (Stream.step Row.person (fun _ => []) (push ctx q) each')) ⟨state', none⟩
    obtain ⟨result', hresult⟩ := ih h (s'.finish each')
    exact ⟨result', bind_ok.mpr ⟨s', hs', hresult⟩⟩

theorem person_of_mem_partPeople {partition : Nat} {name : String} (h : name ∈ (partPeople ctx q partition).map Prod.fst) :
    ∃ row : Row, row.person = name ∧ partitionClause ctx.hash partition ctx.partitions row = true := by
  have hfst : (partPeople ctx q partition).map Prod.fst = (runs Row.person (ctx.rows (selects ctx q partition) .person)).map Prod.fst := by
    rw [partPeople, List.map_map]
    rfl
  rw [hfst] at h
  obtain ⟨row, hrow, hname⟩ := mem_runs_key.mp h
  have hselects := (List.mem_filter.mp ((ctx.rows_perm _ _).mem_iff.mp hrow)).2
  rw [selects, Bool.and_eq_true, Bool.and_eq_true] at hselects
  exact ⟨row, hname, hselects.1.2⟩

variable (q ctx) in
theorem partPeople_nodup (partition : Nat) : ((partPeople ctx q partition).map Prod.fst).Nodup := by
  have hsorted : (ctx.rows (selects ctx q partition) .person).Pairwise fun a b => id a.person ≤ id b.person := by
    refine (ctx.rows_sorted (selects ctx q partition) .person).imp fun hle => ?_
    rcases hle with hlt | ⟨heq, -⟩
    · exact hlt.le
    · exact heq.le
  rw [partPeople, List.map_map]
  exact runs_nodup hsorted Function.injective_id

variable (q ctx) in
/-- Nobody is in two partitions. -/
theorem people_nodup : ((people ctx q).map Prod.fst).Nodup := by
  rw [people, List.map_flatMap, List.nodup_flatMap]
  refine ⟨fun partition _ => partPeople_nodup q ctx partition, List.nodup_range.imp_of_mem fun {p p'} hp hp' hne => ?_⟩
  rw [List.mem_range] at hp hp'
  intro name hname hname'
  obtain ⟨row, rfl, hclause⟩ := person_of_mem_partPeople hname
  obtain ⟨row', heq, hclause'⟩ := person_of_mem_partPeople hname'
  have htwo : ¬ ctx.partitions ≤ 1 := by omega
  rw [partitionClause, if_neg htwo, decide_eq_true_eq] at hclause hclause'
  rw [heq, hclause] at hclause'
  exact hne hclause'

end scan

/-! The result and the actors. -/
section result
variable {links : List PathLink}

/-- The links before they are sorted and cut. -/
def totals (ctx : Ctx) (q : PathsQuery) : Links := (counted q (people ctx q)).foldl (fun links link => addLink link.1 link.2 links) []

theorem run_ok (h : run ctx q = .ok links) : links = finish q ctx (totals ctx q) := by
  obtain ⟨total, hscan, h⟩ := bind_ok.mp h
  cases h
  have htotal : total = (people ctx q).foldl (fun links person => addPath q person.2 links) [] := scanFrom_ok hscan
  rw [htotal, foldl_addPath, totals]

theorem exists_entry (h : run ctx q = .ok links) {link : PathLink} (hlink : link ∈ links) : ∃ entry ∈ totals ctx q, pathLink entry = link := by
  rw [run_ok h, finish] at hlink
  have hmem := (List.mergeSort_perm _ _).mem_iff.mp (List.mem_of_mem_take hlink)
  obtain ⟨entry, hentry, heq⟩ := List.mem_map.mp hmem
  exact ⟨entry, (ctx.iterate_perm _).mem_iff.mp hentry, heq⟩

/-- A counted link joins two nodes, at a step that its labels can tell. -/
theorem totals_step {entry : Key × Nat × Int} (h : entry ∈ totals ctx q) : entry.1.2.1 ≠ entry.1.2.2 ∧ entry.1.1 + 2 < 2^64 := by
  have hkey := ((foldl_addLink (counted q (people ctx q))).2.1 entry.1).mp (List.mem_map_of_mem h)
  obtain ⟨link, hlink, heq⟩ := List.mem_map.mp hkey
  obtain ⟨person, -, hlink⟩ := List.mem_flatMap.mp hlink
  obtain ⟨hne, hstep⟩ := mem_pathLinks hlink
  rw [heq] at hne hstep
  have hlimit := q.stepLimit.toNat_lt
  exact ⟨hne, by omega⟩

theorem labels_inj {entry entry' : Key × Nat × Int} (h : entry ∈ totals ctx q) (h' : entry' ∈ totals ctx q)
    (heq : (label (entry.1.1 + 1) entry.1.2.1, label (entry.1.1 + 2) entry.1.2.2) =
      (label (entry'.1.1 + 1) entry'.1.2.1, label (entry'.1.1 + 2) entry'.1.2.2)) : entry.1 = entry'.1 := by
  have hstep := (totals_step h).2
  have hstep' := (totals_step h').2
  obtain ⟨hsource, htarget⟩ := Prod.mk.inj heq
  obtain ⟨hs, hfirst⟩ := label_inj (by omega) (by omega) hsource
  obtain ⟨-, hsecond⟩ := label_inj (by omega) (by omega) htarget
  exact Prod.ext hs (Prod.ext hfirst hsecond)

/-- No two of the links have the same labels. -/
theorem labels_nodup (h : run ctx q = .ok links) : (links.map fun link => (link.source, link.target)).Nodup := by
  rw [run_ok h, finish]
  have hkeys : (((ctx.iterate (totals ctx q)).map pathLink).map fun link => (link.source, link.target)).Nodup := by
    rw [List.map_map]
    have hnodup : (totals ctx q).Nodup := List.Nodup.of_map Prod.fst (foldl_addLink (counted q (people ctx q))).1
    refine ((ctx.iterate_perm _).nodup_iff.mpr hnodup).map_on fun entry hentry entry' hentry' heq => ?_
    have hin := (ctx.iterate_perm _).mem_iff.mp hentry
    have hin' := (ctx.iterate_perm _).mem_iff.mp hentry'
    exact List.inj_on_of_nodup_map (foldl_addLink (counted q (people ctx q))).1 hin hin' (labels_inj hin hin' heq)
  have hsorted := ((List.mergeSort_perm ((ctx.iterate (totals ctx q)).map pathLink) linkLe).map fun link => (link.source, link.target)).nodup_iff.mpr hkeys
  exact hsorted.sublist ((List.take_sublist _ _).map _)

private theorem foldl_filter (p : String × List (String × Int) → Bool) (people : List (String × List (String × Int))) (kept : List String) :
    people.foldl (fun kept person => if p person then kept ++ [person.1] else kept) kept = kept ++ (people.filter p).map Prod.fst := by
  induction people generalizing kept with
  | nil => exact (List.append_nil kept).symm
  | cons person people ih =>
    rw [List.foldl_cons, ih, List.filter_cons]
    split
    · rw [List.map_cons, List.append_assoc, List.singleton_append]
    · rfl

/-- The actors of a link are the persons whose links have it. -/
theorem actors_ok (h : run ctx q = .ok links) {entry : Key × Nat × Int} (hentry : entry ∈ totals ctx q) :
    actors ctx q (pathLink entry).source (pathLink entry).target =
      .ok (((people ctx q).filter fun person => entry.1 ∈ (pathLinks q person.2).map Prod.fst).map Prod.fst) := by
  obtain ⟨⟨step, first, second⟩, value⟩ := entry
  have hstep : step + 2 < 2^64 := (totals_step hentry).2
  have hsource : parseNode (label (step + 1) first) = some (step, first.toList) := parseNode_label (by omega) first
  have htarget : parseNode (label (step + 2) second) = some (step + 1, second.toList) := parseNode_label (by omega) second
  obtain ⟨total, hscan, -⟩ := bind_ok.mp h
  rw [actors, pathLink]
  dsimp only
  rw [hsource, htarget]
  simp only [ne_eq, not_true_eq_false, if_false]
  obtain ⟨persons, hpersons⟩ := scanFrom_of_ok hscan (fun kept person nodes =>
    if (pathLinks q nodes).any fun link => link.1.1 = step ∧ link.1.2.1.toList = first.toList ∧ link.1.2.2.toList = second.toList
    then kept ++ [person] else kept) []
  have hfold := scanFrom_ok hpersons
  rw [foldl_filter fun person => (pathLinks q person.2).any fun link =>
    link.1.1 = step ∧ link.1.2.1.toList = first.toList ∧ link.1.2.2.toList = second.toList, List.nil_append] at hfold
  rw [scan, hpersons, hfold]
  congr 2
  refine List.filter_congr fun person _ => ?_
  rw [Bool.eq_iff_iff, List.any_eq_true, decide_eq_true_eq, List.mem_map]
  simp only [decide_eq_true_eq, String.toList_inj, Prod.ext_iff]

/-- A link's value is the number of persons who have it, once each. -/
theorem value_eq {entry : Key × Nat × Int} (h : entry ∈ totals ctx q) :
    entry.2.1 = ((people ctx q).filter fun person => entry.1 ∈ (pathLinks q person.2).map Prod.fst).length := by
  rw [(foldl_addLink (counted q (people ctx q))).2.2 entry h, count_counted, List.countP_eq_length_filter]

/-- The links of an answer: the actors of each are as many as it says. -/
theorem run_links (h : run ctx q = .ok links) : (∀ person ∈ people ctx q, ((pathLinks q person.2).map Prod.fst).Nodup) ∧
    (links.map fun link => (link.source, link.target)).Nodup ∧
    ∀ link ∈ links, (∃ step first second, first ≠ second ∧ link.source = label (step + 1) first ∧ link.target = label (step + 2) second) ∧
      ∃ persons, actors ctx q link.source link.target = .ok persons ∧ persons.Nodup ∧ persons.length = link.value := by
  refine ⟨fun person _ => pathLinks_nodup person.2, labels_nodup h, fun link hlink => ?_⟩
  obtain ⟨entry, hentry, rfl⟩ := exists_entry h hlink
  refine ⟨⟨entry.1.1, entry.1.2.1, entry.1.2.2, (totals_step hentry).1, rfl, rfl⟩, _, actors_ok h hentry, ?_, ?_⟩
  · exact (people_nodup q ctx).sublist (List.filter_sublist.map Prod.fst)
  · rw [List.length_map, ← value_eq hentry]
    rfl

/-- Two persons go from one page to another, whose name starts like a label's. -/
def sampleRows : List Row := [⟨"p", 0, "1", "$pageview", "/b"⟩, ⟨"p", 5, "2", "$pageview", "/1_a"⟩, ⟨"q", 6, "3", "$pageview", "/b"⟩,
  ⟨"q", 7, "4", "$pageview", "/b"⟩, ⟨"q", 9, "5", "$pageview", "/1_a"⟩]

def sampleCtx : Ctx where
  events := sampleRows
  hash name := name.length
  stream condition _ := [sampleRows.filter condition]
  perm condition _ := by rw [List.flatten_singleton]
  sorted condition order := by
    rw [List.flatten_singleton]
    apply List.Pairwise.filter
    have hpersons : "p" < "q" := by decide
    cases order with
    | none => simp [sampleRows, OrderBy.le]
    | hash => simp +decide [sampleRows, OrderBy.le, Funnels.runHash]
    | person => simp only [sampleRows, OrderBy.le, List.pairwise_cons, List.forall_mem_cons, hpersons]; simp
  partitions := 2
  partitions_pos := Nat.two_pos
  funnelGatherBytes := 1000
  funnelMaxTied := 10
  pathname row := some row.properties
  iterate := id
  iterate_perm _ := .refl _

def sampleQuery : PathsQuery where
  pathsType := .pageviews
  startPoint := none
  endPoint := none
  stepLimit := 5
  edgeLimit := 50
  dateRange := ⟨"-7d", none⟩
  filters _ := true

theorem sample_links : ∃ persons, actors sampleCtx sampleQuery "1_/b" "2_/1_a" = .ok persons ∧ persons.Nodup ∧ persons.length = 2 := by
  have hrun : run sampleCtx sampleQuery = .ok [⟨"1_/b", "2_/1_a", 2, 4 / 1000000⟩] := by decide +kernel
  exact ((run_links hrun).2.2 _ (List.mem_singleton_self _)).2

end result
end Hoglet.Query.Paths
