import Hoglet.Query.Funnels.Scans

/-! What the loops of the three scans collect: the rows of each person, in the order the scan delivers them. -/
namespace Hoglet.Query.Funnels
variable {q : FunnelsQuery} {ctx : Ctx} {std : Std}

/-- The rows of a scan by person. -/
def gather (q : FunnelsQuery) (rows : List Row) : List Collected := rows.foldl (fun people row => collect q row people) []

theorem gather_append (rows : List Row) (row : Row) : gather q (rows ++ [row]) = collect q row (gather q rows) := by
  rw [gather, List.foldl_append]
  rfl

private theorem collect_not_mem {row : Row} {people : List Collected} (h : ∀ c ∈ people, c.person ≠ row.person) :
    collect q row people = people ++ [⟨row.person, [q.entry row]⟩] := by
  induction people with
  | nil => rfl
  | cons first rest ih =>
    rw [collect, if_neg (h first (List.mem_cons_self ..)), ih fun c hc => h c (List.mem_cons_of_mem _ hc)]
    rfl

private theorem collect_append {row : Row} {people rest : List Collected} (h : ∀ c ∈ people, c.person ≠ row.person) :
    collect q row (people ++ rest) = people ++ collect q row rest := by
  induction people with
  | nil => rfl
  | cons first people ih =>
    rw [List.cons_append, collect, if_neg (h first (List.mem_cons_self ..)), ih fun c hc => h c (List.mem_cons_of_mem _ hc)]
    rfl

private theorem collect_mem {row : Row} {persons : List String} (hnodup : persons.Nodup) (hmem : row.person ∈ persons)
    (f : String → List Entry) : collect q row (persons.map fun p => ⟨p, f p⟩) =
      persons.map fun p => ⟨p, f p ++ if p = row.person then [q.entry row] else []⟩ := by
  induction persons with
  | nil => cases hmem
  | cons first persons ih =>
    obtain ⟨hnot, hnodup⟩ := List.nodup_cons.mp hnodup
    rw [List.map_cons, collect, List.map_cons]
    split_ifs with heq
    · congr 1
      apply List.map_congr_left
      intro p hp
      rw [if_neg fun h : p = row.person => hnot ((h.trans (show first = row.person from heq).symm) ▸ hp), List.append_nil]
    · rw [ih hnodup ((List.mem_cons.mp hmem).resolve_left (Ne.symm heq)), List.append_nil]

/-- Every person of the rows, with their rows. -/
theorem gather_eq (rows : List Row) : ∃ persons : List String, persons.Nodup ∧ (∀ p, p ∈ persons ↔ ∃ r ∈ rows, r.person = p) ∧
    gather q rows = persons.map fun p => ⟨p, (rows.filter (·.person = p)).map q.entry⟩ := by
  induction rows using List.reverseRecOn with
  | nil => exact ⟨[], List.nodup_nil, fun p => by simp, rfl⟩
  | append_singleton rows row ih =>
    obtain ⟨persons, hnodup, hmem, heq⟩ := ih
    have hentries : ∀ p, ((rows ++ [row]).filter (·.person = p)).map q.entry =
        (rows.filter (·.person = p)).map q.entry ++ if p = row.person then [q.entry row] else [] := fun p => by
      rw [List.filter_append, List.map_append]
      by_cases hp : p = row.person
      · simp [hp]
      · simp [hp, Ne.symm hp]
    by_cases hin : row.person ∈ persons
    · refine ⟨persons, hnodup, fun p => (hmem p).trans ?_, ?_⟩
      · simp only [List.mem_append, List.mem_singleton]
        constructor
        · rintro ⟨r, hr, hp⟩
          exact ⟨r, .inl hr, hp⟩
        · rintro ⟨r, hr | rfl, rfl⟩
          · exact ⟨r, hr, rfl⟩
          · exact (hmem _).mp hin
      · rw [gather_append, heq, collect_mem hnodup hin]
        simp only [hentries]
    · refine ⟨persons ++ [row.person], List.concat_eq_append ▸ hnodup.concat hin, fun p => ?_, ?_⟩
      · simp only [List.mem_append, hmem, List.mem_singleton]
        constructor
        · rintro (⟨r, hr, hp⟩ | rfl)
          · exact ⟨r, .inl hr, hp⟩
          · exact ⟨row, .inr rfl, rfl⟩
        · rintro ⟨r, hr | rfl, rfl⟩
          · exact .inl ⟨r, hr, rfl⟩
          · exact .inr rfl
      · have hnone : rows.filter (fun r => decide (r.person = row.person)) = [] := List.filter_eq_nil_iff.mpr fun r hr hp =>
          hin ((hmem _).mpr ⟨r, hr, of_decide_eq_true hp⟩)
        rw [gather_append, heq, collect_not_mem, List.map_append]
        · congr 1
          · apply List.map_congr_left
            intro p hp
            rw [hentries, if_neg fun h : p = row.person => hin (h ▸ hp), List.append_nil]
          · simp [hnone]
        · intro c hc heq
          obtain ⟨p, hp, rfl⟩ := List.mem_map.mp hc
          exact hin (heq ▸ hp)

theorem person_of_mem_gather {rows : List Row} {c : Collected} (h : c ∈ gather q rows) : ∃ r ∈ rows, r.person = c.person := by
  obtain ⟨persons, -, hmem, heq⟩ := gather_eq (q := q) rows
  rw [heq] at h
  obtain ⟨p, hp, rfl⟩ := List.mem_map.mp h
  exact (hmem p).mp hp

/-! A query's stream. -/

theorem streamFrom_ok {σ : Type} {each : σ → List Row → σ} {batches : List (List Row)} {rows : Nat} {state result : σ}
    (h : streamFrom each rows batches state = .ok result) : result = batches.foldl each state := by
  induction batches generalizing rows state with
  | nil =>
    cases h
    rfl
  | cons batch rest ih =>
    rw [streamFrom] at h
    split_ifs at h
    exact ih h

theorem streamFrom_small {σ : Type} (each : σ → List Row → σ) {batches : List (List Row)} {rows : Nat} (state : σ)
    (h : rows + batches.flatten.length ≤ maxStreamedRows) : streamFrom each rows batches state = .ok (batches.foldl each state) := by
  induction batches generalizing rows state with
  | nil => rfl
  | cons batch rest ih =>
    rw [List.flatten_cons, List.length_append] at h
    rw [streamFrom, if_neg (by omega)]
    exact ih _ (by omega)

/-- What a query delivers, one row after the other. -/
def Ctx.rows (ctx : Ctx) (condition : Row → Bool) (order : OrderBy) : List Row := (ctx.stream condition order).flatten

theorem Ctx.rows_perm (ctx : Ctx) (condition : Row → Bool) (order : OrderBy) :
    (ctx.rows condition order).Perm (ctx.events.filter condition) := ctx.perm condition order

theorem Ctx.rows_sorted (ctx : Ctx) (condition : Row → Bool) (order : OrderBy) :
    (ctx.rows condition order).Pairwise (order.le ctx.hash) := ctx.sorted condition order

theorem arrowStreaming_foldl {σ : Type} {condition : Row → Bool} {order : OrderBy} {f : σ → Row → σ} {state result : σ}
    (h : arrowStreaming ctx condition order (List.foldl f) state = .ok result) : result = (ctx.rows condition order).foldl f state := by
  rw [streamFrom_ok h, Ctx.rows, List.foldl_flatten]

theorem arrowStreaming_small {σ : Type} (h : ctx.events.length ≤ maxStreamedRows) (condition : Row → Bool) (order : OrderBy)
    (each : σ → List Row → σ) (state : σ) : ∃ result, arrowStreaming ctx condition order each state = .ok result := by
  refine ⟨_, streamFrom_small each state ?_⟩
  rw [Nat.zero_add, (ctx.perm condition order).length_eq]
  exact (List.length_filter_le _ _).trans h

/-! The exact path. -/

section ordered

/-- The persons before the current one are settled, and will not come again. -/
private theorem orderedRow_foldl {rows : List Row} (hsorted : rows.Pairwise (OrderBy.person.le ctx.hash)) (outcomes : List PersonOutcome) :
    ∃ settled, gather q rows = settled ++ (rows.foldl (orderedRow q) ⟨outcomes, none⟩).current.toList ∧
      (rows.foldl (orderedRow q) ⟨outcomes, none⟩).outcomes = outcomes ++ settled.filterMap q.outcome ∧
      (∀ c ∈ settled, ∀ last ∈ (rows.foldl (orderedRow q) ⟨outcomes, none⟩).current, c.person < last.person) ∧
      ((rows.foldl (orderedRow q) ⟨outcomes, none⟩).current = none → settled = []) := by
  induction rows using List.reverseRecOn with
  | nil => exact ⟨[], rfl, (List.append_nil _).symm, fun c hc => absurd hc List.not_mem_nil, fun _ => rfl⟩
  | append_singleton rows row ih =>
    obtain ⟨hrows, -, hlast⟩ := List.pairwise_append.mp hsorted
    obtain ⟨settled, hgather, houtcomes, hbefore, hnil⟩ := ih hrows
    rw [List.foldl_append, gather_append]
    generalize rows.foldl (orderedRow q) ⟨outcomes, none⟩ = s at hgather houtcomes hbefore hnil
    have hpersons : ∀ c ∈ gather q rows, c.person ≤ row.person := fun c hc => by
      obtain ⟨r, hr, heq⟩ := person_of_mem_gather hc
      rcases hlast r hr row (List.mem_singleton_self row) with hlt | ⟨hperson, -⟩
      · exact heq ▸ hlt.le
      · exact (heq ▸ hperson).le
    cases hcurrent : s.current with
    | none =>
      obtain rfl := hnil hcurrent
      have hs : orderedRow q s row = ⟨outcomes, some ⟨row.person, [q.entry row]⟩⟩ := by
        simp [orderedRow, Current.finish, hcurrent, houtcomes]
      rw [hgather, hcurrent, List.foldl_cons, List.foldl_nil, hs]
      exact ⟨[], rfl, by simp, fun c hc => absurd hc List.not_mem_nil, fun h => by cases h⟩
    | some c =>
      rw [hcurrent] at hgather hbefore
      have hsettled : ∀ c' ∈ settled, c'.person < c.person := fun c' hc' => hbefore c' hc' c rfl
      have hle : c.person ≤ row.person := hpersons c (by rw [hgather]; simp)
      by_cases heq : c.person = row.person
      · have hs : orderedRow q s row = ⟨s.outcomes, some ⟨c.person, c.entries ++ [q.entry row]⟩⟩ := by
          simp [orderedRow, hcurrent, heq]
        rw [hgather, List.foldl_cons, List.foldl_nil, hs, collect_append fun c' hc' => heq ▸ (hsettled c' hc').ne]
        refine ⟨settled, ?_, houtcomes, fun c' hc' last hlast => ?_, fun h => by cases h⟩
        · simp [collect, heq]
        · cases hlast
          exact hsettled c' hc'
      · have hlt := lt_of_le_of_ne hle heq
        have hs : orderedRow q s row = ⟨s.outcomes ++ (q.outcome c).toList, some ⟨row.person, [q.entry row]⟩⟩ := by
          simp [orderedRow, Current.finish, hcurrent, heq]
        have hless : ∀ c' ∈ settled ++ [c], c'.person < row.person := fun c' hc' => by
          rcases List.mem_append.mp hc' with hc' | hc'
          · exact (hsettled c' hc').trans hlt
          · exact List.mem_singleton.mp hc' ▸ hlt
        rw [hgather, List.foldl_cons, List.foldl_nil, hs, Option.toList_some, collect_not_mem fun c' hc' => (hless c' hc').ne]
        refine ⟨settled ++ [c], rfl, ?_, fun c' hc' last hlast => ?_, fun h => by cases h⟩
        · rw [houtcomes, List.filterMap_append, List.append_assoc]
          cases hout : q.outcome c <;> simp [hout]
        · cases hlast
          exact hless c' hc'

theorem orderedRow_finish {rows : List Row} (hsorted : rows.Pairwise (OrderBy.person.le ctx.hash)) (outcomes : List PersonOutcome) :
    ((rows.foldl (orderedRow q) ⟨outcomes, none⟩).finish q).outcomes = outcomes ++ (gather q rows).filterMap q.outcome := by
  obtain ⟨settled, hgather, houtcomes, -, -⟩ := orderedRow_foldl hsorted outcomes
  rw [Current.finish, hgather, houtcomes, List.filterMap_append, List.append_assoc]
  cases (rows.foldl (orderedRow q) ⟨outcomes, none⟩).current with
  | none => rfl
  | some c => cases hout : q.outcome c <;> simp [hout]

/-- What a partition's query selects. -/
def partCondition (q : FunnelsQuery) (ctx : Ctx) (only : Row → Bool) (partitions partition : Nat) (row : Row) : Bool :=
  partitionClause ctx.hash partition partitions row && only row && q.kept row

theorem orderedPartitions_ok {only : Row → Bool} {partitions : Nat} {parts : List Nat} {outcomes result : List PersonOutcome}
    (h : orderedPartitions q ctx only partitions parts outcomes = .ok result) : result = outcomes ++
      (parts.flatMap fun k => gather q (ctx.rows (partCondition q ctx only partitions k) .person)).filterMap q.outcome := by
  induction parts generalizing outcomes with
  | nil =>
    cases h
    exact (List.append_nil _).symm
  | cons k parts ih =>
    obtain ⟨s, hs, h⟩ := bind_ok.mp h
    rw [ih h, arrowStreaming_foldl hs, orderedRow_finish (ctx.rows_sorted _ _), List.flatMap_cons, List.filterMap_append,
      List.append_assoc]
    rfl

theorem orderedPartitions_small (h : ctx.events.length ≤ maxStreamedRows) (only : Row → Bool) (partitions : Nat) (parts : List Nat)
    (outcomes : List PersonOutcome) : ∃ result, orderedPartitions q ctx only partitions parts outcomes = .ok result := by
  induction parts generalizing outcomes with
  | nil => exact ⟨outcomes, rfl⟩
  | cons k parts ih =>
    obtain ⟨s, hs⟩ := arrowStreaming_small h (partCondition q ctx only partitions k) .person (List.foldl (orderedRow q)) ⟨outcomes, none⟩
    obtain ⟨result, hresult⟩ := ih (s.finish q).outcomes
    exact ⟨result, bind_ok.mpr ⟨s, hs, hresult⟩⟩

end ordered

/-! The path by hash. -/
section hashed

theorem settleRun_append (people rest : List Collected) (settled : Settled) (overflow : Bool) :
    settleRun q ctx (people ++ rest) settled overflow =
      settleRun q ctx rest (settleRun q ctx people settled overflow).1 (settleRun q ctx people settled overflow).2 := by
  induction people generalizing settled overflow with
  | nil => rfl
  | cons c people ih =>
    rw [List.cons_append, settleRun, settleRun]
    split_ifs <;> exact ih _ _

/-- The runs before the last one are settled, and their persons will not come again. -/
private theorem hashRow_foldl {rows : List Row} (hsorted : rows.Pairwise (OrderBy.hash.le ctx.hash)) (settled : Settled)
    (overflow : Bool) : ∃ before, gather q rows = before ++ (rows.foldl (hashRow q ctx) ⟨settled, overflow, none, []⟩).run ∧
      settleRun q ctx before settled overflow = ((rows.foldl (hashRow q ctx) ⟨settled, overflow, none, []⟩).settled,
        (rows.foldl (hashRow q ctx) ⟨settled, overflow, none, []⟩).overflow) ∧
      match (rows.foldl (hashRow q ctx) ⟨settled, overflow, none, []⟩).runHash with
      | none => rows = []
      | some h => (∀ c ∈ before, ctx.hash c.person >>> 1 < h) ∧ (∀ r ∈ rows, runHash ctx.hash r ≤ h) ∧ ∃ r ∈ rows, runHash ctx.hash r = h := by
  induction rows using List.reverseRecOn with
  | nil => exact ⟨[], rfl, rfl, rfl⟩
  | append_singleton rows row ih =>
    obtain ⟨hrows, -, hlast⟩ := List.pairwise_append.mp hsorted
    obtain ⟨before, hgather, hsettled, hhash⟩ := ih hrows
    rw [List.foldl_append, gather_append]
    generalize rows.foldl (hashRow q ctx) ⟨settled, overflow, none, []⟩ = s at hgather hsettled hhash
    rw [List.foldl_cons, List.foldl_nil]
    have hle : ∀ r ∈ rows, runHash ctx.hash r ≤ runHash ctx.hash row := fun r hr => by
      rcases hlast r hr row (List.mem_singleton_self row) with hlt | ⟨heq, -⟩
      · exact hlt.le
      · exact heq.le
    have hall : ∀ r ∈ rows ++ [row], runHash ctx.hash r ≤ runHash ctx.hash row := fun r hr => by
      rcases List.mem_append.mp hr with hr | hr
      · exact hle r hr
      · rw [List.mem_singleton.mp hr]
    by_cases hsame : s.runHash = some (runHash ctx.hash row)
    · have hs : hashRow q ctx s row = { s with run := collect q row s.run } := by rw [hashRow, if_neg (not_not.mpr hsame)]
      rw [hsame] at hhash
      rw [hs, hgather, collect_append fun c hc heq => absurd (hhash.1 c hc) (by rw [heq, runHash]; exact lt_irrefl _)]
      refine ⟨before, rfl, hsettled, ?_⟩
      dsimp only
      rw [hsame]
      exact ⟨hhash.1, hall, row, by simp, rfl⟩
    · have hs : hashRow q ctx s row = { s.finish q ctx with runHash := some (runHash ctx.hash row), run := [⟨row.person, [q.entry row]⟩] } := by
        rw [hashRow, if_pos hsame]
        rfl
      have hless : ∀ c ∈ before ++ s.run, ctx.hash c.person >>> 1 < runHash ctx.hash row := by
        intro c hc
        rw [← hgather] at hc
        obtain ⟨r, hr, hperson⟩ := person_of_mem_gather hc
        cases hrun : s.runHash with
        | none =>
          rw [hrun] at hhash
          exact absurd hr (hhash ▸ List.not_mem_nil)
        | some h =>
          rw [hrun] at hhash hsame
          obtain ⟨-, hmax, last, hlast, rfl⟩ := hhash
          rw [← hperson]
          exact (hmax r hr).trans_lt (lt_of_le_of_ne (hle last hlast) fun heq => hsame (congrArg some heq))
      rw [hs, hgather, collect_not_mem fun c hc heq => absurd (hless c hc) (by rw [heq, runHash]; exact lt_irrefl _)]
      refine ⟨before ++ s.run, rfl, ?_, hless, hall, row, by simp, rfl⟩
      rw [settleRun_append, hsettled]
      rfl

theorem hashRow_finish {rows : List Row} (hsorted : rows.Pairwise (OrderBy.hash.le ctx.hash)) (settled : Settled) (overflow : Bool) :
    settleRun q ctx (gather q rows) settled overflow =
      (((rows.foldl (hashRow q ctx) ⟨settled, overflow, none, []⟩).finish q ctx).settled,
        ((rows.foldl (hashRow q ctx) ⟨settled, overflow, none, []⟩).finish q ctx).overflow) := by
  obtain ⟨before, hgather, hsettled, -⟩ := hashRow_foldl hsorted settled overflow
  rw [hgather, settleRun_append, hsettled]
  rfl

theorem hashPartitions_ok {parts : List Nat} {settled result : Settled} {overflow : Bool}
    (h : hashPartitions q ctx parts settled overflow = .ok (some result)) (hover : parts = [] → overflow = false) :
    settleRun q ctx (parts.flatMap fun k => gather q (ctx.rows (partCondition q ctx (fun _ => true) ctx.partitions k) .hash)) settled
      overflow = (result, false) := by
  induction parts generalizing settled overflow with
  | nil =>
    cases h
    rw [hover rfl]
    rfl
  | cons k parts ih =>
    obtain ⟨s, hs, h⟩ := bind_ok.mp h
    have hcondition : partCondition q ctx (fun _ => true) ctx.partitions k =
        fun row => partitionClause ctx.hash k ctx.partitions row && q.kept row := by
      funext row
      rw [partCondition, Bool.and_true]
    dsimp only at h
    split_ifs at h with hoverflow
    · cases h
    rw [List.flatMap_cons, settleRun_append, hcondition, hashRow_finish (ctx.rows_sorted _ _), ← arrowStreaming_foldl hs]
    exact ih h fun _ => by simpa using hoverflow

theorem hashPartitions_small (h : ctx.events.length ≤ maxStreamedRows) (parts : List Nat) (settled : Settled) (overflow : Bool) :
    ∃ result, hashPartitions q ctx parts settled overflow = .ok result := by
  induction parts generalizing settled overflow with
  | nil => exact ⟨some settled, rfl⟩
  | cons k parts ih =>
    obtain ⟨s, hs⟩ := arrowStreaming_small h (fun row => partitionClause ctx.hash k ctx.partitions row && q.kept row) .hash
      (List.foldl (hashRow q ctx)) ⟨settled, overflow, none, []⟩
    rw [hashPartitions, hs]
    by_cases hoverflow : (s.finish q ctx).overflow = true
    · exact ⟨none, if_pos hoverflow⟩
    · obtain ⟨result, hresult⟩ := ih (s.finish q ctx).settled (s.finish q ctx).overflow
      exact ⟨result, (if_neg hoverflow).trans hresult⟩

/-- Where nothing overflows, the persons whose ties matter are put off, and the others are settled. -/
theorem settleRun_ok {people : List Collected} {settled result : Settled} {overflow : Bool}
    (h : settleRun q ctx people settled overflow = (result, false)) :
    result.outcomes = settled.outcomes ++ (people.filter fun c => !q.tieMatters c.entries).filterMap q.outcome ∧
      result.tied = settled.tied ++ (people.filter fun c => q.tieMatters c.entries).map Collected.person := by
  have hstuck : ∀ (people : List Collected) (settled : Settled), (settleRun q ctx people settled true).2 = true := by
    intro people
    induction people with
    | nil => exact fun _ => rfl
    | cons c people ih =>
      intro settled
      rw [settleRun]
      split_ifs <;> exact ih _
  induction people generalizing settled overflow with
  | nil =>
    cases h
    exact ⟨(List.append_nil _).symm, (List.append_nil _).symm⟩
  | cons c people ih =>
    rw [settleRun] at h
    split_ifs at h with htie hfull
    · have hover := hstuck people settled
      rw [h] at hover
      cases hover
    · obtain ⟨houtcomes, htied⟩ := ih h
      simpa [htie] using And.intro houtcomes htied
    · obtain ⟨houtcomes, htied⟩ := ih h
      cases hout : q.outcome c <;> simpa [htie, hout] using And.intro houtcomes htied

end hashed

/-! The gathering path. -/
section gathered

private theorem gatherBatch_foldl (q : FunnelsQuery) (ctx : Ctx) (batches : List (List Row)) :
    (batches.foldl (gatherBatch q ctx) ⟨[], 0, false⟩).overBudget = true ∨
      (batches.foldl (gatherBatch q ctx) ⟨[], 0, false⟩).people = gather q batches.flatten := by
  induction batches using List.reverseRecOn with
  | nil => exact .inr rfl
  | append_singleton batches batch ih =>
    rw [List.foldl_append, List.foldl_cons, List.foldl_nil]
    generalize batches.foldl (gatherBatch q ctx) ⟨[], 0, false⟩ = s at ih
    rw [gatherBatch]
    by_cases hover : s.overBudget = true
    · rw [if_pos hover]
      exact .inl hover
    · rw [if_neg hover]
      dsimp only
      split_ifs with hbytes
      · exact .inl rfl
      · right
        have hpeople : ∀ (rows : List Row) (s : Gathered),
            (rows.foldl (gatherRow q) s).people = rows.foldl (fun people row => collect q row people) s.people := by
          intro rows
          induction rows with
          | nil => exact fun _ => rfl
          | cons row rows ih => exact fun s => ih (gatherRow q s row)
        rw [hpeople, ih.resolve_left hover, List.flatten_append, gather, gather, List.foldl_append, List.flatten_singleton]

/-- What the gathering path settles in the end: every person in the order of the map, their events sorted by time. -/
def sortedPeople (q : FunnelsQuery) (ctx : Ctx) (std : Std) (partition : Nat) : List Collected :=
  (std.drain (gather q (ctx.rows (partCondition q ctx (fun _ => true) ctx.partitions partition) .none))).map fun c =>
    ⟨c.person, sortByTime q std c.entries⟩

theorem settleGathered_ok {people : List Collected} {settled result : Settled}
    (h : settleGathered q ctx std people settled = some result) :
    settleRun q ctx (people.map fun c => ⟨c.person, sortByTime q std c.entries⟩) settled false = (result, false) := by
  induction people generalizing settled with
  | nil =>
    cases h
    rfl
  | cons c people ih =>
    rw [settleGathered] at h
    rw [List.map_cons, settleRun]
    dsimp only at h ⊢
    split_ifs at h ⊢
    · exact ih h
    · exact ih h

theorem gatheredPartitions_ok {parts : List Nat} {settled result : Settled}
    (h : gatheredPartitions q ctx std parts settled = .ok (some result)) :
    settleRun q ctx (parts.flatMap (sortedPeople q ctx std)) settled false = (result, false) := by
  induction parts generalizing settled with
  | nil =>
    cases h
    rfl
  | cons k parts ih =>
    obtain ⟨s, hs, h⟩ := bind_ok.mp h
    have hcondition : partCondition q ctx (fun _ => true) ctx.partitions k =
        fun row => partitionClause ctx.hash k ctx.partitions row && q.kept row := by
      funext row
      rw [partCondition, Bool.and_true]
    split_ifs at h with hover
    · cases h
    have hpeople : s.people = gather q (ctx.rows (partCondition q ctx (fun _ => true) ctx.partitions k) .none) := by
      rw [hcondition]
      have hfold := gatherBatch_foldl q ctx
        (ctx.stream (fun row => partitionClause ctx.hash k ctx.partitions row && q.kept row) .none)
      rw [← streamFrom_ok hs] at hfold
      exact hfold.resolve_left hover
    cases hsettle : settleGathered q ctx std (std.drain s.people) settled with
    | none =>
      rw [hsettle] at h
      cases h
    | some next =>
      rw [hsettle] at h
      rw [List.flatMap_cons, settleRun_append, sortedPeople, ← hpeople, settleGathered_ok hsettle]
      exact ih h

theorem gatheredPartitions_small (std : Std) (h : ctx.events.length ≤ maxStreamedRows) (parts : List Nat) (settled : Settled) :
    ∃ result, gatheredPartitions q ctx std parts settled = .ok result := by
  induction parts generalizing settled with
  | nil => exact ⟨some settled, rfl⟩
  | cons k parts ih =>
    obtain ⟨s, hs⟩ := arrowStreaming_small h (fun row => partitionClause ctx.hash k ctx.partitions row && q.kept row) .none
      (gatherBatch q ctx) ⟨[], 0, false⟩
    rw [gatheredPartitions, hs]
    by_cases hover : s.overBudget = true
    · exact ⟨none, if_pos hover⟩
    · cases hsettle : settleGathered q ctx std (std.drain s.people) settled with
      | none => exact ⟨none, (if_neg hover).trans (by rw [hsettle]; rfl)⟩
      | some next =>
        obtain ⟨result, hresult⟩ := ih next
        exact ⟨result, (if_neg hover).trans (by rw [hsettle]; exact hresult)⟩

end gathered
end Hoglet.Query.Funnels
