import Hoglet.Query.Lifecycle.Classify

/-! Every number of a lifecycle is that of its actors, each active person is counted once, and what a bucket keeps or loses is
what was active in the one before it. -/
namespace Hoglet.Query.Lifecycle
open Capture
open Funnels (maxStreamedRows)
open Trends (Event bucketExpr)
variable {C : Chrono} {ctx : Ctx} {q : LifecycleQuery} {plan : Period}

/-! One person's turn. -/
section turn
variable (keep : Option (LifecycleStatus × Nat)) (person : String)

/-- One more in the slot of a status, if there is one. -/
def bump (status : Option LifecycleStatus) (slots : List Nat) : List Nat :=
  match status with
  | none => slots
  | some status => slots.modify status.slot (· + 1)

/-- A status in one bucket. -/
def mark (s : Classified) (k : Nat) (status : Option LifecycleStatus) : Classified :=
  match status with
  | none => s
  | some status =>
    ⟨s.counts.modify k fun slots => slots.modify status.slot (· + 1), if keep = some (status, k) then s.kept ++ [person] else s.kept⟩

/-- A person's status in the bucket of an index. -/
def statusAt (C : Chrono) (plan : Period) (activity : Activity) (k : Nat) : Option LifecycleStatus :=
  plan.buckets[k]?.bind (status C plan activity k)

variable {keep person}

private theorem bump_none : bump none = id := rfl

private theorem getElem?_mark (s : Classified) (k i : Nat) (status : Option LifecycleStatus) :
    (mark keep person s k status).counts[i]? = if k = i then s.counts[i]?.map (bump status) else s.counts[i]? := by
  cases status with
  | none => rw [mark, bump_none, Option.map_id, id_eq, ite_self]
  | some status =>
    rw [mark, List.getElem?_modify]
    by_cases hk : k = i
    · simp only [if_pos hk]
      rfl
    · simp [if_neg hk]

private theorem mark_kept (s : Classified) (k : Nat) (status : Option LifecycleStatus) :
    (mark keep person s k status).kept = s.kept ++ if keep.any fun cell => cell.2 = k ∧ status = some cell.1 then [person] else [] := by
  cases status with
  | none => cases keep <;> simp [mark]
  | some status =>
    cases keep with
    | none => simp [mark]
    | some cell =>
      by_cases h : cell = (status, k)
      · simp [mark, h]
      · have hne : ¬ (cell.2 = k ∧ some status = some cell.1) := fun heq => h (Prod.ext (Option.some.inj heq.2).symm heq.1)
        rw [mark, Option.any_some, decide_eq_false hne, if_neg (by simpa using h)]
        simp

private theorem foldl_mark (f : Nat → Int → Option LifecycleStatus) (buckets : List Int) (s : Classified) :
    let r := buckets.zipIdx.foldl (fun s slot => mark keep person s slot.2 (f slot.2 slot.1)) s
    (∀ i, r.counts[i]? = s.counts[i]?.map (bump (buckets[i]?.bind (f i)))) ∧
      r.kept = s.kept ++ if keep.any fun cell => buckets[cell.2]?.bind (f cell.2) = some cell.1 then [person] else [] := by
  induction buckets using List.reverseRecOn with
  | nil =>
    refine ⟨fun i => ?_, ?_⟩
    · simp [bump_none]
    · simp
  | append_singleton buckets start ih =>
    obtain ⟨hcounts, hkept⟩ := ih
    rw [List.zipIdx_append, List.foldl_append]
    generalize buckets.zipIdx.foldl (fun s slot => mark keep person s slot.2 (f slot.2 slot.1)) s = r at hcounts hkept
    simp only [List.zipIdx_singleton, List.foldl_cons, List.foldl_nil, Nat.zero_add]
    -- the last bucket is the only one whose counts and cell change
    have hold : ∀ i, i ≠ buckets.length → (buckets ++ [start])[i]? = buckets[i]? := fun i hi => by
      rcases Nat.lt_or_gt_of_ne hi with hlt | hgt
      · exact List.getElem?_append_left hlt
      · rw [List.getElem?_eq_none (by simp; omega), List.getElem?_eq_none (by omega)]
    have hlast : (buckets ++ [start])[buckets.length]? = some start := by simp
    have hpast : buckets[buckets.length]? = none := by simp
    refine ⟨fun i => ?_, ?_⟩
    · rw [getElem?_mark, hcounts]
      split
      · rename_i hi
        subst hi
        rw [hlast, hpast, Option.bind_none, bump_none, Option.map_id, id_eq, Option.bind_some]
      · rename_i hi
        rw [hold i (Ne.symm hi)]
    · rw [mark_kept, hkept, List.append_assoc]
      congr 1
      cases keep with
      | none => rfl
      | some cell =>
        simp only [Option.any_some, decide_eq_true_eq]
        by_cases hcell : cell.2 = buckets.length
        · rw [hcell, hlast, hpast]
          simp
        · rw [hold _ hcell]
          simp [hcell]

variable (C plan keep person) in
/-- A person's turn adds one to the slot of the status in each bucket, and the person to the cell if it is theirs. -/
theorem finish_spec (s : Classified) (activity : Activity) :
    (∀ k, (finish C plan keep s person activity).counts[k]? = s.counts[k]?.map (bump (statusAt C plan activity k))) ∧
      (finish C plan keep s person activity).kept =
        s.kept ++ if keep.any fun cell => statusAt C plan activity cell.2 = some cell.1 then [person] else [] := by
  have heq : finish C plan keep s person activity =
      plan.buckets.zipIdx.foldl (fun s slot => mark keep person s slot.2 (status C plan activity slot.2 slot.1)) s := by
    rw [finish]
    congr 1
  rw [heq]
  exact foldl_mark (status C plan activity) plan.buckets s

end turn

/-! Everybody's turns. -/
section turns
variable {keep : Option (LifecycleStatus × Nat)}

/-- How many persons have each status in a bucket. -/
def tally (C : Chrono) (plan : Period) (people : List (String × Activity)) (k : Nat) : List Nat :=
  [LifecycleStatus.new, .returning, .resurrecting, .dormant].map fun status =>
    people.countP fun person => statusAt C plan person.2 k = some status

private theorem bump_tally (people : List (String × Activity)) (person : String × Activity) (k : Nat) :
    bump (statusAt C plan person.2 k) (tally C plan people k) = tally C plan (people ++ [person]) k := by
  simp only [tally, List.countP_append, List.countP_singleton]
  cases statusAt C plan person.2 k with
  | none => simp [bump]
  | some status => cases status <;> simp [bump, LifecycleStatus.slot]

variable (C plan keep) in
/-- What the turns of some people make: counts of each bucket, and the people of the cell. -/
theorem foldl_finish (people : List (String × Activity)) :
    let r := people.foldl (fun s person => finish C plan keep s person.1 person.2) ⟨plan.buckets.map fun _ => [0, 0, 0, 0], []⟩
    (∀ k, r.counts[k]? = plan.buckets[k]?.map fun _ => tally C plan people k) ∧
      r.kept = (people.filter fun person => keep.any fun cell => statusAt C plan person.2 cell.2 = some cell.1).map Prod.fst := by
  induction people using List.reverseRecOn with
  | nil =>
    refine ⟨fun k => ?_, rfl⟩
    rw [List.foldl_nil, List.getElem?_map]
    rfl
  | append_singleton people person ih =>
    obtain ⟨hcounts, hkept⟩ := ih
    rw [List.foldl_append, List.foldl_cons, List.foldl_nil]
    generalize people.foldl _ _ = r at hcounts hkept
    obtain ⟨hcounts', hkept'⟩ := finish_spec C plan keep person.1 r person.2
    refine ⟨fun k => ?_, ?_⟩
    · rw [hcounts', hcounts, Option.map_map]
      refine congrArg (Option.map · plan.buckets[k]?) (funext fun _ => bump_tally people person k)
    · rw [hkept', hkept, List.filter_append, List.map_append]
      congr 1
      split <;> simp [*]

end turns

/-! The rows of all partitions. -/
section rows

/-- Whether no partition has too many rows. -/
def Fits (C : Chrono) (ctx : Ctx) (q : LifecycleQuery) (plan : Period) : Prop :=
  ∀ partition ∈ List.range ctx.partitions, (partitionRows C ctx q plan partition).length ≤ maxStreamedRows

/-- The rows of the partitions, one after the other. -/
def allRows (C : Chrono) (ctx : Ctx) (q : LifecycleQuery) (plan : Period) : List Row :=
  (List.range ctx.partitions).flatMap (partitionRows C ctx q plan)

/-- Each person's activity as the rows tell it. -/
def people (C : Chrono) (ctx : Ctx) (q : LifecycleQuery) (plan : Period) : List (String × Activity) :=
  (runs Row.person (allRows C ctx q plan)).map fun run => (run.1, run.2.foldl (note C plan) ⟨[], 0⟩)

theorem classifyFrom_ok {keep : Option (LifecycleStatus × Nat)} {parts : List Nat} {s s' : Stream Classified String Activity} :
    classifyFrom C ctx q plan keep parts s = .ok s' ↔ (∀ partition ∈ parts, (partitionRows C ctx q plan partition).length ≤ maxStreamedRows) ∧
      s' = (parts.flatMap (partitionRows C ctx q plan)).foldl (Stream.step Row.person (fun _ => ⟨[], 0⟩) (note C plan) (finish C plan keep)) s := by
  induction parts generalizing s with
  | nil => simp [classifyFrom, eq_comm]
  | cons partition parts ih =>
    rw [classifyFrom, bind_ok, List.flatMap_cons, List.foldl_append, List.forall_mem_cons]
    by_cases h : maxStreamedRows < (partitionRows C ctx q plan partition).length
    · simp [arrow, h]
    · simp [arrow, h, ih, not_lt.mp h]

/-- The classification closes each person's run once. -/
theorem classify_ok {keep : Option (LifecycleStatus × Nat)} {c : Classified} : classify C ctx q plan keep = .ok c ↔ Fits C ctx q plan ∧
    c = (people C ctx q plan).foldl (fun s person => finish C plan keep s person.1 person.2) ⟨plan.buckets.map fun _ => [0, 0, 0, 0], []⟩ := by
  have hfinish : Stream.finish _ ((allRows C ctx q plan).foldl (Stream.step Row.person _ _ _) _) = _ :=
    finish_foldl_step (fun _ => ⟨[], 0⟩) (note C plan) (finish C plan keep) (allRows C ctx q plan) ⟨plan.buckets.map fun _ => [0, 0, 0, 0], []⟩
  rw [classify, bind_ok, people, List.foldl_map, ← hfinish]
  constructor
  · rintro ⟨s, hs, h⟩
    obtain ⟨hfits, rfl⟩ := classifyFrom_ok.mp hs
    cases h
    exact ⟨hfits, rfl⟩
  · rintro ⟨hfits, rfl⟩
    exact ⟨_, classifyFrom_ok.mpr ⟨hfits, rfl⟩, rfl⟩

/-- A person's first matching event. -/
def firstOf (ctx : Ctx) (q : LifecycleQuery) (plan : Period) (person : String) : Int :=
  (((ctx.events.filter fun e => e.ts < plan.range.toUs ∧ predicate ctx q e ∧ ctx.person e = person).map Event.ts).min?).getD 0

private theorem mem_matching {partition : Nat} {e : Event} : e ∈ matching ctx q plan partition ↔
    e ∈ ctx.events ∧ e.ts < plan.range.toUs ∧ predicate ctx q e = true ∧ partitionClause ctx.hash partition ctx.partitions (ctx.person e) = true := by
  rw [matching, List.mem_filter, List.mem_filter, Bool.and_eq_true, decide_eq_true_eq, and_assoc]

private theorem mem_firsts {partition : Nat} {f : String × Int} : f ∈ firsts ctx (matching ctx q plan partition) ↔
    (∃ e ∈ matching ctx q plan partition, ctx.person e = f.1) ∧ f.2 = firstOf ctx q plan f.1 := by
  have hfirst : ∀ e ∈ matching ctx q plan partition, (((matching ctx q plan partition).filter fun a => ctx.person a = ctx.person e).map
      Event.ts).min?.getD 0 = firstOf ctx q plan (ctx.person e) := by
    intro e he
    obtain ⟨-, -, -, hpart⟩ := mem_matching.mp he
    rw [firstOf, matching, List.filter_filter, List.filter_filter]
    congr 3
    apply List.filter_congr
    intro a _
    by_cases hperson : ctx.person a = ctx.person e
    · simp [hperson, hpart, Bool.and_comm]
    · simp [hperson]
  rw [firsts, List.mem_map]
  constructor
  · rintro ⟨g, hg, rfl⟩
    obtain ⟨⟨e, he, hkey⟩, hrows⟩ := mem_groups.mp hg
    refine ⟨⟨e, he, hkey⟩, ?_⟩
    rw [hrows, ← hkey]
    exact hfirst e he
  · rintro ⟨⟨e, he, hkey⟩, hf⟩
    refine ⟨(f.1, (matching ctx q plan partition).filter fun a => ctx.person a = f.1), mem_groups.mpr ⟨⟨e, he, hkey⟩, rfl⟩, ?_⟩
    refine Prod.ext rfl ?_
    rw [hf, ← hkey]
    exact hfirst e he

/-- A row tells a bucket of a person of the partition, and the person's first event. -/
theorem mem_partitionRows {partition : Nat} {row : Row} : row ∈ partitionRows C ctx q plan partition ↔
    ∃ e ∈ ctx.events, e.ts < plan.range.toUs ∧ predicate ctx q e = true ∧ partitionClause ctx.hash partition ctx.partitions (ctx.person e) = true ∧
      previous C plan ≤ e.ts ∧ row = ⟨ctx.person e, bucketExpr plan.range.interval e.ts, firstOf ctx q plan (ctx.person e)⟩ := by
  rw [partitionRows, List.mem_insertionSort, (ctx.arrange_perm _).mem_iff, List.mem_flatMap]
  constructor
  · rintro ⟨a, ha, hrow⟩
    rw [activeBuckets, List.mem_dedup, List.mem_map] at ha
    obtain ⟨e, he, rfl⟩ := ha
    obtain ⟨he, hprevious⟩ := List.mem_filter.mp he
    obtain ⟨hevent, hto, hpred, hpart⟩ := mem_matching.mp he
    obtain ⟨f, hf, rfl⟩ := List.mem_map.mp hrow
    obtain ⟨hf, hkey⟩ := List.mem_filter.mp hf
    have hkey : f.1 = ctx.person e := of_decide_eq_true hkey
    refine ⟨e, hevent, hto, hpred, hpart, of_decide_eq_true hprevious, ?_⟩
    rw [(mem_firsts.mp hf).2, hkey]
  · rintro ⟨e, hevent, hto, hpred, hpart, hprevious, rfl⟩
    have he := mem_matching.mpr ⟨hevent, hto, hpred, hpart⟩
    refine ⟨(ctx.person e, bucketExpr plan.range.interval e.ts), ?_, ?_⟩
    · rw [activeBuckets, List.mem_dedup, List.mem_map]
      exact ⟨e, List.mem_filter.mpr ⟨he, decide_eq_true hprevious⟩, rfl⟩
    · refine List.mem_map.mpr ⟨(ctx.person e, firstOf ctx q plan (ctx.person e)), ?_, rfl⟩
      exact List.mem_filter.mpr ⟨mem_firsts.mpr ⟨⟨e, he, rfl⟩, rfl⟩, decide_eq_true rfl⟩

/-- The partition of a person. -/
def partOf (ctx : Ctx) (person : String) : Nat := if ctx.partitions ≤ 1 then 0 else ctx.hash person % ctx.partitions

theorem partitionClause_iff {partition : Nat} (h : partition < ctx.partitions) (person : String) :
    partitionClause ctx.hash partition ctx.partitions person = true ↔ partOf ctx person = partition := by
  rw [partitionClause, partOf]
  split
  · simp only [true_iff]
    omega
  · exact decide_eq_true_iff

theorem partOf_lt (ctx : Ctx) (person : String) : partOf ctx person < ctx.partitions := by
  have hpos := ctx.partitions_pos
  rw [partOf]
  split
  · exact hpos
  · exact Nat.mod_lt _ hpos

private theorem personOrder_total : Std.Total personOrder := ⟨fun a b => le_total a.person b.person⟩

private theorem personOrder_trans : IsTrans Row personOrder := ⟨fun _ _ _ hab hbc => le_trans (α := String) hab hbc⟩

/-- The rows come by partition, and by person within one. -/
theorem allRows_sorted : (allRows C ctx q plan).Pairwise fun a b =>
    (toLex (partOf ctx a.person, a.person) : ℕ ×ₗ String) ≤ toLex (partOf ctx b.person, b.person) := by
  have hpart : ∀ partition ∈ List.range ctx.partitions, ∀ row ∈ partitionRows C ctx q plan partition, partOf ctx row.person = partition := by
    intro partition hp row hrow
    obtain ⟨e, -, -, -, hclause, -, rfl⟩ := mem_partitionRows.mp hrow
    exact (partitionClause_iff (List.mem_range.mp hp) _).mp hclause
  refine List.pairwise_flatMap.mpr ⟨fun partition hp => ?_, ?_⟩
  · have := personOrder_total
    have := personOrder_trans
    refine (List.pairwise_insertionSort personOrder _).imp_of_mem fun {a b} ha hb hab => ?_
    rw [hpart partition hp a ha, hpart partition hp b hb]
    exact Prod.Lex.toLex_le_toLex.mpr (.inr ⟨rfl, hab⟩)
  · refine List.pairwise_lt_range.imp_of_mem fun {p p'} hp hp' hlt a ha b hb => ?_
    rw [hpart p hp a ha, hpart p' hp' b hb]
    exact Prod.Lex.toLex_le_toLex.mpr (.inl hlt)

variable (C ctx q plan) in
theorem people_nodup : ((people C ctx q plan).map Prod.fst).Nodup := by
  have hfst : (people C ctx q plan).map Prod.fst = (runs Row.person (allRows C ctx q plan)).map Prod.fst := by simp [people, Function.comp_def]
  rw [hfst]
  have hrank : (fun person => (toLex (partOf ctx person, person) : ℕ ×ₗ String)).Injective := fun a b h => (Prod.mk.inj (toLex.injective h)).2
  exact runs_nodup allRows_sorted hrank

theorem mem_allRows {row : Row} : row ∈ allRows C ctx q plan ↔ ∃ e ∈ ctx.events, e.ts < plan.range.toUs ∧ predicate ctx q e = true ∧
    previous C plan ≤ e.ts ∧ row = ⟨ctx.person e, bucketExpr plan.range.interval e.ts, firstOf ctx q plan (ctx.person e)⟩ := by
  rw [allRows, List.mem_flatMap]
  constructor
  · rintro ⟨partition, -, hrow⟩
    obtain ⟨e, hevent, hto, hpred, -, hprevious, rfl⟩ := mem_partitionRows.mp hrow
    exact ⟨e, hevent, hto, hpred, hprevious, rfl⟩
  · rintro ⟨e, hevent, hto, hpred, hprevious, rfl⟩
    have hlt := partOf_lt ctx (ctx.person e)
    exact ⟨partOf ctx (ctx.person e), List.mem_range.mpr hlt,
      mem_partitionRows.mpr ⟨e, hevent, hto, hpred, (partitionClause_iff hlt _).mpr rfl, hprevious, rfl⟩⟩

variable (C plan) in
private theorem foldl_note (rows : List Row) (activity : Activity) :
    (∀ b, b ∈ (rows.foldl (note C plan) activity).active ↔ b ∈ activity.active ∨
      (b = previous C plan ∨ b ∈ plan.buckets) ∧ ∃ row ∈ rows, row.bucket = b) ∧
      ∀ first, rows ≠ [] → (∀ row ∈ rows, row.firstTs = first) → (rows.foldl (note C plan) activity).first = first := by
  induction rows using List.reverseRecOn with
  | nil => exact ⟨fun b => by simp, fun _ h => absurd rfl h⟩
  | append_singleton rows row ih =>
    rw [List.foldl_append, List.foldl_cons, List.foldl_nil]
    refine ⟨fun b => ?_, fun first _ hrows => hrows row (by simp)⟩
    have hrow : b ∈ (note C plan (rows.foldl (note C plan) activity) row).active ↔
        (b = previous C plan ∨ b ∈ plan.buckets) ∧ row.bucket = b ∨ b ∈ (rows.foldl (note C plan) activity).active := by
      rw [note]
      dsimp only
      split
      · rename_i hin
        rw [List.mem_cons]
        refine or_congr_left ⟨fun hb => ⟨hb ▸ hin, hb.symm⟩, fun hb => hb.2.symm⟩
      · rename_i hin
        refine (or_iff_right ?_).symm
        rintro ⟨hb, rfl⟩
        exact hin hb
    have happend : (∃ r ∈ rows ++ [row], r.bucket = b) ↔ (∃ r ∈ rows, r.bucket = b) ∨ row.bucket = b := by
      simp [or_and_right, exists_or]
    rw [hrow, ih.1, happend, and_or_left, or_comm, or_assoc]

/-- A person's activity is in the buckets of the person's events, and starts with the first of them. -/
theorem activity_of_mem {person : String × Activity} (h : person ∈ people C ctx q plan) :
    (∀ b, b ∈ person.2.active ↔ (b = previous C plan ∨ b ∈ plan.buckets) ∧ ∃ e ∈ ctx.events, e.ts < plan.range.toUs ∧
      predicate ctx q e = true ∧ previous C plan ≤ e.ts ∧ ctx.person e = person.1 ∧ bucketExpr plan.range.interval e.ts = b) ∧
      person.2.first = firstOf ctx q plan person.1 := by
  obtain ⟨run, hrun, rfl⟩ := List.mem_map.mp h
  have hkeys : ((runs Row.person (allRows C ctx q plan)).map Prod.fst).Nodup := by
    have hnodup := people_nodup C ctx q plan
    rw [people, List.map_map] at hnodup
    exact hnodup
  have hrows : ∀ row, row ∈ run.2 ↔ ∃ e ∈ ctx.events, e.ts < plan.range.toUs ∧ predicate ctx q e = true ∧ previous C plan ≤ e.ts ∧
      ctx.person e = run.1 ∧ row = ⟨run.1, bucketExpr plan.range.interval e.ts, firstOf ctx q plan run.1⟩ := by
    intro row
    rw [run_eq_filter hkeys run hrun, List.mem_filter, mem_allRows, decide_eq_true_eq]
    constructor
    · rintro ⟨⟨e, hevent, hto, hpred, hprevious, rfl⟩, hkey⟩
      dsimp only at hkey
      exact ⟨e, hevent, hto, hpred, hprevious, hkey, by rw [hkey]⟩
    · rintro ⟨e, hevent, hto, hpred, hprevious, hkey, rfl⟩
      exact ⟨⟨e, hevent, hto, hpred, hprevious, by rw [hkey]⟩, rfl⟩
  have hne : run.2 ≠ [] := by
    obtain ⟨row, hrow, hkey⟩ := mem_runs_key.mp (List.mem_map_of_mem hrun)
    refine List.ne_nil_of_mem (a := row) ?_
    rw [run_eq_filter hkeys run hrun]
    exact List.mem_filter.mpr ⟨hrow, decide_eq_true hkey⟩
  obtain ⟨hactive, hfirst⟩ := foldl_note C plan run.2 ⟨[], 0⟩
  constructor
  · intro b
    rw [hactive]
    simp only [List.not_mem_nil, false_or, hrows]
    refine and_congr_right fun _ => ?_
    constructor
    · rintro ⟨_, ⟨e, hevent, hto, hpred, hprevious, hkey, rfl⟩, hb⟩
      exact ⟨e, hevent, hto, hpred, hprevious, hkey, hb⟩
    · rintro ⟨e, hevent, hto, hpred, hprevious, hkey, hb⟩
      exact ⟨_, ⟨e, hevent, hto, hpred, hprevious, hkey, rfl⟩, hb⟩
  · refine hfirst _ hne fun row hrow => ?_
    obtain ⟨e, -, -, -, -, -, rfl⟩ := (hrows row).mp hrow
    rfl

theorem exists_people {e : Event} (he : e ∈ ctx.events) (hto : e.ts < plan.range.toUs) (hpred : predicate ctx q e = true)
    (hprevious : previous C plan ≤ e.ts) : ∃ person ∈ people C ctx q plan, person.1 = ctx.person e := by
  obtain ⟨run, hrun, hkey⟩ := List.mem_map.mp (mem_runs_key.mpr ⟨_, mem_allRows.mpr ⟨e, he, hto, hpred, hprevious, rfl⟩, rfl⟩ :
    ctx.person e ∈ (runs Row.person (allRows C ctx q plan)).map Prod.fst)
  exact ⟨_, List.mem_map_of_mem hrun, hkey⟩

end rows

/-! What the persons were doing. -/
section active

/-- The distinct persons with a matching event between two instants. -/
def activeIn (ctx : Ctx) (q : LifecycleQuery) (plan : Period) (fromUs toUs : Int) : List String :=
  ((ctx.events.filter fun e => predicate ctx q e ∧ e.ts < plan.range.toUs ∧ fromUs ≤ e.ts ∧ e.ts < toUs).map ctx.person).dedup

theorem mem_activeIn {fromUs toUs : Int} {person : String} : person ∈ activeIn ctx q plan fromUs toUs ↔
    ∃ e ∈ ctx.events, e.ts < plan.range.toUs ∧ predicate ctx q e = true ∧ fromUs ≤ e.ts ∧ e.ts < toUs ∧ ctx.person e = person := by
  rw [activeIn, List.mem_dedup, List.mem_map]
  simp only [List.mem_filter, decide_eq_true_eq]
  refine exists_congr fun e => ?_
  tauto

/-- The buckets of a plan start where they should, each where the one before ends. -/
structure Spans (C : Chrono) (plan : Period) : Prop where
  gregorian : C.Gregorian
  covered : plan.Covered C
  starts : ∀ bucket ∈ plan.buckets, Starts plan.range.interval bucket ∧ bucket < plan.range.toUs
  next : ∀ (k : Nat) (b b' : Int), plan.buckets[k]? = some b → plan.buckets[k + 1]? = some b' → b' = nextBucket C b plan.range.interval

theorem spans_of_prepare (hC : C.Gregorian) {now : DateTime} {first : Except QueryError (Option Int)} (hfirst : ∀ us, first = .ok (some us) → minUs ≤ us)
    (h : prepare C now first (.lifecycle q.planned) = .ok (.lifecycle plan)) : Spans C plan := by
  obtain ⟨range, hrange, h⟩ := bind_ok.mp h
  obtain ⟨period, hperiod, h⟩ := bind_ok.mp h
  cases h
  obtain ⟨rfl, hbuckets⟩ := ResolvedRange.period_ok hperiod
  obtain ⟨hlt, hto⟩ := resolve_within hrange
  obtain ⟨hmin, -⟩ := resolve_from hfirst hrange
  have htrunc := (starts_trunc hC hmin (by omega) plan.range.interval).1.min_le
  refine ⟨hC, ⟨hbuckets, hto, ?_⟩, ResolvedRange.buckets_starts hC hbuckets hmin hlt hto, fun k b b' => bucketsFrom_next hbuckets⟩
  simp only [minUs, minI64, weekUs, dayUs, hourUs] at *
  omega

variable (hp : Spans C plan) {k : Nat} {bucket : Int} (hk : plan.buckets[k]? = some bucket)
include hp hk

omit hp in
theorem before_zero (h : k = 0) : before C plan k = previousBucket C bucket plan.range.interval := by
  subst h
  rw [before, if_pos rfl, previous, List.headD_eq_head?_getD, List.head?_eq_getElem?, hk, Option.getD_some]

theorem before_succ {i : Nat} (h : k = i + 1) : ∃ b, plan.buckets[i]? = some b ∧ before C plan k = b ∧ bucket = nextBucket C b plan.range.interval := by
  subst h
  have hlt := (List.getElem?_eq_some_iff.mp hk).1
  have hi : plan.buckets[i]? = some plan.buckets[i] := List.getElem?_eq_getElem (by omega)
  refine ⟨plan.buckets[i], hi, ?_, hp.next i _ _ hi hk⟩
  rw [before, if_neg (Nat.succ_ne_zero i), Nat.add_sub_cancel, List.getD_eq_getElem?_getD, hi, Option.getD_some]

/-- The noted buckets start no earlier than the one before the range. -/
theorem previous_lt : previous C plan < bucket := by
  obtain ⟨first, hfirst⟩ : ∃ first, plan.buckets[0]? = some first := by
    have hlt := (List.getElem?_eq_some_iff.mp hk).1
    exact ⟨plan.buckets[0], List.getElem?_eq_getElem (by omega)⟩
  have hprevious : previous C plan = previousBucket C first plan.range.interval := by
    rw [previous, List.headD_eq_head?_getD, List.head?_eq_getElem?, hfirst, Option.getD_some]
  have hlt := (hp.starts first (List.mem_of_getElem? hfirst)).1.previous_lt hp.gregorian
  have hle : first ≤ bucket := by
    cases k with
    | zero =>
      cases hfirst.symm.trans hk
      exact le_rfl
    | succ i =>
      obtain ⟨hin, rfl⟩ := List.getElem?_eq_some_iff.mp hk
      obtain ⟨_, rfl⟩ := List.getElem?_eq_some_iff.mp hfirst
      have hsorted := bucketsFrom_sorted hp.covered.toUs_le hp.covered.buckets
      exact (List.pairwise_iff_getElem.mp hsorted 0 (i + 1) _ hin (Nat.succ_pos i)).le
  omega

theorem previous_le : previous C plan ≤ before C plan k := by
  cases hcase : k with
  | zero => rw [before, if_pos rfl]
  | succ i =>
    obtain ⟨b, hi, hbefore, -⟩ := before_succ hp hk hcase
    rw [← hcase, hbefore]
    exact (previous_lt hp hi).le

variable {person : String × Activity} (hperson : person ∈ people C ctx q plan)
include hperson

/-- The bucket itself: noted where the person has an event in it. -/
theorem mem_active_iff : bucket ∈ person.2.active ↔ person.1 ∈ activeIn ctx q plan bucket (nextBucket C bucket plan.range.interval) := by
  have hmem := List.mem_of_getElem? hk
  have hprevious := previous_lt hp hk
  have hstart := (hp.starts bucket hmem).1
  have hto := hp.covered.toUs_le
  rw [(activity_of_mem hperson).1, mem_activeIn, and_iff_right (.inr hmem)]
  refine exists_congr fun e => and_congr_right fun _ => and_congr_right fun hlt => and_congr_right fun _ => ?_
  rw [hstart.covers hp.gregorian (by omega)]
  constructor
  · rintro ⟨-, hkey, hle, hnext⟩
    exact ⟨hle, hnext, hkey⟩
  · rintro ⟨hle, hnext, hkey⟩
    exact ⟨by omega, hkey, hle, hnext⟩

/-- The bucket before it. -/
theorem mem_before_iff : before C plan k ∈ person.2.active ↔ person.1 ∈ activeIn ctx q plan (before C plan k) bucket := by
  have hto := hp.covered.toUs_le
  cases hcase : k with
  | zero =>
    have hbefore : before C plan k = _ := before_zero hk hcase
    subst hcase
    have hzero : before C plan 0 = previous C plan := by rw [before, if_pos rfl]
    have hstart := (hp.starts bucket (List.mem_of_getElem? hk)).1
    rw [(activity_of_mem hperson).1, mem_activeIn, and_iff_right (.inl hzero)]
    refine exists_congr fun e => and_congr_right fun he => and_congr_right fun hlt => and_congr_right fun _ => ?_
    have hinstant := ctx.instants e he
    rw [hbefore, hstart.before hp.gregorian hinstant.1 hinstant.2, ← hbefore, hzero]
    tauto
  | succ i =>
    obtain ⟨b, hi, hbefore, hnext⟩ := before_succ hp hk hcase
    rw [← hcase, hbefore, hnext]
    exact mem_active_iff hp hi hperson

omit hk in
/-- Nobody who was active before is new. -/
theorem not_new (hbefore : person.1 ∈ activeIn ctx q plan (before C plan k) bucket) :
    trunc C person.2.first plan.range.interval ≠ bucket := by
  obtain ⟨e, he, hto, hpred, -, hlt, hkey⟩ := mem_activeIn.mp hbefore
  have hmem : e.ts ∈ (ctx.events.filter fun e => e.ts < plan.range.toUs ∧ predicate ctx q e ∧ ctx.person e = person.1).map Event.ts :=
    List.mem_map_of_mem (List.mem_filter.mpr ⟨he, by simp [hto, hpred, hkey]⟩)
  obtain ⟨first, hfirst⟩ := Option.isSome_iff_exists.mp (List.isSome_min?_iff.mpr (List.ne_nil_of_mem hmem))
  obtain ⟨hin, hle⟩ := List.min?_eq_some_iff.mp hfirst
  obtain ⟨e', he', rfl⟩ := List.mem_map.mp hin
  have hinstant := ctx.instants e' (List.mem_filter.mp he').1
  have htrunc := (starts_trunc hp.gregorian hinstant.1 hinstant.2 plan.range.interval).2
  rw [(activity_of_mem hperson).2, firstOf, hfirst, Option.getD_some]
  have := hle e.ts hmem
  omega

end active

/-! The cells. -/
section cells

/-- The persons with a status in a bucket. -/
def cell (C : Chrono) (ctx : Ctx) (q : LifecycleQuery) (plan : Period) (status : LifecycleStatus) (k : Nat) : List String :=
  ((people C ctx q plan).filter fun person => statusAt C plan person.2 k = some status).map Prod.fst

theorem mem_cell {status : LifecycleStatus} {k : Nat} {name : String} : name ∈ cell C ctx q plan status k ↔
    ∃ person ∈ people C ctx q plan, statusAt C plan person.2 k = some status ∧ person.1 = name := by
  rw [cell, List.mem_map]
  simp only [List.mem_filter, decide_eq_true_eq, and_assoc]

theorem cell_nodup (status : LifecycleStatus) (k : Nat) : (cell C ctx q plan status k).Nodup :=
  (people_nodup C ctx q plan).sublist (List.filter_sublist.map Prod.fst)

/-- A person has one activity. -/
theorem person_inj {person person' : String × Activity} (h : person ∈ people C ctx q plan) (h' : person' ∈ people C ctx q plan)
    (heq : person.1 = person'.1) : person = person' := List.inj_on_of_nodup_map (people_nodup C ctx q plan) h h' heq

theorem cell_once {k : Nat} {name : String} {status status' : LifecycleStatus} (h : name ∈ cell C ctx q plan status k)
    (h' : name ∈ cell C ctx q plan status' k) : status = status' := by
  obtain ⟨person, hperson, hstatus, rfl⟩ := mem_cell.mp h
  obtain ⟨person', hperson', hstatus', heq⟩ := mem_cell.mp h'
  rw [person_inj hperson' hperson heq] at hstatus'
  exact Option.some.inj (hstatus.symm.trans hstatus')

variable (hp : Spans C plan) {k : Nat} {bucket : Int} (hk : plan.buckets[k]? = some bucket)
include hp hk

/-- What a person's status says of the bucket and the one before it. -/
theorem statusAt_eq {person : String × Activity} (hperson : person ∈ people C ctx q plan) : statusAt C plan person.2 k =
    if person.1 ∈ activeIn ctx q plan bucket (nextBucket C bucket plan.range.interval) then
      if trunc C person.2.first plan.range.interval = bucket then some .new
      else if person.1 ∈ activeIn ctx q plan (before C plan k) bucket then some .returning
      else some .resurrecting
    else if person.1 ∈ activeIn ctx q plan (before C plan k) bucket then some .dormant
    else none := by
  rw [statusAt, hk, Option.bind_some, status]
  simp only [mem_active_iff hp hk hperson, mem_before_iff hp hk hperson]

omit hk in
theorem cell_new_once {k' : Nat} {name : String} (h : name ∈ cell C ctx q plan .new k) (h' : name ∈ cell C ctx q plan .new k') : k = k' := by
  have hbucket : ∀ {i : Nat} {person : String × Activity}, person ∈ people C ctx q plan → statusAt C plan person.2 i = some .new →
      plan.buckets[i]? = some (trunc C person.2.first plan.range.interval) := by
    intro i person hperson hstatus
    cases hi : plan.buckets[i]? with
    | none =>
      rw [statusAt, hi] at hstatus
      cases hstatus
    | some bucket =>
      rw [statusAt_eq hp hi hperson] at hstatus
      split_ifs at hstatus with _ hnew
      · rw [hnew]
      all_goals cases hstatus
  obtain ⟨person, hperson, hstatus, rfl⟩ := mem_cell.mp h
  obtain ⟨person', hperson', hstatus', heq⟩ := mem_cell.mp h'
  obtain rfl := person_inj hperson' hperson heq
  have hk := hbucket hperson hstatus
  exact (List.getElem?_inj (List.getElem?_eq_some_iff.mp hk).1 (Trends.buckets_nodup hp.covered)).mp (hk.trans (hbucket hperson hstatus').symm)

theorem active_iff_cell (name : String) : name ∈ activeIn ctx q plan bucket (nextBucket C bucket plan.range.interval) ↔
    ∃ status, status ≠ .dormant ∧ name ∈ cell C ctx q plan status k := by
  constructor
  · intro h
    obtain ⟨e, he, hto, hpred, hle, -, rfl⟩ := mem_activeIn.mp h
    obtain ⟨person, hperson, heq⟩ := exists_people he hto hpred ((previous_lt hp hk).le.trans hle)
    rw [← heq] at h ⊢
    have hstatus := statusAt_eq hp hk hperson
    rw [if_pos h] at hstatus
    split_ifs at hstatus
    · exact ⟨.new, by decide, mem_cell.mpr ⟨person, hperson, hstatus, rfl⟩⟩
    · exact ⟨.returning, by decide, mem_cell.mpr ⟨person, hperson, hstatus, rfl⟩⟩
    · exact ⟨.resurrecting, by decide, mem_cell.mpr ⟨person, hperson, hstatus, rfl⟩⟩
  · rintro ⟨status, hne, h⟩
    obtain ⟨person, hperson, hstatus, rfl⟩ := mem_cell.mp h
    rw [statusAt_eq hp hk hperson] at hstatus
    by_contra hnot
    rw [if_neg hnot] at hstatus
    split_ifs at hstatus
    exact hne (Option.some.inj hstatus).symm

/-- Who was active before is returning or dormant. -/
theorem before_iff_cell (name : String) : name ∈ activeIn ctx q plan (before C plan k) bucket ↔
    name ∈ cell C ctx q plan .returning k ∨ name ∈ cell C ctx q plan .dormant k := by
  constructor
  · intro h
    obtain ⟨e, he, hto, hpred, hle, -, rfl⟩ := mem_activeIn.mp h
    have hprevious := previous_le hp hk
    obtain ⟨person, hperson, heq⟩ := exists_people he hto hpred (hprevious.trans hle)
    rw [← heq] at h ⊢
    have hstatus := statusAt_eq hp hk hperson
    rw [if_pos h, if_pos h, if_neg (not_new hp hperson h)] at hstatus
    split_ifs at hstatus
    · exact .inl (mem_cell.mpr ⟨person, hperson, hstatus, rfl⟩)
    · exact .inr (mem_cell.mpr ⟨person, hperson, hstatus, rfl⟩)
  · rintro (h | h)
    all_goals
      obtain ⟨person, hperson, hstatus, rfl⟩ := mem_cell.mp h
      rw [statusAt_eq hp hk hperson] at hstatus
      by_contra hnot
      rw [if_neg hnot, if_neg hnot] at hstatus
      split_ifs at hstatus <;> cases hstatus

/-- What a bucket returns and loses is what was active in the one before. -/
theorem cell_balance : (cell C ctx q plan .returning k).length + (cell C ctx q plan .dormant k).length =
    (activeIn ctx q plan (before C plan k) bucket).length := by
  have hdisjoint : (cell C ctx q plan .returning k).Disjoint (cell C ctx q plan .dormant k) := fun name h h' => by cases cell_once h h'
  have hnodup := (cell_nodup .returning k).append (cell_nodup .dormant k) hdisjoint
  have hperm : (cell C ctx q plan .returning k ++ cell C ctx q plan .dormant k).Perm (activeIn ctx q plan (before C plan k) bucket) :=
    (List.perm_ext_iff_of_nodup hnodup (List.nodup_dedup _)).mpr fun name => by
      rw [List.mem_append]
      exact (before_iff_cell hp hk name).symm
  rw [← List.length_append, hperm.length_eq]

end cells

/-! The result and the actors. -/
section result
variable {result : LifecycleResult}

/-- The number shown for a status in a bucket; the dormant persons are shown as a negative one. -/
def LifecycleResult.shown (result : LifecycleResult) (status : LifecycleStatus) (k : Nat) : Option Int :=
  match status with
  | .new => result.new[k]?
  | .returning => result.returning[k]?
  | .resurrecting => result.resurrecting[k]?
  | .dormant => result.dormant[k]?.map (- ·)

theorem shown_eq (h : run C ctx q plan = .ok result) {k : Nat} {bucket : Int} (hk : plan.buckets[k]? = some bucket) (status : LifecycleStatus) :
    result.shown status k = some ((cell C ctx q plan status k).length : Int) := by
  obtain ⟨c, hc, h⟩ := bind_ok.mp h
  cases h
  have hcounts : c.counts[k]? = some (tally C plan (people C ctx q plan) k) := by
    rw [(classify_ok.mp hc).2, (foldl_finish C plan none (people C ctx q plan)).1, hk, Option.map_some]
  have hlength : (cell C ctx q plan status k).length =
      (people C ctx q plan).countP fun person => statusAt C plan person.2 k = some status := by
    rw [cell, List.length_map, List.countP_eq_length_filter]
  rw [hlength]
  cases status <;> simp [LifecycleResult.shown, hcounts, tally, LifecycleStatus.slot]

/-- What a classification keeps is the cell, whenever the numbers can be had. -/
theorem classify_kept (h : run C ctx q plan = .ok result) (status : LifecycleStatus) (k : Nat) :
    ∃ counts, classify C ctx q plan (some (status, k)) = .ok ⟨counts, cell C ctx q plan status k⟩ := by
  obtain ⟨c, hc, -⟩ := bind_ok.mp h
  have hkept := (foldl_finish C plan (some (status, k)) (people C ctx q plan)).2
  have hok : classify C ctx q plan (some (status, k)) = .ok _ := classify_ok.mpr ⟨(classify_ok.mp hc).1, rfl⟩
  generalize (people C ctx q plan).foldl _ _ = r at hkept hok
  refine ⟨r.counts, hok.trans ?_⟩
  exact congrArg (fun kept => Except.ok (Classified.mk r.counts kept)) hkept

theorem actors_ok (hp : plan.Covered C) (h : run C ctx q plan = .ok result) {k : Nat} {bucket : Int} (hk : plan.buckets[k]? = some bucket)
    {day : String} (hday : parseInstant C day = some bucket) (status : LifecycleStatus) :
    actors C ctx q plan status day = .ok (cell C ctx q plan status k) := by
  obtain ⟨counts, hkept⟩ := classify_kept h status k
  have hindex : plan.buckets.findIdx? (· = bucket) = some k := by
    obtain ⟨hlt, hget⟩ := List.getElem?_eq_some_iff.mp hk
    refine List.findIdx?_eq_some_iff_getElem.mpr ⟨hlt, decide_eq_true hget, fun j hj heq => ?_⟩
    have hsame : plan.buckets[j] = plan.buckets[k] := (of_decide_eq_true heq).trans hget.symm
    exact hj.ne ((Trends.buckets_nodup hp).getElem_inj_iff.mp hsame)
  rw [actors, hday, Option.bind_some, hindex]
  dsimp only
  rw [hkept]
  rfl

/-- The balance of a lifecycle. -/
structure Conserved (C : Chrono) (ctx : Ctx) (q : LifecycleQuery) (plan : Period) (result : LifecycleResult)
    (cell : LifecycleStatus → Nat → List String) : Prop where
  counted : ∀ k bucket, plan.buckets[k]? = some bucket → ∀ person, person ∈ activeIn ctx q plan bucket (nextBucket C bucket plan.range.interval) ↔
    ∃ status, status ≠ .dormant ∧ person ∈ cell status k
  once : ∀ k person status status', person ∈ cell status k → person ∈ cell status' k → status = status'
  balance : ∀ k bucket, plan.buckets[k]? = some bucket →
    (cell .returning k).length + (cell .dormant k).length = (activeIn ctx q plan (before C plan k) bucket).length
  newOnce : ∀ person k k', person ∈ cell .new k → person ∈ cell .new k' → k = k'
  nodup : ∀ status k, (cell status k).Nodup
  shown : ∀ k bucket, plan.buckets[k]? = some bucket → ∀ status, result.shown status k = some ((cell status k).length : Int)
  kept : ∀ status k, ∃ counts, classify C ctx q plan (some (status, k)) = .ok ⟨counts, cell status k⟩
  actors : ∀ k bucket, plan.buckets[k]? = some bucket → ∀ day, parseInstant C day = some bucket → ∀ status,
    actors C ctx q plan status day = .ok (cell status k)

/-- A lifecycle that is answered is conserved. -/
theorem run_conserved (hC : C.Gregorian) {now : DateTime} {first : Except QueryError (Option Int)} (hfirst : ∀ us, first = .ok (some us) → minUs ≤ us)
    (hplan : prepare C now first (.lifecycle q.planned) = .ok (.lifecycle plan)) (h : run C ctx q plan = .ok result) :
    ∃ cell, Conserved C ctx q plan result cell := by
  have hp := spans_of_prepare hC hfirst hplan
  refine ⟨cell C ctx q plan, ?_⟩
  constructor
  · exact fun k bucket hk => active_iff_cell hp hk
  · exact fun k person status status' => cell_once
  · exact fun k bucket hk => cell_balance hp hk
  · exact fun person k k' => cell_new_once hp
  · exact cell_nodup
  · exact fun k bucket hk => shown_eq h hk
  · exact classify_kept h
  · exact fun k bucket hk day hday => actors_ok hp.covered h hk hday

section sample

/-- One person on the last day before the range and on its first, another on its second. -/
def sampleCtx : Ctx where
  events := [⟨"visit", 1784505600000005, "a", none, ""⟩, ⟨"visit", 1784592000000005, "a", none, ""⟩, ⟨"visit", 1784678400000005, "b", none, ""⟩]
  overrides _ := none
  eventText _ _ := none
  personText _ _ := none
  quantity _ _ := none
  arrange := id
  arrange_perm := Trends.perm_id
  instants := by decide
  hash name := name.length
  partitions := 2
  partitions_pos := Nat.two_pos

def sampleQuery : LifecycleQuery := ⟨⟨none, [], .total, fun _ => none⟩, ⟨"2026-07-21", some "2026-07-23"⟩, .day, []⟩

def samplePlan : Period :=
  ⟨⟨1784592000000000, 1784851200000000, .day⟩, [1784592000000000, 1784678400000000, 1784764800000000]⟩

theorem samplePlan_ok : prepare Chrono.small Small.noon (.ok none) (.lifecycle sampleQuery.planned) = .ok (.lifecycle samplePlan) := by
  rw [prepare]
  rfl

theorem sample_conserved : ∃ cell, Conserved Chrono.small sampleCtx sampleQuery samplePlan ⟨[0, 1, 0], [1, 0, 0], [0, 0, 0], [0, -1, -1]⟩ cell :=
  run_conserved Chrono.small_gregorian (fun _ h => by cases h) samplePlan_ok (by decide +kernel)

end sample

end result
end Hoglet.Query.Lifecycle
