import Hoglet.Interning
import Hoglet.Query.Lifecycle.Balance
import Hoglet.Table
import Mathlib.Data.List.Destutter

/-! Retention: cohorts of persons by period, and who of them came back in the later periods. -/
namespace Hoglet.Query.Retention
open Capture
open Funnels (maxStreamedRows)
open Lifecycle (Ctx partitionClause partOf partOf_lt partitionClause_iff)
open Trends (Event bucketExpr eventMatch)

def maxRetentionIntervals : Nat := 100

structure RetentionQuery where
  target : Trends.EventNode
  returning : Trends.EventNode
  period : RetentionPeriod
  totalIntervals : Nat
  retentionType : RetentionType
  properties : List Trends.Filter

/-- What the plan of a query depends on. -/
def RetentionQuery.planned (q : RetentionQuery) : Query.RetentionQuery := ⟨q.period, q.totalIntervals, q.retentionType⟩

structure Activity where
  interned : Interned String
  /-- Cohort members per period (person indexes). -/
  cohorts : List (List Nat)
  /-- Persons with a returning event per period. -/
  returning : List (List Nat)

structure RetentionCohort where
  size : Nat
  values : List Nat
  deriving DecidableEq, Repr

/-- A hash map from the starts; of equal ones the last would stay. -/
def index (starts : List Int) (bucket : Int) : Option Nat := lookupRow starts.zipIdx.reverse bucket

/-- The rows of a query, of which there may be too many. The deadline that is checked on every batch is left out. -/
def arrow {α : Type} (rows : List α) : Except String (List α) :=
  if maxStreamedRows < rows.length then .error "the query produced too many intermediate rows; narrow the date range or filters"
  else .ok rows

/-- The person of a row is numbered, and the number is put to the row's period. -/
def record (starts : List Int) (add : List Nat → Nat → List Nat) (s : Interned String × List (List Nat)) (row : String × Int) :
    Interned String × List (List Nat) :=
  let person := s.1.intern (2^32) row.1
  (person.2, match index starts row.2 with
    | some period => s.2.modify period (add · person.1)
    | none => s.2)

def pairs (starts : List Int) (add : List Nat → Nat → List Nat) (rows : List (String × Int)) (s : Interned String × List (List Nat)) :
    Except String (Interned String × List (List Nat)) := do
  let rows ← arrow rows
  return rows.foldl (record starts add) s

/-- `Vec::push`. -/
def push (members : List Nat) (person : Nat) : List Nat := members ++ [person]

section activity
variable (ctx : Ctx) (q : RetentionQuery) (plan : RetentionPlan)

/-- The first period; there is always one. -/
def start : Int := plan.starts.headD 0

def predicate (node : Trends.EventNode) (e : Event) : Bool :=
  eventMatch node e && ctx.filters node.properties e && ctx.filters q.properties e

/-- `ev` between the bounds, as far as a partition's predicate admits it. -/
def admitted (node : Trends.EventNode) (fromUs : Option Int) (partition : Nat) : List Event :=
  (ctx.events.filter fun e => (∀ us ∈ fromUs, us ≤ e.ts) ∧ e.ts < plan.endUs).filter fun e =>
    predicate ctx q node e && partitionClause ctx.hash partition ctx.partitions (ctx.person e)

/-- `SELECT DISTINCT person_id, bucket`. -/
def distinctRows (node : Trends.EventNode) (partition : Nat) : List (String × Int) :=
  ctx.arrange ((admitted ctx q plan node (some (start plan)) partition).map fun e => (ctx.person e, bucketExpr plan.interval e.ts)).dedup

/-- The bucket of each person's first event, if it is in a period. -/
def firstRows (partition : Nat) : List (String × Int) :=
  ctx.arrange ((((groups ctx.person (admitted ctx q plan q.target none partition)).map fun g => (g.1, (g.2.map Event.ts).min?.getD 0)).filter
    fun f => start plan ≤ f.2).map fun f => (f.1, bucketExpr plan.interval f.2))

def targetRows (partition : Nat) : List (String × Int) :=
  if plan.firstTime then firstRows ctx q plan partition else distinctRows ctx q plan q.target partition

/-- The persons keep their numbers from one partition to the next. -/
def activityFrom : List Nat → Activity → Except String Activity
  | [], activity => .ok activity
  | partition :: rest, activity => do
    let targets ← pairs plan.starts push (targetRows ctx q plan partition) (activity.interned, activity.cohorts)
    let returns ← pairs plan.starts (fun s n => s.insert n) (distinctRows ctx q plan q.returning partition) (targets.1, activity.returning)
    activityFrom rest ⟨returns.1, targets.2, returns.2⟩

/-- `sort_unstable` and `dedup`. -/
def sorted (cohort : List Nat) : List Nat := (cohort.insertionSort (· ≤ ·)).destutter (· ≠ ·)

def activity : Except String Activity := do
  let activity ← activityFrom ctx q plan (List.range ctx.partitions) ⟨.empty, plan.starts.map fun _ => [], plan.starts.map fun _ => []⟩
  return { activity with cohorts := activity.cohorts.map sorted }

end activity

def cell (activity : Activity) (cohort offset : Nat) : List Nat :=
  let members := activity.cohorts.getD cohort []
  if offset = 0 then members
  else members.filter fun person => person ∈ activity.returning.getD (cohort + offset) []

/-- The texts of the periods are left out. -/
def run (ctx : Ctx) (q : RetentionQuery) (plan : RetentionPlan) : Except String (List RetentionCohort) := do
  let activity ← activity ctx q plan
  let periods := plan.starts.length
  return (List.range periods).map fun cohort =>
    ⟨(activity.cohorts.getD cohort []).length, (List.range (periods - cohort)).map fun offset => (cell activity cohort offset).length⟩

/-- The numbers of a cell are those of persons. -/
def actors (C : Chrono) (ctx : Ctx) (q : RetentionQuery) (plan : RetentionPlan) (cohortDate : String) (interval : Nat) :
    Except String (List String) :=
  match (parseInstant C cohortDate).bind fun start => plan.starts.findIdx? (· = start) with
  | none => .error "cohort_date is not a cohort of this query"
  | some cohort =>
    if plan.starts.length ≤ cohort + interval then .error "interval is out of range for this cohort"
    else do
      let activity ← activity ctx q plan
      return (cell activity cohort interval).map fun person => activity.interned.names.getD person ""

/-! The periods. -/
section periods
variable {C : Chrono} {interval : Interval} {start : Int}

theorem starts_previous (hC : C.Gregorian) (h : Starts interval start) (hmin : minUs ≤ previousBucket C start interval) :
    Starts interval (previousBucket C start interval) := by
  have hlt := h.previous_lt hC
  have hle := h.le_max
  have hcovers := h.before hC hmin (hlt.le.trans hle)
  exact ⟨hcovers.mpr ⟨le_rfl, hlt⟩, hlt.le.trans hle, (by simp only [weekUs, dayUs, hourUs]; omega), fun _ => hmin⟩

private theorem monthFirst_next_le (n : Int) : monthFirst (n + 1) ≤ monthFirst n + 31 := by
  obtain ⟨era, year, month, hy, hm, rfl⟩ := exists_month n
  rw [monthFirst_next era hy hm, monthFirst_eq era hy hm]
  split
  · simp only [monthStart]
    omega
  · simp only [monthStart, yearStart]
    omega

/-- No period is longer than the longest month. -/
theorem le_previous (hC : C.Gregorian) (h : Starts interval start) (hmin : minUs + 31 * dayUs ≤ start) :
    start - 31 * dayUs ≤ previousBucket C start interval := by
  have hmax := h.le_max
  cases interval with
  | hour | day | week =>
    simp only [previousBucket, saturatingAdd, minI64, maxI64, minUs, maxUs, weekUs, dayUs, hourUs] at *
    omega
  | month =>
    have haligned := h.aligned
    have hdays := dayOf_days start
    have hnext := monthFirst_next_le (monthIndex (start / dayUs) - 1)
    rw [bucketExpr_month] at haligned
    rw [if_pos ⟨by simp only [dayUs, hourUs] at hmin; omega, hmax⟩] at hdays
    rw [Int.sub_add_cancel] at hnext
    have hday : (dayOf start).days = monthFirst (monthIndex (start / dayUs)) := by
      rw [hdays]
      simp only [dayUs, hourUs] at *
      omega
    rw [previousBucket, hC.subMonths_first hday]
    have hdate : -96465292 ≤ monthFirst (monthIndex (start / dayUs) - 1) ∧ monthFirst (monthIndex (start / dayUs) - 1) ≤ 95026236 := by
      have hle := (dayOf start).le_max
      have hmono := monthFirst_lt (monthIndex (start / dayUs) - 1)
      rw [Int.sub_add_cancel] at hmono
      simp only [minUs, dayUs, hourUs] at *
      omega
    rw [Date.ofDays, dif_pos hdate]
    simp only [Option.map_some, Option.getD_some, dateStartUs, dayUs, hourUs] at *
    omega

private theorem sub_le_trunc (hC : C.Gregorian) {us : Int} (hmin : minUs ≤ us) (hmax : us ≤ maxUs) : us - 31 * dayUs ≤ trunc C us interval := by
  cases interval with
  | hour | day | week =>
    simp only [trunc, floorTo, weekOriginUs, weekUs, dayUs, hourUs]
    omega
  | month =>
    have hlt := (monthIndex_spec (us / dayUs)).2
    have hnext := monthFirst_next_le (monthIndex (us / dayUs))
    rw [trunc_eq_bucketExpr hC hmin hmax, bucketExpr_month]
    simp only [dayUs, hourUs] at *
    omega

private theorem startsBack_spec (hC : C.Gregorian) (n : Nat) (h : Starts interval start) (hmin : minUs + n * (31 * dayUs) ≤ start) :
    (startsBack C interval n start).Pairwise (· > ·) ∧ ∀ b ∈ startsBack C interval n start, Starts interval b ∧ b ≤ start ∧
      ∀ ts, minUs ≤ ts → ts ≤ maxUs → bucketExpr interval ts = b → b = start ∨ ts < start := by
  induction n generalizing start with
  | zero => simp [startsBack, h]
  | succ n ih =>
    have hroom : minUs + 31 * dayUs ≤ start ∧ minUs + n * (31 * dayUs) ≤ start - 31 * dayUs := by
      simp only [dayUs, hourUs] at *
      omega
    have hlt := h.previous_lt hC
    have hle := le_previous hC h hroom.1
    obtain ⟨hsorted, hall⟩ := ih (starts_previous hC h (by simp only [dayUs, hourUs] at *; omega)) (hroom.2.trans hle)
    rw [startsBack]
    refine ⟨List.pairwise_cons.mpr ⟨fun b hb => (hall b hb).2.1.trans_lt hlt, hsorted⟩, fun b hb => ?_⟩
    rcases List.mem_cons.mp hb with rfl | hb
    · exact ⟨h, le_rfl, fun _ _ _ _ => .inl rfl⟩
    · obtain ⟨hstarts, hble, hts⟩ := hall b hb
      refine ⟨hstarts, hble.trans hlt.le, fun ts hmin hmax heq => .inr ?_⟩
      rcases hts ts hmin hmax heq with rfl | hts
      · exact ((h.before hC hmin hmax).mp heq).2
      · exact hts.trans hlt

/-- The periods of a plan start buckets, in order, and what is in a bucket of theirs is between the plan's ends. -/
structure Spaced (plan : RetentionPlan) : Prop where
  starts : ∀ b ∈ plan.starts, Starts plan.interval b
  sorted : plan.starts.Pairwise (· < ·)
  within : ∀ b ∈ plan.starts, ∀ ts, minUs ≤ ts → ts ≤ maxUs → bucketExpr plan.interval ts = b → Retention.start plan ≤ ts ∧ ts < plan.endUs

theorem spaced_of_plan (hC : C.Gregorian) {now : DateTime} (hnow : 0 ≤ now.ns) {q : RetentionQuery}
    (hintervals : q.totalIntervals ≤ maxRetentionIntervals) : Spaced (retentionPlan C q.planned now) := by
  have hus : minUs ≤ fromDatetime now ∧ fromDatetime now ≤ maxUs ∧ 0 ≤ fromDatetime now := by
    have hle := now.le_max
    simp only [fromDatetime, minUs, maxUs, maxNs] at *
    omega
  obtain ⟨hstarts, -⟩ := starts_trunc hC hus.1 hus.2.1 q.period.interval
  have htrunc : fromDatetime now - 31 * dayUs ≤ trunc C (fromDatetime now) q.period.interval := sub_le_trunc hC hus.1 hus.2.1
  have hroom : minUs + (q.totalIntervals - 1 : Nat) * (31 * dayUs) ≤ trunc C (fromDatetime now) q.period.interval := by
    simp only [maxRetentionIntervals, minUs, dayUs, hourUs] at *
    omega
  obtain ⟨hsorted, hall⟩ := startsBack_spec hC _ hstarts hroom
  have hplan : (retentionPlan C q.planned now).starts.Pairwise (· < ·) := List.pairwise_reverse.mpr hsorted
  refine ⟨fun b hb => (hall b (List.mem_reverse.mp hb)).1, hplan, fun b hb ts hmin hmax heq => ⟨?_, ?_⟩⟩
  · have hfirst : Retention.start (retentionPlan C q.planned now) ≤ b := by
      rw [Retention.start]
      cases hs : (retentionPlan C q.planned now).starts with
      | nil => simp [hs] at hb
      | cons first rest =>
        rw [hs] at hb hplan
        rcases List.mem_cons.mp hb with rfl | hb
        · exact le_rfl
        · exact ((List.pairwise_cons.mp hplan).1 b hb).le
    exact hfirst.trans (((hall b (List.mem_reverse.mp hb)).1.covers hC hmax).mp heq).1
  · obtain ⟨-, -, hts⟩ := hall b (List.mem_reverse.mp hb)
    rcases hts ts hmin hmax heq with rfl | hts
    · exact ((hstarts.covers hC hmax).mp heq).2
    · exact hts.trans (lt_nextBucket _ hstarts.le_max)

end periods

/-! What the rows of a partition tell. -/
section rows
variable {C : Chrono} {ctx : Ctx} {q : RetentionQuery} {plan : RetentionPlan}

/-- The person performed the event between two instants. -/
def Performed (ctx : Ctx) (q : RetentionQuery) (node : Trends.EventNode) (person : String) (fromUs toUs : Int) : Prop :=
  ∃ e ∈ ctx.events, predicate ctx q node e = true ∧ ctx.person e = person ∧ fromUs ≤ e.ts ∧ e.ts < toUs

/-- The person is in the cohort of a period, and has not been in an earlier one where only the first time counts. -/
def Joins (ctx : Ctx) (q : RetentionQuery) (plan : RetentionPlan) (person : String) (fromUs toUs : Int) : Prop :=
  Performed ctx q q.target person fromUs toUs ∧
    (plan.firstTime = true → ∀ e ∈ ctx.events, predicate ctx q q.target e = true → ctx.person e = person → fromUs ≤ e.ts)

theorem mem_admitted {node : Trends.EventNode} {fromUs : Option Int} {partition : Nat} {e : Event} :
    e ∈ admitted ctx q plan node fromUs partition ↔ e ∈ ctx.events ∧ ((∀ us ∈ fromUs, us ≤ e.ts) ∧ e.ts < plan.endUs) ∧
      predicate ctx q node e = true ∧ partitionClause ctx.hash partition ctx.partitions (ctx.person e) = true := by
  rw [admitted, List.mem_filter, List.mem_filter, Bool.and_eq_true, decide_eq_true_eq, and_assoc]

variable (hC : C.Gregorian) (hp : Spaced plan) {b : Int} (hb : b ∈ plan.starts) {person : String} {partition : Nat}
include hC hp hb

theorem mem_distinctRows {node : Trends.EventNode} : (person, b) ∈ distinctRows ctx q plan node partition ↔
    partitionClause ctx.hash partition ctx.partitions person = true ∧ Performed ctx q node person b (nextBucket C b plan.interval) := by
  rw [distinctRows, (ctx.arrange_perm _).mem_iff, List.mem_dedup, List.mem_map]
  constructor
  · rintro ⟨e, he, heq⟩
    obtain ⟨rfl, hbucket⟩ := Prod.mk.inj heq
    obtain ⟨hevent, -, hpred, hpart⟩ := mem_admitted.mp he
    have hcovers := ((hp.starts b hb).covers hC (ctx.instants e hevent).2).mp hbucket
    exact ⟨hpart, e, hevent, hpred, rfl, hcovers.1, hcovers.2⟩
  · rintro ⟨hpart, e, hevent, hpred, rfl, hfrom, hto⟩
    obtain ⟨hmin, hmax⟩ := ctx.instants e hevent
    have hbucket := ((hp.starts b hb).covers hC hmax).mpr ⟨hfrom, hto⟩
    obtain ⟨hstart, hend⟩ := hp.within b hb e.ts hmin hmax hbucket
    refine ⟨e, mem_admitted.mpr ⟨hevent, ⟨fun us hus => ?_, hend⟩, hpred, hpart⟩, by rw [hbucket]⟩
    cases hus
    exact hstart

theorem mem_firstRows : (person, b) ∈ firstRows ctx q plan partition ↔
    partitionClause ctx.hash partition ctx.partitions person = true ∧ Performed ctx q q.target person b (nextBucket C b plan.interval) ∧
      ∀ e ∈ ctx.events, predicate ctx q q.target e = true → ctx.person e = person → b ≤ e.ts := by
  have hgroup : ∀ g ∈ groups ctx.person (admitted ctx q plan q.target none partition), ∃ e ∈ admitted ctx q plan q.target none partition,
      ctx.person e = g.1 ∧ (g.2.map Event.ts).min?.getD 0 = e.ts ∧
        ∀ e' ∈ admitted ctx q plan q.target none partition, ctx.person e' = g.1 → e.ts ≤ e'.ts := by
    intro g hg
    obtain ⟨⟨a, ha, hkey⟩, hrows⟩ := mem_groups.mp hg
    obtain ⟨first, hfirst⟩ : ∃ first, (g.2.map Event.ts).min? = some first := by
      rw [← Option.isSome_iff_exists, List.isSome_min?_iff, hrows]
      exact List.ne_nil_of_mem (List.mem_map_of_mem (List.mem_filter.mpr ⟨ha, decide_eq_true hkey⟩))
    obtain ⟨hmem, hle⟩ := List.min?_eq_some_iff.mp hfirst
    obtain ⟨e, he, rfl⟩ := List.mem_map.mp hmem
    rw [hrows] at he hle
    obtain ⟨he, hperson⟩ := List.mem_filter.mp he
    refine ⟨e, he, of_decide_eq_true hperson, by rw [hfirst, Option.getD_some], fun e' he' hkey' => ?_⟩
    exact hle _ (List.mem_map_of_mem (List.mem_filter.mpr ⟨he', decide_eq_true hkey'⟩))
  rw [firstRows, (ctx.arrange_perm _).mem_iff, List.mem_map]
  constructor
  · rintro ⟨f, hf, heq⟩
    obtain ⟨hf, hstart⟩ := List.mem_filter.mp hf
    obtain ⟨g, hg, rfl⟩ := List.mem_map.mp hf
    obtain ⟨rfl, hbucket⟩ := Prod.mk.inj heq
    obtain ⟨e, he, hperson, hfirst, hle⟩ := hgroup g hg
    dsimp only at hbucket hperson
    rw [hfirst] at hbucket
    obtain ⟨hevent, ⟨-, hend⟩, hpred, hpart⟩ := mem_admitted.mp he
    have hcovers := ((hp.starts b hb).covers hC (ctx.instants e hevent).2).mp hbucket
    refine ⟨hperson ▸ hpart, ⟨e, hevent, hpred, hperson, hcovers.1, hcovers.2⟩, fun e' hevent' hpred' hperson' => ?_⟩
    by_cases hend' : e'.ts < plan.endUs
    · exact hcovers.1.trans (hle e' (mem_admitted.mpr ⟨hevent', ⟨by simp, hend'⟩, hpred', hperson' ▸ hperson ▸ hpart⟩) hperson')
    · omega
  · rintro ⟨hpart, ⟨e, hevent, hpred, rfl, hfrom, hto⟩, hnever⟩
    have hend := (hp.within b hb e.ts (ctx.instants e hevent).1 (ctx.instants e hevent).2
      (((hp.starts b hb).covers hC (ctx.instants e hevent).2).mpr ⟨hfrom, hto⟩)).2
    have he : e ∈ admitted ctx q plan q.target none partition := mem_admitted.mpr ⟨hevent, ⟨by simp, hend⟩, hpred, hpart⟩
    obtain ⟨g, hg, hkey⟩ : ∃ g ∈ groups ctx.person (admitted ctx q plan q.target none partition), g.1 = ctx.person e := exists_group he
    obtain ⟨first, hadmitted, hperson, hmin, hle⟩ := hgroup g hg
    obtain ⟨hevent', -, hpred', -⟩ := mem_admitted.mp hadmitted
    have hin : b ≤ first.ts ∧ first.ts < nextBucket C b plan.interval :=
      ⟨hnever first hevent' hpred' (hperson.trans hkey), (hle e he hkey.symm).trans_lt hto⟩
    have hbucket := ((hp.starts b hb).covers hC (ctx.instants first hevent').2).mpr hin
    have hstart := (hp.within b hb first.ts (ctx.instants first hevent').1 (ctx.instants first hevent').2 hbucket).1
    refine ⟨(g.1, (g.2.map Event.ts).min?.getD 0), List.mem_filter.mpr ⟨List.mem_map_of_mem hg, ?_⟩, ?_⟩
    · rw [hmin]
      exact decide_eq_true hstart
    · rw [hkey, hmin, hbucket]

theorem mem_targetRows : (person, b) ∈ targetRows ctx q plan partition ↔
    partitionClause ctx.hash partition ctx.partitions person = true ∧ Joins ctx q plan person b (nextBucket C b plan.interval) := by
  rw [targetRows, Joins]
  by_cases hfirst : plan.firstTime = true
  · rw [if_pos hfirst, mem_firstRows hC hp hb]
    simp [hfirst]
  · rw [if_neg hfirst, mem_distinctRows hC hp hb]
    simp [hfirst]

end rows

theorem person_of_distinctRow {ctx : Ctx} {q : RetentionQuery} {plan : RetentionPlan} {node : Trends.EventNode} {partition : Nat} :
    ∀ row ∈ distinctRows ctx q plan node partition, row.1 ∈ ctx.events.map ctx.person := by
  intro row hrow
  rw [distinctRows, (ctx.arrange_perm _).mem_iff, List.mem_dedup] at hrow
  obtain ⟨e, he, rfl⟩ := List.mem_map.mp hrow
  exact List.mem_map_of_mem (mem_admitted.mp he).1

theorem person_of_targetRow {ctx : Ctx} {q : RetentionQuery} {plan : RetentionPlan} {partition : Nat} :
    ∀ row ∈ targetRows ctx q plan partition, row.1 ∈ ctx.events.map ctx.person := by
  intro row hrow
  rw [targetRows] at hrow
  split at hrow
  · rw [firstRows, (ctx.arrange_perm _).mem_iff] at hrow
    obtain ⟨f, hf, rfl⟩ := List.mem_map.mp hrow
    obtain ⟨g, hg, rfl⟩ := List.mem_map.mp (List.mem_filter.mp hf).1
    obtain ⟨⟨e, he, hkey⟩, -⟩ := mem_groups.mp hg
    exact List.mem_map.mpr ⟨e, (mem_admitted.mp he).1, hkey⟩
  · exact person_of_distinctRow row hrow

/-! The persons behind the numbers. -/
section numbers
variable {starts : List Int} {names names' people : List String} {slots slots' : List (List Nat)} {rows done : List (String × Int)}

/-- The persons that the rows put to a period. -/
def noted (starts : List Int) (k : Nat) (rows : List (String × Int)) : List String :=
  (rows.filter fun row => index starts row.2 = some k).map Prod.fst

theorem index_eq_some (h : starts.Nodup) {b : Int} {k : Nat} : index starts b = some k ↔ starts[k]? = some b := by
  have hunique : (starts.zipIdx.reverse.map Prod.fst).Nodup := by
    rw [List.map_reverse, List.nodup_reverse, List.zipIdx_map_fst]
    exact h
  have hget : index starts b = some k ↔ (b, k) ∈ starts.zipIdx.reverse := Table.get_eq_some (t := ⟨_, hunique⟩)
  rw [hget, List.mem_reverse, List.mem_zipIdx_iff_getElem?]

theorem mem_noted (h : starts.Nodup) {k : Nat} {b : Int} (hk : starts[k]? = some b) {person : String} :
    person ∈ noted starts k rows ↔ (person, b) ∈ rows := by
  rw [noted, List.mem_map]
  constructor
  · rintro ⟨row, hrow, rfl⟩
    obtain ⟨hrow, hindex⟩ := List.mem_filter.mp hrow
    have hstart := (index_eq_some h).mp (of_decide_eq_true hindex)
    rw [hk, Option.some.injEq] at hstart
    rw [hstart]
    exact hrow
  · intro hrow
    exact ⟨_, List.mem_filter.mpr ⟨hrow, decide_eq_true ((index_eq_some h).mpr hk)⟩, rfl⟩

/-- The slots of the periods stand for the persons that the rows put there. -/
structure Noted (starts : List Int) (names : List String) (slots : List (List Nat)) (rows : List (String × Int)) : Prop where
  length : slots.length = starts.length
  stands : ∀ k < starts.length, Interned.Stands names (slots.getD k []) (noted starts k rows)

theorem noted_nil : Noted starts names (starts.map fun _ => []) [] := by
  refine ⟨List.length_map _, fun k hk => ?_⟩
  have hslot : (starts.map fun _ => ([] : List Nat)).getD k [] = [] := by
    rw [List.getD_eq_getElem?_getD, List.getElem?_map]
    cases starts[k]? <;> rfl
  rw [hslot]
  exact Interned.stands_nil names

theorem Noted.extend (h : Noted starts names slots rows) (hnodup : names'.Nodup) (hpre : names <+: names') : Noted starts names' slots rows :=
  ⟨h.length, fun k hk => (h.stands k hk).extend hnodup hpre⟩

private theorem getD_modify (f : List Nat → List Nat) (i k : Nat) (hk : k < slots.length) :
    (slots.modify i f).getD k [] = if i = k then f (slots.getD k []) else slots.getD k [] := by
  rw [List.getD_eq_getElem?_getD, List.getElem?_modify, List.getD_eq_getElem?_getD, List.getElem?_eq_getElem hk]
  split <;> rfl

theorem record_noted {add : List Nat → Nat → List Nat} (hadd : ∀ s n m, m ∈ add s n ↔ m ∈ s ∨ m = n) {s : Interned String × List (List Nat)}
    (hs : s.1.Numbered) (hn : Noted starts s.1.names s.2 done) {row : String × Int} (hroom : row.1 ∉ s.1.names → s.1.names.length < 2^32) :
    (record starts add s row).1.Numbered ∧ Noted starts (record starts add s row).1.names (record starts add s row).2 (done ++ [row]) ∧
      s.1.names <+: (record starts add s row).1.names ∧ ∀ n ∈ (record starts add s row).1.names, n ∈ s.1.names ∨ n = row.1 := by
  obtain ⟨hnumbered, hname, hpre, hnames⟩ := hs.intern hroom
  have hnoted : ∀ k, noted starts k (done ++ [row]) = noted starts k done ++ if index starts row.2 = some k then [row.1] else [] := by
    intro k
    rw [noted, List.filter_append, List.map_append, noted]
    congr 1
    by_cases hk : index starts row.2 = some k <;> simp [hk]
  refine ⟨hnumbered, ?_, hpre, hnames⟩
  rw [record]
  cases hi : index starts row.2 with
  | none =>
    refine ⟨hn.length, fun k hk => ?_⟩
    rw [hnoted, hi, if_neg (by simp), List.append_nil]
    exact (hn.stands k hk).extend hnumbered.nodup hpre
  | some i =>
    refine ⟨(List.length_modify _ _ _).trans hn.length, fun k hk => ?_⟩
    have hk' : k < s.2.length := hn.length ▸ hk
    have hstands := (hn.stands k hk).extend hnumbered.nodup hpre
    dsimp only
    rw [hnoted, hi, getD_modify _ i k hk']
    by_cases heq : i = k
    · rw [if_pos heq, if_pos (by rw [heq])]
      exact hstands.add hname (hadd _ _) hnumbered.nodup (by simp)
    · rw [if_neg heq, if_neg (by simpa using heq), List.append_nil]
      exact hstands

private theorem room (hnodup : names.Nodup) (hnames : ∀ n ∈ names, n ∈ people) (hpeople : people.dedup.length ≤ 2^32) {name : String}
    (hname : name ∈ people) : name ∉ names → names.length < 2^32 := by
  intro hnew
  have hsub : name :: names ⊆ people.dedup := by
    intro n hn
    rcases List.mem_cons.mp hn with rfl | hn
    · exact List.mem_dedup.mpr hname
    · exact List.mem_dedup.mpr (hnames n hn)
  have hle := (List.subperm_of_subset (List.nodup_cons.mpr ⟨hnew, hnodup⟩) hsub).length_le
  rw [List.length_cons] at hle
  omega

theorem foldl_record {add : List Nat → Nat → List Nat} (hadd : ∀ s n m, m ∈ add s n ↔ m ∈ s ∨ m = n) (hpeople : people.dedup.length ≤ 2^32)
    (s : Interned String × List (List Nat)) (hs : s.1.Numbered) (hnames : ∀ n ∈ s.1.names, n ∈ people) (hn : Noted starts s.1.names s.2 done)
    (hrows : ∀ row ∈ rows, row.1 ∈ people) :
    (rows.foldl (record starts add) s).1.Numbered ∧
      Noted starts (rows.foldl (record starts add) s).1.names (rows.foldl (record starts add) s).2 (done ++ rows) ∧
      s.1.names <+: (rows.foldl (record starts add) s).1.names ∧ ∀ n ∈ (rows.foldl (record starts add) s).1.names, n ∈ people := by
  induction rows generalizing s done with
  | nil => exact ⟨hs, by rwa [List.append_nil], List.prefix_rfl, hnames⟩
  | cons row rows ih =>
    obtain ⟨hs', hn', hpre, hnew⟩ := record_noted hadd hs hn (room hs.nodup hnames hpeople (hrows row (by simp)))
    have hnames' : ∀ n ∈ (record starts add s row).1.names, n ∈ people := by
      intro n hmem
      rcases hnew n hmem with hmem | rfl
      · exact hnames n hmem
      · exact hrows row (by simp)
    obtain ⟨hs'', hn'', hpre', hnames''⟩ := ih _ hs' hnames' hn' fun row' hrow' => hrows row' (List.mem_cons_of_mem _ hrow')
    rw [List.append_assoc] at hn''
    exact ⟨hs'', hn'', hpre.trans hpre', hnames''⟩

end numbers

section counts
variable {C : Chrono} {ctx : Ctx} {q : RetentionQuery} {plan : RetentionPlan}

theorem pairs_ok {add : List Nat → Nat → List Nat} {rows : List (String × Int)} {s s' : Interned String × List (List Nat)}
    (h : pairs plan.starts add rows s = .ok s') : s' = rows.foldl (record plan.starts add) s := by
  obtain ⟨rows', hrows, h⟩ := bind_ok.mp h
  rw [arrow] at hrows
  split at hrows
  · cases hrows
  · cases hrows
    cases h
    rfl

theorem activityFrom_noted (hpeople : (ctx.events.map ctx.person).dedup.length ≤ 2^32) {parts : List Nat} {a a' : Activity}
    {targets returns : List (String × Int)} (h : activityFrom ctx q plan parts a = .ok a') (hnumbered : a.interned.Numbered)
    (hnames : ∀ n ∈ a.interned.names, n ∈ ctx.events.map ctx.person) (hcohorts : Noted plan.starts a.interned.names a.cohorts targets)
    (hreturning : Noted plan.starts a.interned.names a.returning returns) :
    a'.interned.Numbered ∧ Noted plan.starts a'.interned.names a'.cohorts (targets ++ parts.flatMap (targetRows ctx q plan)) ∧
      Noted plan.starts a'.interned.names a'.returning (returns ++ parts.flatMap (distinctRows ctx q plan q.returning)) := by
  induction parts generalizing a targets returns with
  | nil =>
    cases h
    exact ⟨hnumbered, by simpa using hcohorts, by simpa using hreturning⟩
  | cons partition parts ih =>
    obtain ⟨t, ht, h⟩ := bind_ok.mp h
    obtain ⟨r, hr, h⟩ := bind_ok.mp h
    have hpush : ∀ s n m, m ∈ push s n ↔ m ∈ s ∨ m = n := by simp [push]
    have hinsert : ∀ (s : List Nat) n m, m ∈ s.insert n ↔ m ∈ s ∨ m = n := fun s n m => List.mem_insert_iff.trans or_comm
    obtain ⟨hnumbered', hcohorts', hpre, hnames'⟩ := foldl_record hpush hpeople (a.interned, a.cohorts) hnumbered hnames hcohorts
      person_of_targetRow
    rw [← pairs_ok ht] at hnumbered' hcohorts' hpre hnames'
    obtain ⟨hnumbered'', hreturning', hpre', hnames''⟩ := foldl_record hinsert hpeople (t.1, a.returning) hnumbered' hnames'
      (hreturning.extend hnumbered'.nodup hpre) person_of_distinctRow
    rw [← pairs_ok hr] at hnumbered'' hreturning' hpre' hnames''
    have hrest := ih h hnumbered'' hnames'' (hcohorts'.extend hnumbered''.nodup hpre') hreturning'
    rwa [List.append_assoc, List.append_assoc, ← List.flatMap_cons, ← List.flatMap_cons] at hrest

private theorem mem_destutter' (l : List Nat) (a m : Nat) : m ∈ l.destutter' (· ≠ ·) a ↔ m = a ∨ m ∈ l := by
  induction l generalizing a with
  | nil => simp
  | cons b l ih =>
    rw [List.destutter'_cons]
    split
    · rw [List.mem_cons, ih, List.mem_cons]
    · rename_i hab
      rw [ih, List.mem_cons, ← not_not.mp hab, ← or_assoc, or_self]

theorem sorted_spec (cohort : List Nat) : (sorted cohort).Nodup ∧ ∀ m, m ∈ sorted cohort ↔ m ∈ cohort := by
  have hle := List.pairwise_insertionSort (· ≤ ·) cohort
  constructor
  · have hsub := hle.sublist (List.destutter_sublist (· ≠ ·) _)
    have hchain := List.isChain_destutter (· ≠ ·) (cohort.insertionSort (· ≤ ·))
    have hlt : (sorted cohort).IsChain (· < ·) := List.isChain_iff_getElem.mpr fun i hi =>
      lt_of_le_of_ne (hsub.isChain.getElem i hi) (hchain.getElem i hi)
    exact (List.isChain_iff_pairwise.mp hlt).imp fun hlt => hlt.ne
  · intro m
    have hsame : m ∈ cohort.insertionSort (· ≤ ·) ↔ m ∈ cohort := List.mem_insertionSort _
    rw [← hsame, sorted]
    cases cohort.insertionSort (· ≤ ·) with
    | nil => simp
    | cons a l => rw [List.destutter_cons', mem_destutter', List.mem_cons]

private theorem sorted_nil : sorted [] = [] := List.eq_nil_iff_forall_not_mem.mpr fun m => by simp [(sorted_spec []).2]

/-- The cohorts and the returning persons, by their numbers. -/
theorem activity_noted (hpeople : (ctx.events.map ctx.person).dedup.length ≤ 2^32) {a : Activity} (h : activity ctx q plan = .ok a) :
    a.interned.names.Nodup ∧ (∀ k, (a.cohorts.getD k []).Nodup) ∧
      Noted plan.starts a.interned.names a.cohorts ((List.range ctx.partitions).flatMap (targetRows ctx q plan)) ∧
      Noted plan.starts a.interned.names a.returning ((List.range ctx.partitions).flatMap (distinctRows ctx q plan q.returning)) := by
  obtain ⟨a, ha, h⟩ := bind_ok.mp h
  cases h
  obtain ⟨hnumbered, hcohorts, hreturning⟩ := activityFrom_noted hpeople ha Interned.numbered_empty (by simp [Interned.empty]) noted_nil noted_nil
  have hslot : ∀ k, (a.cohorts.map sorted).getD k [] = sorted (a.cohorts.getD k []) := by
    intro k
    rw [List.getD_eq_getElem?_getD, List.getElem?_map, List.getD_eq_getElem?_getD]
    cases a.cohorts[k]? with
    | none => exact sorted_nil.symm
    | some cohort => rfl
  refine ⟨hnumbered.nodup, fun k => ?_, ⟨(List.length_map _).trans hcohorts.length, fun k hk => ?_⟩, hreturning⟩
  · rw [hslot]
    exact (sorted_spec _).1
  · rw [hslot]
    exact (hcohorts.stands k hk).congr (sorted_spec _).2 fun _ => Iff.rfl

variable (hC : C.Gregorian) (hp : Spaced plan) {k : Nat} {b : Int} (hk : plan.starts[k]? = some b)
include hC hp hk

private theorem mem_targets {person : String} : person ∈ noted plan.starts k ((List.range ctx.partitions).flatMap (targetRows ctx q plan)) ↔
    Joins ctx q plan person b (nextBucket C b plan.interval) := by
  rw [mem_noted (hp.sorted.imp fun h => h.ne) hk, List.mem_flatMap]
  simp only [mem_targetRows hC hp (List.mem_of_getElem? hk)]
  constructor
  · rintro ⟨_, -, -, h⟩
    exact h
  · intro h
    have hlt := partOf_lt ctx person
    exact ⟨partOf ctx person, List.mem_range.mpr hlt, (partitionClause_iff hlt _).mpr rfl, h⟩

private theorem mem_returns {person : String} :
    person ∈ noted plan.starts k ((List.range ctx.partitions).flatMap (distinctRows ctx q plan q.returning)) ↔
      Performed ctx q q.returning person b (nextBucket C b plan.interval) := by
  rw [mem_noted (hp.sorted.imp fun h => h.ne) hk, List.mem_flatMap]
  simp only [mem_distinctRows hC hp (List.mem_of_getElem? hk)]
  constructor
  · rintro ⟨_, -, -, h⟩
    exact h
  · intro h
    have hlt := partOf_lt ctx person
    exact ⟨partOf ctx person, List.mem_range.mpr hlt, (partitionClause_iff hlt _).mpr rfl, h⟩

/-- A cell's numbers are those of its persons, each once. -/
theorem cell_persons (hpeople : (ctx.events.map ctx.person).dedup.length ≤ 2^32) {a : Activity} (h : activity ctx q plan = .ok a) {j : Nat} {b' : Int}
    (hj : plan.starts[k + j]? = some b') :
    ((cell a k j).map fun person => a.interned.names.getD person "").Nodup ∧
      ∀ person, person ∈ ((cell a k j).map fun person => a.interned.names.getD person "") ↔
        Joins ctx q plan person b (nextBucket C b plan.interval) ∧
          (j = 0 ∨ Performed ctx q q.returning person b' (nextBucket C b' plan.interval)) := by
  obtain ⟨hnames, hcohort, hcohorts, hreturning⟩ := activity_noted hpeople h
  have hmembers := hcohorts.stands k (List.getElem?_eq_some_iff.mp hk).1
  have hback := hreturning.stands (k + j) (List.getElem?_eq_some_iff.mp hj).1
  rw [cell]
  by_cases hzero : j = 0
  · rw [if_pos hzero]
    obtain ⟨hnodup, hmem⟩ := hmembers.decode hnames (hcohort k) ""
    refine ⟨hnodup, fun person => (hmem person).trans ((mem_targets hC hp hk).trans ?_)⟩
    simp [hzero]
  · rw [if_neg hzero]
    have hboth : Interned.Stands a.interned.names ((a.cohorts.getD k []).filter fun person => person ∈ a.returning.getD (k + j) [])
        ((noted plan.starts k ((List.range ctx.partitions).flatMap (targetRows ctx q plan))).filter fun person =>
          person ∈ noted plan.starts (k + j) ((List.range ctx.partitions).flatMap (distinctRows ctx q plan q.returning))) :=
      hmembers.inter hback
    obtain ⟨hnodup, hmem⟩ := hboth.decode hnames ((hcohort k).filter _) ""
    refine ⟨hnodup, fun person => (hmem person).trans ?_⟩
    rw [List.mem_filter, decide_eq_true_eq, mem_targets hC hp hk, mem_returns hC hp hj]
    simp [hzero]

end counts

/-- A value of a cohort and the persons behind it: the cohort's members who performed the returning event as many
periods after their own, or all of them. -/
structure Behind (C : Chrono) (ctx : Ctx) (q : RetentionQuery) (plan : RetentionPlan) (cohort offset value : Nat) (persons : List String) : Prop where
  nodup : persons.Nodup
  value : value = persons.length
  mem : ∀ b b', plan.starts[cohort]? = some b → plan.starts[cohort + offset]? = some b' → ∀ person, person ∈ persons ↔
    Joins ctx q plan person b (nextBucket C b plan.interval) ∧
      (offset = 0 ∨ Performed ctx q q.returning person b' (nextBucket C b' plan.interval))
  actors : ∀ b date, plan.starts[cohort]? = some b → parseInstant C date = some b → actors C ctx q plan date offset = .ok persons

/-- Every cohort of an answered query has a value for each period from its own on, the first of which is its size, and
each value is the number of persons its cell stands for, whatever the partitions and the order of the rows. -/
theorem run_counts {C : Chrono} {ctx : Ctx} {q : RetentionQuery} {now : DateTime} {cohorts : List RetentionCohort} (hC : C.Gregorian)
    (hnow : 0 ≤ now.ns) (hintervals : q.totalIntervals ≤ maxRetentionIntervals)
    (hpeople : (ctx.events.map ctx.person).dedup.length ≤ 2^32)
    (h : run ctx q (retentionPlan C q.planned now) = .ok cohorts) :
    cohorts.length = (retentionPlan C q.planned now).starts.length ∧ ∀ k cohort, cohorts[k]? = some cohort →
      k + cohort.values.length = cohorts.length ∧ cohort.values[0]? = some cohort.size ∧
        ∀ j value, cohort.values[j]? = some value → ∃ persons, Behind C ctx q (retentionPlan C q.planned now) k j value persons := by
  have hp := spaced_of_plan hC hnow hintervals
  generalize retentionPlan C q.planned now = plan at h hp ⊢
  obtain ⟨a, ha, h⟩ := bind_ok.mp h
  cases h
  refine ⟨by simp, fun k cohort hk => ?_⟩
  obtain ⟨hlt, rfl⟩ : k < plan.starts.length ∧ cohort = ⟨(a.cohorts.getD k []).length,
      (List.range (plan.starts.length - k)).map fun offset => (cell a k offset).length⟩ := by
    rw [List.getElem?_map, Option.map_eq_some_iff] at hk
    obtain ⟨i, hi, rfl⟩ := hk
    obtain ⟨hlt, rfl⟩ := List.getElem?_eq_some_iff.mp hi
    rw [List.getElem_range]
    exact ⟨by simpa using hlt, rfl⟩
  refine ⟨?_, ?_, fun j value hj => ?_⟩
  · simp only [List.length_map, List.length_range]
    omega
  · simp [cell, Nat.sub_pos_of_lt hlt]
  · obtain ⟨hroom, rfl⟩ : j < plan.starts.length - k ∧ value = (cell a k j).length := by
      rw [List.getElem?_map, Option.map_eq_some_iff] at hj
      obtain ⟨i, hi, rfl⟩ := hj
      obtain ⟨hlt, rfl⟩ := List.getElem?_eq_some_iff.mp hi
      rw [List.getElem_range]
      exact ⟨by simpa using hlt, rfl⟩
    have hfirst := List.getElem?_eq_getElem hlt
    have hlast := List.getElem?_eq_getElem (show k + j < plan.starts.length by omega)
    refine ⟨_, (cell_persons hC hp hfirst hpeople ha hlast).1, (List.length_map _).symm, fun b b' hb hb' => ?_, fun b date hb hdate => ?_⟩
    · rw [hfirst] at hb
      rw [hlast] at hb'
      cases hb
      cases hb'
      exact (cell_persons hC hp hfirst hpeople ha hlast).2
    · have hindex : plan.starts.findIdx? (· = b) = some k := by
        obtain ⟨hlt, hget⟩ := List.getElem?_eq_some_iff.mp hb
        refine List.findIdx?_eq_some_iff_getElem.mpr ⟨hlt, decide_eq_true hget, fun i hi heq => ?_⟩
        have hsame : plan.starts[i] = plan.starts[k] := (of_decide_eq_true heq).trans hget.symm
        have hnodup : plan.starts.Nodup := hp.sorted.imp fun h => h.ne
        exact hi.ne (hnodup.getElem_inj_iff.mp hsame)
      rw [Retention.actors, hdate, Option.bind_some, hindex]
      dsimp only
      rw [if_neg (by omega), ha]
      rfl

section sample

/-- Of two who came on the first of three days, one returns on the second. -/
def sampleCtx : Ctx where
  events := [⟨"visit", 1784505600000005, "a", none, ""⟩, ⟨"visit", 1784505600000006, "b", none, ""⟩, ⟨"visit", 1784592000000005, "a", none, ""⟩]
  overrides _ := none
  eventText _ _ := none
  personText _ _ := none
  quantity _ _ := none
  arrange := id
  arrange_perm := Trends.perm_id
  instants := by decide
  hash name := name.length
  partitions := 2
  partitions_pos := Nat.two_pos

def sampleQuery : RetentionQuery := ⟨⟨none, [], .total, fun _ => none⟩, ⟨none, [], .total, fun _ => none⟩, .day, 3, .firstTime, []⟩

theorem sample_counts : ∃ persons, Behind Chrono.small sampleCtx sampleQuery (retentionPlan Chrono.small sampleQuery.planned Small.noon) 1 1 1 persons := by
  have h : run sampleCtx sampleQuery (retentionPlan Chrono.small sampleQuery.planned Small.noon) =
      .ok [⟨0, [0, 0, 0]⟩, ⟨2, [2, 1]⟩, ⟨0, [0]⟩] := by decide +kernel
  exact ((run_counts Chrono.small_gregorian (by decide) (by decide) (by decide) h).2 1 _ rfl).2.2 1 1 rfl

end sample

end Hoglet.Query.Retention
