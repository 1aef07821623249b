import Hoglet.Query.Funnels.Gather
import Hoglet.Runs

/-! Paths: the most common transitions between consecutive nodes, and the persons whose path has one. -/
namespace Hoglet.Query.Paths
open Funnels (Row arrowStreaming partitionClause)

inductive PathsType where
  | pageviews | customEvents | all
  deriving DecidableEq, Repr

structure PathsQuery where
  pathsType : PathsType
  startPoint : Option String
  endPoint : Option String
  stepLimit : UInt32
  edgeLimit : UInt32
  dateRange : DateRange
  filters : Row → Bool

/-- What the plan of a query depends on. -/
def PathsQuery.planned (q : PathsQuery) : Query.PathsQuery := ⟨q.dateRange⟩

/-- The query's connection, with the column of the path names, and the order of a map's entries. -/
structure Ctx extends Funnels.Ctx where
  pathname : Row → Option String
  iterate : {α : Type} → List α → List α
  iterate_perm : ∀ {α : Type} (entries : List α), (iterate entries).Perm entries

/-- A step, the node it leads from and the one it leads to. -/
abbrev Key := Nat × String × String

/-- Persons and microseconds by link. -/
abbrev Links := List (Key × Nat × Int)

structure PathLink where
  source : String
  target : String
  value : Nat
  averageConversionTimeS : Rat
  deriving DecidableEq

/-- Consecutive repeats collapse to the first of them. -/
def collapse (nodes : List (String × Int)) : List (String × Int) :=
  nodes.foldl (fun path node => if path.getLast?.map Prod.fst ≠ some node.1 then path ++ [node] else path) []

section links
variable (q : PathsQuery)

/-- The path from its start point, if it has one. -/
def fromStart (path : List (String × Int)) : Option (List (String × Int)) :=
  match q.startPoint with
  | none => some path
  | some start => (path.findIdx? fun node => node.1 = start).map path.drop

/-- The path to its end point, if it has one. -/
def toEnd (path : List (String × Int)) : Option (List (String × Int)) :=
  match q.endPoint with
  | none => some path
  | some stop => (path.findIdx? fun node => node.1 = stop).map fun index => path.take (index + 1)

/-- One person's links after collapsing repeats, applying the start and end points and cutting. -/
def pathLinks (nodes : List (String × Int)) : List (Key × Int) :=
  match (fromStart q (collapse nodes)).bind (toEnd q) with
  | none => []
  | some path =>
    let path := path.take q.stepLimit.toNat
    (path.zip path.tail).mapIdx fun step pair => ((step, pair.1.1, pair.2.1), pair.2.2 - pair.1.2)

def addLink (key : Key) (micros : Int) : Links → Links
  | [] => [(key, 1, micros)]
  | (k, value, total) :: rest => if k = key then (k, value + 1, total + micros) :: rest else (k, value, total) :: addLink key micros rest

/-- Collapse, cut and link one person's nodes. -/
def addPath (nodes : List (String × Int)) (links : Links) : Links :=
  (pathLinks q nodes).foldl (fun links link => addLink link.1 link.2 links) links

def label (step : Nat) (name : String) : String := toString step ++ "_" ++ name

def pathLink (entry : Key × Nat × Int) : PathLink where
  source := label (entry.1.1 + 1) entry.1.2.1
  target := label (entry.1.1 + 2) entry.1.2.2
  value := entry.2.1
  averageConversionTimeS := (entry.2.2 : Rat) / entry.2.1 / 1000000

/-- By value, largest first, then by source, then by target. -/
def linkLe (a b : PathLink) : Bool :=
  b.value < a.value ∨ a.value = b.value ∧ (a.source < b.source ∨ a.source = b.source ∧ a.target ≤ b.target)

def finish (ctx : Ctx) (links : Links) : List PathLink :=
  (((ctx.iterate links).map pathLink).mergeSort linkLe).take q.edgeLimit.toNat

end links

section scan
variable (ctx : Ctx) (q : PathsQuery)

/-- The node of an event, `NULL` where it has none. -/
def node (row : Row) : Option String :=
  let pageview := if row.event = "$pageview" then ctx.pathname row else none
  let custom := if row.event.toList.head? ≠ some '$' then some row.event else none
  match q.pathsType with
  | .pageviews => pageview
  | .customEvents => custom
  | .all => if row.event = "$pageview" then ctx.pathname row else custom

/-- What a partition's query selects. -/
def selects (partition : Nat) (row : Row) : Bool :=
  q.filters row && partitionClause ctx.hash partition ctx.partitions row && (node ctx q row).isSome

def push (nodes : List (String × Int)) (row : Row) : List (String × Int) := nodes ++ [((node ctx q row).getD "", row.ts)]

/-- Stream every person's ordered nodes to `each`. -/
def scanFrom {σ : Type} (each : σ → String → List (String × Int) → σ) : List Nat → σ → Except String σ
  | [], state => .ok state
  | partition :: rest, state => do
    let s ← arrowStreaming ctx.toCtx (selects ctx q partition) .person
      (List.foldl (Stream.step Row.person (fun _ => []) (push ctx q) each)) ⟨state, none⟩
    scanFrom each rest (s.finish each)

def scan {σ : Type} (each : σ → String → List (String × Int) → σ) (state : σ) : Except String σ :=
  scanFrom ctx q each (List.range ctx.partitions) state

def run : Except String (List PathLink) := do
  let links ← scan ctx q (fun links _ nodes => addPath q nodes links) []
  return finish q ctx links

/-- Persons whose path contains the link. -/
def actors (source target : String) : Except String (List String) :=
  match parseNode source, parseNode target with
  | some (step, first), some (next, second) =>
    if next ≠ step + 1 then .error "a path link joins consecutive steps"
    else
      scan ctx q (fun people person nodes =>
        if (pathLinks q nodes).any fun link => link.1.1 = step ∧ link.1.2.1.toList = first ∧ link.1.2.2.toList = second then people ++ [person]
        else people) []
  | _, _ => .error "a path link names two step-prefixed nodes"

end scan
end Hoglet.Query.Paths
