import Hoglet.Query.Numeric
import Hoglet.Query.Paths.Scan
import Hoglet.Query.Relation
import Hoglet.Regions

/-! The SQL text of queries: no request value is ever spliced into it. Values are bound, and the keys of properties are
quoted as JSON pointers. -/
namespace Hoglet.Query.Sql
open Json Hoglet.Lake Paths Regions

def maxValueBytes : Nat := 2000
def maxFilterValues : Nat := 100
def numericPatternText : String := "-?[0-9]+(\\.[0-9]+)?([eE][-+]?[0-9]+)?"

/-- A bound value. -/
inductive Param (F : Type) where
  | text (text : String)
  | bigInt (value : Int)
  | double (value : F)
  | timestamp (us : Int)
  deriving DecidableEq

/-- Builds a statement; its state is the positional parameters. -/
abbrev Build (F : Type) := StateT (List (Param F)) (Except QueryError)

namespace Params
variable {F : Type}

/-- Bind a value; returns its placeholder. -/
def bind (value : Param F) : Build F String := do
  modify (· ++ [value])
  return "$" ++ toString (← get).length

def text (text : String) : Build F String := bind (.text text)

def int (value : Int) : Build F String := bind (.bigInt value)

def double (value : F) : Build F String := bind (.double value)

/-- An instant usable against `TIMESTAMPTZ` columns. -/
def instant (us : Int) : Build F String := do
  return (← bind (.timestamp us)) ++ "::TIMESTAMPTZ"

end Params

/-- A SQL string literal. Only for server-controlled text and escaped JSON pointers. -/
def stringLiteral (text : String) : Except QueryError String :=
  if '\x00' ∈ text.toList then .error (.invalid "text must not contain NUL characters")
  else .ok ("'" ++ String.ofList (text.toList.flatMap fun c => if c = '\'' then [c, c] else [c]) ++ "'")

/-- RFC 6901 pointer to a top-level member, as a SQL literal. -/
def jsonPointerLiteral (key : String) : Except QueryError String := do
  stringLiteral (String.ofList (← Query.jsonPointerLiteral key))

inductive PropertyOperator where
  | exact | isNot | icontains | notIcontains | regex | notRegex | gt | gte | lt | lte | isSet | isNotSet
  | isDateBefore | isDateAfter
  deriving DecidableEq, Repr

structure PropertyFilter (ν : Type) extends Query.PropertyFilter where
  operator : PropertyOperator
  value : Value ν

structure EventNode (ν : Type) where
  event : Option String
  properties : List (PropertyFilter ν)
  math : Math
  mathProperty : Option String

/-- The event relation of one query: the paths of its files, which columns they have, and the person property keys
that are loaded into temp tables. -/
structure Source where
  files : List String
  schema : EventSchema
  projectId : String
  personKeys : List String

/-- How filter values are read: numbers as texts and as floats, and instants. -/
structure Reader (ν F : Type) where
  chrono : Chrono
  floats : Floats F
  asF64 : ν → Option F
  print : ν → String

section values
variable {ν F : Type} (R : Reader ν F)

/-- Text form of a scalar filter value. -/
def scalarText : Value ν → Option String
  | .string text => some text
  | .number number => some (R.print number)
  | .bool flag => some (if flag then "true" else "false")
  | _ => none

def checkValueSize (text : String) : Except QueryError Unit :=
  if maxValueBytes < text.utf8ByteSize then .error (.invalid "filter values are limited to 2000 bytes") else .ok ()

def required (message : String) (value : Option String) : Except QueryError String :=
  match value with
  | some text => .ok text
  | none => .error (.invalid message)

/-- The texts of a list of values, or of a single one. -/
def valueTexts (value : Value ν) : Except QueryError (List String) :=
  match value with
  | .array items =>
    if items.length = 0 ∨ maxFilterValues < items.length then .error (.invalid "filter value lists need 1 to 100 values")
    else items.mapM fun item => required "filter values must be scalars" (scalarText R item)
  | other => (required "filter value is required" (scalarText R other)).map fun text => [text]

def filterTexts (value : Value ν) : Except QueryError (List String) := do
  let values ← valueTexts R value
  values.forM checkValueSize
  return values

def filterScalar (value : Value ν) : Except QueryError String := do
  let text ← required "this operator needs a single scalar value" (scalarText R value)
  checkValueSize text
  return text

def filterInstant (value : Value ν) : Except QueryError Int :=
  match value with
  | .string text =>
    match parseInstant R.chrono text with
    | some us => .ok us
    | none => .error (.invalid "date operators need an ISO 8601 date or datetime")
  | _ => .error (.invalid "date operators need an ISO 8601 date or datetime")

end values

/-! Expressions over a text. -/

/-- Numeric value of a property text, `NULL` unless strictly decimal. -/
def numericExpr (text : String) : String :=
  "(CASE WHEN regexp_full_match(" ++ text ++ (", '" ++ numericPatternText ++ "') THEN TRY_CAST(") ++ text ++ " AS DOUBLE) END)"

def breakdownNone : String := "$$_none"
def breakdownOther : String := "$$_other"

/-- Breakdown text: missing and empty values become `$$_none`. -/
def breakdownExpr (text : String) : String :=
  "coalesce(NULLIF(" ++ text ++ (", ''), '" ++ breakdownNone ++ "')")

def floorExpr (ts : String) (unit origin : Int) : String :=
  "(" ++ ts ++ " - (((" ++ ts ++ " - (" ++ toString origin ++ ")) % " ++ toString unit ++ ") + " ++ toString unit ++ ") % " ++
    toString unit ++ ")"

/-- Start (µs) of the bucket containing `ts`. -/
def bucketExpr (interval : Interval) (ts : String) : String :=
  match interval with
  | .hour => floorExpr ts hourUs 0
  | .day => floorExpr ts dayUs 0
  | .week => floorExpr ts weekUs weekOriginUs
  | .month => "epoch_us(date_trunc('month', make_timestamp(" ++ ts ++ ")))"

/-- SQL selecting one person-hash partition. -/
def partitionClause (partition partitions : Nat) : String :=
  if partitions ≤ 1 then "TRUE" else "hash(person_id) % " ++ toString partitions ++ " = " ++ toString partition

/-- Event-name match of a series or step. -/
def eventMatch {ν F : Type} (node : EventNode ν) : Build F String :=
  match node.event with
  | some name => do return "(event = " ++ (← Params.text name) ++ ")"
  | none => return "TRUE"

namespace Source
variable {ν F : Type} (R : Reader ν F) (s : Source)

/-- The column of a promoted property, or what the files without it have in its place. -/
def promotedCell (index : Nat) (column source : String) : Except QueryError String :=
  if s.schema.promotedPresent.getD index false then .ok ("e." ++ column ++ " AS " ++ column)
  else do
    let pointer ← jsonPointerLiteral source
    return "NULLIF(CASE WHEN json_type(e.properties, " ++ pointer ++
      ") IN ('OBJECT', 'ARRAY') THEN NULL ELSE json_extract_string(e.properties, " ++ pointer ++ ") END, '') AS " ++ column

def emptyColumns : List String :=
  ["NULL::VARCHAR AS event", "NULL::BIGINT AS ts", "NULL::VARCHAR AS uuid", "NULL::VARCHAR AS distinct_id", "NULL::VARCHAR AS properties"] ++
    promoted.map (fun p => "NULL::VARCHAR AS " ++ p.1) ++ ["NULL::VARCHAR AS person_id"]

def eventColumns : List String :=
  ["e.event AS event", "epoch_us(e.timestamp) AS ts", "e.uuid AS uuid", "e.distinct_id AS distinct_id", "e.properties AS properties"]

def person : String := "coalesce(o.person_id, e.distinct_id)"

/-- The identity of the events' distinct ids, where it is asked for. -/
def overridesJoin (withPerson : Bool) : Build F String :=
  if withPerson then do
    return " LEFT JOIN (SELECT distinct_id, person_id FROM main.person_overrides WHERE project_id = " ++ (← Params.text s.projectId) ++
      ") o ON o.distinct_id = e.distinct_id"
  else pure ""

/-- The temp table of a person property, which is also its column. -/
def loaded (index : Nat) : String := "pp_" ++ toString index

def joined (index : Nat) : String := "pp" ++ toString index

def personJoin (index : Nat) : String :=
  " LEFT JOIN " ++ loaded index ++ " " ++ joined index ++ " ON " ++ joined index ++ (".person_id = " ++ person)

def personColumn (index : Nat) : String := joined index ++ ".value AS " ++ loaded index

/-- An end of the range of time, where there is one. -/
def bound (test : String) (us : Option Int) : Build F (List String) :=
  match us with
  | some us => do return [test ++ (← Params.instant us)]
  | none => return []

/-- The relation over no files. -/
def emptyRelation : String :=
  "SELECT " ++ ", ".intercalate (emptyColumns ++ (List.range s.personKeys.length).map fun index => "NULL::VARCHAR AS " ++ loaded index) ++
    " WHERE false"

def columns (cells : List String) (withPerson : Bool) : List String :=
  eventColumns ++ cells ++ (if withPerson then [person ++ " AS person_id"] else []) ++ (List.range s.personKeys.length).map personColumn

def whereClause (conditions : List String) : String :=
  if conditions = [] then "" else " WHERE " ++ " AND ".intercalate conditions

def fileRelation (fromUs toUs : Option Int) (withPerson : Bool) : Build F String := do
  let cells ← promoted.zipIdx.mapM fun cell => (liftM (s.promotedCell cell.2 cell.1.1 cell.1.2) : Build F String)
  let overrides ← s.overridesJoin withPerson
  let joins := ((List.range s.personKeys.length).map personJoin).foldl (· ++ ·) overrides
  let files ← s.files.mapM fun path => (liftM (stringLiteral path) : Build F String)
  let lower ← bound "e.timestamp >= " fromUs
  let upper ← bound "e.timestamp < " toUs
  return "SELECT " ++ ", ".intercalate (s.columns cells withPerson) ++ " FROM read_parquet([" ++ ", ".intercalate files ++
    "], union_by_name = true) e" ++ joins ++ whereClause (lower ++ upper)

/-- A relation with columns `event, ts (µs), uuid, distinct_id, properties, <promoted…>, [person_id, pp_<i>…]` restricted to
`[from, to)` when given. -/
def relation (fromUs toUs : Option Int) (withPerson : Bool) : Build F String :=
  if s.files.isEmpty then pure s.emptyRelation else s.fileRelation fromUs toUs (withPerson || !s.personKeys.isEmpty)

/-- Text of a property on the `ev` relation (`NULL` when missing). -/
def propertyText (source : PropertySource) (key : String) : Except QueryError String := do
  validateKey key
  match source with
  | .event =>
    match promotedColumn key with
    | some column => pure column
    | none => (jsonPointerLiteral key).map fun pointer => "json_extract_string(properties, " ++ pointer ++ ")"
  | .person =>
    match s.personKeys.idxOf? key with
    | some index => pure (loaded index)
    | none => .error (.internal "person property was not loaded")

def positive (sql : String) : String := "coalesce(" ++ sql ++ ", false)"
def negative (sql : String) : String := "(NOT coalesce(" ++ sql ++ ", false))"

/-- `text` is one of the values. -/
def inTest (text : String) (value : Value ν) : Build F String := do
  let values ← (filterTexts R value : Except QueryError _)
  let placeholders ← values.mapM Params.text
  return text ++ " IN (" ++ ", ".intercalate placeholders ++ ")"

def containsTest (text : String) (value : Value ν) : Build F String := do
  let value ← (filterScalar R value : Except QueryError _)
  return "contains(lower(" ++ text ++ "), lower(" ++ (← Params.text value) ++ "))"

def regexTest (text : String) (value : Value ν) : Build F String := do
  let value ← (filterScalar R value : Except QueryError _)
  return "regexp_matches(" ++ text ++ ", " ++ (← Params.text value) ++ ")"

def numberTest (text op : String) (value : Value ν) : Build F String := do
  let value ← (filterNumber R.floats R.asF64 value : Except QueryError _)
  return numericExpr text ++ op ++ (← Params.double value)

def instantTest (text op : String) (value : Value ν) : Build F String := do
  let us ← (filterInstant R value : Except QueryError _)
  return "TRY_CAST(" ++ text ++ " AS TIMESTAMPTZ)" ++ op ++ (← Params.instant us)

def filter (filter : PropertyFilter ν) : Build F String := do
  let text ← (s.propertyText filter.source filter.key : Except QueryError String)
  match filter.operator with
  | .exact => positive <$> inTest R text filter.value
  | .isNot => negative <$> inTest R text filter.value
  | .icontains => positive <$> containsTest R text filter.value
  | .notIcontains => negative <$> containsTest R text filter.value
  | .regex => positive <$> regexTest R text filter.value
  | .notRegex => negative <$> regexTest R text filter.value
  | .gt => positive <$> numberTest R text " > " filter.value
  | .gte => positive <$> numberTest R text " >= " filter.value
  | .lt => positive <$> numberTest R text " < " filter.value
  | .lte => positive <$> numberTest R text " <= " filter.value
  | .isSet => return "(" ++ text ++ " IS NOT NULL)"
  | .isNotSet => return "(" ++ text ++ " IS NULL)"
  | .isDateBefore => positive <$> instantTest R text " < " filter.value
  | .isDateAfter => positive <$> instantTest R text " > " filter.value

/-- `TRUE` when every filter holds. -/
def filters (filters : List (PropertyFilter ν)) : Build F String := do
  let parts ← filters.mapM (s.filter R)
  return " AND ".intercalate ("TRUE" :: parts)

end Source

/-! The statements of the insights. -/
section statements
variable {ν F : Type} (R : Reader ν F) (s : Source) (properties : List (PropertyFilter ν))

/-- The events of a series or step. -/
def predicate (node : EventNode ν) : Build F String := do
  let event ← eventMatch node
  let own ← s.filters R node.properties
  let all ← s.filters R properties
  return event ++ " AND " ++ own ++ " AND " ++ all

namespace Retention

/-- The persons of a first-time query, whose first event of all time is in the range. -/
def firstTimes (node : EventNode ν) (interval : Interval) (startUs endUs : Int) (partition partitions : Nat) : Build F String := do
  let relation ← s.relation none (some endUs) true
  let pred ← predicate R s properties node
  let start ← Params.int startUs
  return "WITH ev AS (" ++ relation ++ "), f AS (SELECT person_id, min(ts) AS first_ts FROM ev WHERE " ++ pred ++ " AND " ++
    partitionClause partition partitions ++ " GROUP BY person_id) SELECT person_id, " ++ bucketExpr interval "first_ts" ++
    " FROM f WHERE first_ts >= " ++ start

/-- The periods in which persons performed an event. -/
def pairs (node : EventNode ν) (interval : Interval) (startUs endUs : Int) (partition partitions : Nat) : Build F String := do
  let relation ← s.relation (some startUs) (some endUs) true
  let pred ← predicate R s properties node
  return "WITH ev AS (" ++ relation ++ ") SELECT DISTINCT person_id, " ++ bucketExpr interval "ts" ++ " FROM ev WHERE " ++ pred ++
    " AND " ++ partitionClause partition partitions

end Retention

namespace Stickiness

def perPerson (node : EventNode ν) (range : ResolvedRange) : Build F String := do
  let relation ← s.relation (some range.fromUs) (some range.toUs) true
  let pred ← predicate R s properties node
  return "WITH ev AS (" ++ relation ++ ") SELECT person_id, count(DISTINCT " ++ bucketExpr range.interval "ts" ++
    ") AS n FROM ev WHERE " ++ pred ++ " GROUP BY person_id"

def run (node : EventNode ν) (range : ResolvedRange) : Build F String := do
  let inner ← perPerson R s properties node range
  return "SELECT n, count(*) FROM (" ++ inner ++ ") GROUP BY n"

def actors (node : EventNode ν) (range : ResolvedRange) (intervals : Nat) : Build F String := do
  let inner ← perPerson R s properties node range
  let intervals ← Params.int intervals
  return "SELECT person_id FROM (" ++ inner ++ ") WHERE n = " ++ intervals ++ " ORDER BY person_id"

end Stickiness

/-- Every person's active buckets and first event. -/
def Lifecycle.classify (node : EventNode ν) (interval : Interval) (previousUs endUs : Int) (partition partitions : Nat) : Build F String := do
  let relation ← s.relation none (some endUs) true
  let pred ← predicate R s properties node
  let previous ← Params.int previousUs
  return "WITH ev AS (" ++ relation ++ "), m AS (SELECT person_id, ts FROM ev WHERE " ++ pred ++ " AND " ++
    partitionClause partition partitions ++ ("), f AS (SELECT person_id, min(ts) AS first_ts FROM m GROUP BY person_id), " ++
    "a AS (SELECT DISTINCT person_id, ") ++ bucketExpr interval "ts" ++ " AS b FROM m WHERE ts >= " ++ previous ++
    (") SELECT a.person_id, a.b, f.first_ts FROM a JOIN f USING (person_id) " ++ "ORDER BY a.person_id")

namespace Paths

def node : PathsType → String
  | .pageviews => "CASE WHEN event = '$pageview' THEN pathname END"
  | .customEvents => "CASE WHEN NOT starts_with(event, '$') THEN event END"
  | .all => "CASE WHEN event = '$pageview' THEN pathname WHEN NOT starts_with(event, '$') THEN event END"

/-- Every person's nodes in order. -/
def scan (pathsType : PathsType) (range : ResolvedRange) (partition partitions : Nat) : Build F String := do
  let relation ← s.relation (some range.fromUs) (some range.toUs) true
  let filters ← s.filters R properties
  return "WITH ev AS (" ++ relation ++ "), x AS (SELECT person_id, ts, uuid, " ++ node pathsType ++ " AS node FROM ev WHERE " ++ filters ++
    " AND " ++ partitionClause partition partitions ++
    (") SELECT person_id, node, ts FROM x WHERE node IS NOT NULL " ++ "ORDER BY person_id, ts, uuid")

end Paths

namespace Trends

def breakdownText (breakdown : Query.Breakdown) : Except QueryError String :=
  (s.propertyText breakdown.source breakdown.property).map breakdownExpr

def topValues (node : EventNode ν) (range : ResolvedRange) (breakdown : Query.Breakdown) (limit : Nat) : Build F String := do
  let text ← (breakdownText s breakdown : Except QueryError String)
  let relation ← s.relation (some range.fromUs) (some range.toUs) false
  let pred ← predicate R s properties node
  let limit ← Params.int (limit + 1)
  return "WITH ev AS (" ++ relation ++ ") SELECT bd, count(*) AS c FROM (SELECT " ++ text ++ " AS bd FROM ev WHERE " ++ pred ++
    ") GROUP BY bd ORDER BY c DESC, bd ASC LIMIT " ++ limit

/-- Breakdown expression with non-top values folded into `$$_other`. -/
def mappedBreakdown (text : String) (top : List String) : Build F String :=
  if top = [] then pure ("'" ++ breakdownOther ++ "'")
  else do
    let placeholders ← top.mapM Params.text
    return "(CASE WHEN " ++ text ++ " IN (" ++ ", ".intercalate placeholders ++ ") THEN " ++ text ++ (" ELSE '" ++ breakdownOther ++ "' END)")

/-- `bd`: `NULL` without a breakdown. -/
def breakdownColumn (text : Option String) (top : Option (List String)) : Build F String :=
  match text, top with
  | some text, some top => mappedBreakdown text top
  | _, _ => pure "NULL::VARCHAR"

/-- The number of a property. -/
def propertyExpr (node : EventNode ν) : Except QueryError String :=
  match node.mathProperty with
  | none => .error (.invalid "property maths need `math_property`")
  | some key => (s.propertyText .event key).map numericExpr

def valueExpr (node : EventNode ν) : Except QueryError String :=
  match node.math with
  | .total | .weeklyActive | .monthlyActive => .ok "NULL"
  | .dau => .ok "person_id"
  | .uniqueSession => .ok "session_id"
  | _ => propertyExpr s node

def aggregate : Math → String
  | .total | .weeklyActive | .monthlyActive => "count(*)"
  | .dau | .uniqueSession => "count(DISTINCT v)"
  | .sum => "sum(v)"
  | .avg => "avg(v)"
  | .min => "min(v)"
  | .max => "max(v)"
  | .median => "quantile_cont(v, 0.5)"
  | .p90 => "quantile_cont(v, 0.9)"
  | .p95 => "quantile_cont(v, 0.95)"
  | .p99 => "quantile_cont(v, 0.99)"

def needsPerson (math : Math) : Bool := math = .dau || math = .weeklyActive || math = .monthlyActive

/-- One aggregate for each bucket and for the whole range; a breakdown comes with its top values. -/
def compute (node : EventNode ν) (range : ResolvedRange) (breakdown : Option (Query.Breakdown × List String)) : Build F String := do
  let text ← (breakdown.mapM fun b => breakdownText s b.1 : Except QueryError (Option String))
  let relation ← s.relation (some range.fromUs) (some range.toUs) (needsPerson node.math)
  let pred ← predicate R s properties node
  let bd ← breakdownColumn text (breakdown.map Prod.snd)
  let value ← (valueExpr s node : Except QueryError String)
  -- The breakdown stands before the predicate, whose values are bound first.
  return "WITH ev AS (" ++ relation ++ "), x AS (SELECT " ++ bucketExpr range.interval "ts" ++ " AS b, " ++
    (bd ++ " AS bd, " ++ value ++ " AS v FROM ev WHERE " ++ pred) ++ ") SELECT GROUPING(b) = 1 AS whole, b, bd, (" ++
    aggregate node.math ++ ")::DOUBLE AS value FROM x GROUP BY GROUPING SETS ((b, bd), (bd))"

end Trends

end statements

end Hoglet.Query.Sql
