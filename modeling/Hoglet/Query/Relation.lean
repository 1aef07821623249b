import Hoglet.Lake.Parquet
import Hoglet.Query.Plans

/-! The event relation of a query: which promoted columns a set of files has, and where each column's value comes
from. -/
namespace Hoglet.Query
open Json Hoglet.Lake

def maxKeyBytes : Nat := 400

def validateKey (key : String) : Except QueryError Unit :=
  if maxKeyBytes < key.utf8ByteSize then .error (.invalid "property keys are limited to 400 bytes")
  else if '\x00' ∈ key.toList then .error (.invalid "property keys must not contain NUL")
  else .ok ()

def escapePointer (key : List Char) : List Char :=
  key.flatMap fun c => if c = '~' then ['~', '0'] else if c = '/' then ['~', '1'] else [c]

/-- The pointer to a top-level member, before it is quoted. -/
def jsonPointerLiteral (key : String) : Except QueryError (List Char) := do
  validateKey key
  return '/' :: escapePointer key.toList

def unescapePointer : List Char → List Char
  | '~' :: '0' :: rest => '~' :: unescapePointer rest
  | '~' :: '1' :: rest => '/' :: unescapePointer rest
  | c :: rest => c :: unescapePointer rest
  | [] => []

section duck
variable {ν : Type}

/-- The member that an RFC 6901 pointer of one token names; the queries write no other pointers. -/
def jsonMember (properties : Map ν) : List Char → Option (Value ν)
  | '/' :: token => if '/' ∈ token then none else properties.get (String.ofList (unescapePointer token))
  | _ => none

/-- The texts of DuckDB's JSON reader: what it prints of the containers, and of the numbers. -/
structure JsonTexts (ν : Type) where
  number : ν → String
  container : Value ν → String

variable (texts : JsonTexts ν)

/-- `json_extract_string`; a JSON `null` has no text. -/
def jsonExtractString (properties : Map ν) (pointer : List Char) : Option String :=
  match jsonMember properties pointer with
  | none | some .null => none
  | some (.string text) => some text
  | some (.number number) => some (texts.number number)
  | some (.bool flag) => some (if flag then "true" else "false")
  | some value => some (texts.container value)

/-- `json_type(…) IN ('OBJECT', 'ARRAY')`. -/
def isContainer (properties : Map ν) (pointer : List Char) : Bool :=
  match jsonMember properties pointer with
  | some (.array _) | some (.object _) => true
  | _ => false

def nullIf (text : Option String) (value : String) : Option String := if text = some value then none else text

/-- The column of a set of files that all predate its promotion. -/
def derivedColumn (properties : Map ν) (source : String) : Except QueryError (Option String) := do
  let pointer ← jsonPointerLiteral source
  return nullIf (if isContainer properties pointer then none else jsonExtractString texts properties pointer) ""

end duck

/-- Which promoted columns physically exist in a file set. -/
structure EventSchema where
  promotedPresent : List Bool
  deriving DecidableEq, Repr

def EventSchema.complete : EventSchema := ⟨promoted.map fun _ => true⟩

def EventSchema.fromColumns (columns : List String) : EventSchema :=
  ⟨promoted.map fun (column, _) => columns.any (· = column)⟩

/-- A row of the relation. -/
structure EventRow (ν U : Type) where
  event : String
  ts : Int
  uuid : U
  distinctId : String
  properties : Map ν
  promoted : List (String × Option String)
  /-- There when the query asks for persons. -/
  personId : Option String
  /-- One value for each of the query's person keys. -/
  persons : List (Option String)

/-- The event relation of one query: files, identity, person properties. -/
structure Source (ν U : Type) where
  files : List (ParquetFile ν U)
  schema : EventSchema
  projectId : String
  /-- Person property keys, each with its rows of person and value. -/
  personKeys : List (String × List (String × String))

/-- The rows a left join gives a key: `NULL` when the table has none. -/
def leftJoin (table : List (String × String)) (key : String) : List (Option String) :=
  match table.filter (·.1 = key) with
  | [] => [none]
  | found => found.map fun row => some row.2

/-- One left join after the other, all by the same key. -/
def leftJoins (tables : List (List (String × String))) (key : String) : List (List (Option String)) :=
  match tables with
  | [] => [[]]
  | table :: rest => (leftJoin table key).flatMap fun value => (leftJoins rest key).map (value :: ·)

section relation
variable {ν U : Type} (texts : JsonTexts ν)

def EventRow.column (row : EventRow ν U) (column : String) : Option String := (row.promoted.lookup column).join

/-- A promoted column of the relation. -/
def promotedCell (schema : EventSchema) (row : ParquetRow ν U) (index : Nat) (column source : String) :
    Except QueryError (String × Option String) :=
  if schema.promotedPresent.getD index false then .ok (column, row.column column)
  else do return (column, ← derivedColumn texts row.properties source)

def promotedCells (schema : EventSchema) (row : ParquetRow ν U) : Except QueryError (List (String × Option String)) :=
  promoted.zipIdx.mapM fun ((column, source), index) => promotedCell texts schema row index column source

/-- The relation's rows of a file row, one for each way to join it. -/
def joinedRows (s : Source ν U) (overrides : List ((String × String) × String)) (withPerson : Bool) (row : ParquetRow ν U)
    (cells : List (String × Option String)) : List (EventRow ν U) :=
  let known := (overrides.filter (·.1.1 = s.projectId)).map fun o => (o.1.2, o.2)
  (if withPerson then leftJoin known row.distinctId else [none]).flatMap fun o =>
    let person := o.getD row.distinctId
    (leftJoins (s.personKeys.map Prod.snd) person).map fun persons =>
      { event := row.event, ts := row.timestamp, uuid := row.uuid, distinctId := row.distinctId
        properties := row.properties, promoted := cells
        personId := if withPerson then some person else none, persons := persons }

def inRange (fromUs toUs : Option Int) (row : ParquetRow ν U) : Bool :=
  fromUs.all (· ≤ row.timestamp) && toUs.all (row.timestamp < ·)

/-- The relation restricted to `[from, to)` when given. Over no files it is empty. -/
def Source.relation (s : Source ν U) (overrides : List ((String × String) × String)) (fromUs toUs : Option Int)
    (withPerson : Bool) : Except QueryError (List (EventRow ν U)) := do
  let withPerson := withPerson || !s.personKeys.isEmpty
  if s.files.isEmpty then return []
  let rows ← ((readUnion s.files).filter (inRange fromUs toUs)).mapM fun row => do
    return joinedRows s overrides withPerson row (← promotedCells texts s.schema row)
  return rows.flatten

/-- Text of a property on a row of the relation (`NULL` when missing). Filters and breakdowns read nothing else of a
property. -/
def Source.propertyText (s : Source ν U) (row : EventRow ν U) (source : PropertySource) (key : String) :
    Except QueryError (Option String) := do
  validateKey key
  match source with
  | .event =>
    match promotedColumn key with
    | some column => return row.column column
    | none => return jsonExtractString texts row.properties (← jsonPointerLiteral key)
  | .person =>
    match s.personKeys.findIdx? (·.1 = key) with
    | none => .error (.internal "person property was not loaded")
    | some index => return (row.persons.getD index none)

/-- The relation that the engine builds over a project's files: the schema is read off their columns. -/
def sourceOf (files : List (ParquetFile ν U)) (projectId : String) (personKeys : List (String × List (String × String))) :
    Source ν U where
  files := files
  schema := if files.isEmpty then .complete else .fromColumns (unionColumns files)
  projectId := projectId
  personKeys := personKeys

end relation
end Hoglet.Query
