import Hoglet.Lake.Compactor

/-! The columns of event files: what a file's writer promotes out of the properties, what DuckDB reads of files that
differ in their columns, and what the compactor writes from them. -/
namespace Hoglet.Lake
open Capture Json

/-- Promoted string columns, each with its source property, in the order on disk. -/
def promoted : List (String × String) :=
  [("session_id", "$session_id"), ("current_url", "$current_url"), ("pathname", "$pathname"), ("host", "$host"),
    ("referrer", "$referrer"), ("referring_domain", "$referring_domain"), ("browser", "$browser"), ("os", "$os"),
    ("device_type", "$device_type"), ("country", "$geoip_country_code"), ("utm_source", "utm_source"),
    ("utm_medium", "utm_medium"), ("utm_campaign", "utm_campaign"), ("lib", "$lib")]

/-- Column holding the promoted value for an event property, if any. -/
def promotedColumn (property : String) : Option String :=
  (promoted.find? fun (_, source) => source = property).map Prod.fst

/-- A row of an event file. The properties are the object that their JSON text reads back as. -/
structure ParquetRow (ν U : Type) where
  uuid : U
  event : String
  distinctId : String
  /-- In microseconds. -/
  timestamp : Int
  properties : Map ν
  /-- By column, in the order of the file's columns. -/
  promoted : List (String × Option String)

structure ParquetFile (ν U : Type) where
  /-- The promoted columns that the file has. -/
  columns : List String
  rows : List (ParquetRow ν U)

section columns
variable {ν U : Type}

/-- A row's value in a column, `NULL` when its file has none. -/
def ParquetRow.column (row : ParquetRow ν U) (column : String) : Option String := (row.promoted.lookup column).join

/-- A row under the columns of a whole set of files. -/
def ParquetRow.under (columns : List String) (row : ParquetRow ν U) : ParquetRow ν U :=
  { row with promoted := columns.map fun column => (column, row.column column) }

/-- The columns of `read_parquet` with `union_by_name`: each name once, where it is first met. -/
def unionColumns (files : List (ParquetFile ν U)) : List String := (files.flatMap ParquetFile.columns).eraseDups

def readUnion (files : List (ParquetFile ν U)) : List (ParquetRow ν U) :=
  files.flatMap fun file => file.rows.map (ParquetRow.under (unionColumns files))

/-- The order of a compacted file's rows. -/
def RowLE (a b : ParquetRow ν U) : Prop := a.event < b.event ∨ a.event = b.event ∧ a.timestamp ≤ b.timestamp

/-- What `merge_sql` may write from some files. Which of several earliest rows of a uuid stays, and the order of
equal rows, is up to DuckDB. -/
structure MergeSql (sources : List (ParquetFile ν U)) (destination : ParquetFile ν U) : Prop where
  columns : destination.columns = unionColumns sources
  mem : ∀ row ∈ destination.rows, row ∈ readUnion sources
  nodup : (destination.rows.map ParquetRow.uuid).Nodup
  covers : ∀ row ∈ readUnion sources, ∃ kept ∈ destination.rows, kept.uuid = row.uuid ∧ kept.timestamp ≤ row.timestamp
  sorted : destination.rows.Pairwise RowLE

end columns

section values
variable {ν U : Type} (N : Numbers ν)

/-- Text form of a promoted property. Non-string scalars are stringified; containers are not promotable. -/
def promotedValue (properties : Map ν) (key : String) : Option String :=
  match properties.get key with
  | some (.string text) => if text = "" then none else some text
  | some (.number number) => some (String.ofList (N.text number))
  | some (.bool flag) => some (if flag then "true" else "false")
  | _ => none

/-- The batch that a writer with the given table of promoted columns makes of events. -/
def toRecordBatch (table : List (String × String)) (events : List (CapturedEvent ν U)) : ParquetFile ν U where
  columns := table.map Prod.fst
  rows := events.map fun e =>
    { uuid := e.uuid, event := e.event, distinctId := e.distinctId, timestamp := timestampMicros e
      properties := e.properties
      promoted := table.map fun (column, source) => (column, promotedValue N e.properties source) }

end values
end Hoglet.Lake
