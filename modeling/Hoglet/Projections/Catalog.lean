import Hoglet.Capture.Event
import Hoglet.Table

/-! The catalogue of event names, property keys and property values: what one publication window adds to
it, written once for each name, key and value. -/
namespace Hoglet.Projections
open Json Capture

/-- Distinct values remembered for each property key. -/
def maxValuesPerKey : Nat := 500
def maxCatalogValueChars : Nat := 200

/-- Keys whose values are identifiers, not categories. -/
def uncataloguedValueKeys : List String :=
  ["$session_id", "$window_id", "$insert_id", "$pageview_id", "$device_id", "$anon_distinct_id", "$ai_trace_id",
    "$ai_span_id", "$ai_generation_id", "$time", "$sent_at", "token", "distinct_id", "$set", "$set_once", "$unset",
    "$groups", "$elements", "$elements_chain"]

structure Seen where
  count : Nat
  lastSeen : Int
  deriving DecidableEq, Repr

/-- The tables `event_names`, `property_keys` for the source `event`, and `property_values`. -/
structure Catalog where
  names : Table (String × String) Seen
  keys : Table (String × String) (Seen × String)
  values : Table (String × String × String) Seen

def Catalog.empty : Catalog := ⟨.empty, .empty, .empty⟩

/-- The same, for one window. A `HashMap` walks its entries in any order; here it is that of their arrival. -/
structure CatalogBatch where
  names : Table (String × String) Seen
  keys : Table (String × String) (Seen × String)
  values : Table (String × String × String) Seen

def CatalogBatch.empty : CatalogBatch := ⟨.empty, .empty, .empty⟩

def valueType {ν : Type} : Value ν → String
  | .null => "null"
  | .bool _ => "boolean"
  | .number _ => "number"
  | .string _ => "string"
  | .array _ => "array"
  | .object _ => "object"

section batch
variable {ν U : Type} (K : Crates ν U)

def valueText : Value ν → String
  | .string value => value
  | .bool value => if value then "true" else "false"
  | .null => ""
  | value => String.ofList (print K.numbers value)

/-- `Seen::default()`, bumped. -/
def Seen.first (at_ : Int) : Seen := ⟨1, max 0 at_⟩

def Seen.bump (at_ : Int) (seen : Seen) : Seen := ⟨seen.count + 1, max seen.lastSeen at_⟩

/-- Whether a property's value is catalogued. -/
def catalogued (key : String) (value : Value ν) : Bool :=
  match value with
  | .null | .array _ | .object _ => false
  | value => key ∉ uncataloguedValueKeys && (valueText K value).length ≤ maxCatalogValueChars

def CatalogBatch.addProperty (projectId : String) (at_ : Int) (batch : CatalogBatch) (key : String) (value : Value ν) :
    CatalogBatch :=
  let keys := batch.keys.upsert (projectId, key) (.first at_, valueType value) fun seen => (seen.1.bump at_, valueType value)
  let batch := { batch with keys }
  if catalogued K key value then
    { batch with values := batch.values.upsert (projectId, key, valueText K value) (.first at_) (Seen.bump at_) }
  else batch

def CatalogBatch.add (projectId : String) (event : CapturedEvent ν U) (batch : CatalogBatch) : CatalogBatch :=
  let at_ := event.timestamp.milliseconds
  let batch := { batch with names := batch.names.upsert (projectId, event.event) (.first at_) (Seen.bump at_) }
  event.properties.members.foldl (fun batch (key, value) => CatalogBatch.addProperty K projectId at_ batch key value) batch

end batch

/-- What a conflicting row becomes. -/
def Seen.merge (excluded seen : Seen) : Seen := ⟨seen.count + excluded.count, max seen.lastSeen excluded.lastSeen⟩

/-- Writes a row whose count has to be positive. -/
def writeSeen {κ ρ : Type} [DecidableEq κ] (count : ρ → Nat) (merge : ρ → ρ → ρ) (t : Table κ ρ) (m : κ × ρ) :
    Option (Table κ ρ) :=
  let t := t.upsert m.1 m.2 (merge m.2)
  if t.rows.all fun m => 0 < count m.2 then some t else none

/-- The next value row: a new value is left out once its key has its fill of values. -/
def writeValue (t : Table (String × String × String) Seen) (m : (String × String × String) × Seen) :
    Option (Table (String × String × String) Seen) :=
  let known := (t.get m.1).isSome
  let size := (t.select fun k _ => k.1 = m.1.1 && k.2.1 = m.1.2.1).length
  if !known && maxValuesPerKey ≤ size then some t else writeSeen Seen.count Seen.merge t m

/-- Writes a window's batch, the most frequent values first. -/
def CatalogBatch.flush (batch : CatalogBatch) (catalog : Catalog) : Option Catalog := do
  let names ← batch.names.rows.foldlM (writeSeen Seen.count Seen.merge) catalog.names
  let keys ← batch.keys.rows.foldlM (writeSeen (·.1.count) fun excluded seen => (excluded.1.merge seen.1, excluded.2)) catalog.keys
  let values ← (batch.values.rows.mergeSort fun a b => b.2.count ≤ a.2.count).foldlM writeValue catalog.values
  return ⟨names, keys, values⟩

end Hoglet.Projections
