import Hoglet.Capture.Event
import Hoglet.Json.Accepted
import Hoglet.Wal.Frame

/-! `CapturedBatch`, the payload of one log record: how serde writes it, and how it is read back. -/
namespace Hoglet.Capture
open Json

/-- A map from tokens to project ids, in key order. -/
abbrev Bindings := {members : List (String × String) // Sorted members}

def Bindings.get (b : Bindings) (token : String) : Option String := getKey b.1 token

structure CapturedBatch (ν U : Type) where
  events : List (CapturedEvent ν U)
  projectIdsByToken : Bindings
  historicalMigration : Bool
  receivedAtMs : Int64

namespace CapturedBatch
variable {ν U : Type}

def new (events : List (CapturedEvent ν U)) : Except Wal.WalError (CapturedBatch ν U) :=
  if events.isEmpty then .error .emptyBatch else .ok ⟨events, ⟨[], by simp [Sorted]⟩, false, 0⟩

/-- `nowMs` is the clock's reading. -/
def authorized (events : List (CapturedEvent ν U)) (projectIdsByToken : Bindings) (historicalMigration : Bool)
    (nowMs : Int64) : Except Wal.WalError (CapturedBatch ν U) :=
  if events.isEmpty then .error .emptyBatch
  else if (projectIdsByToken.1.any fun m => m.1 = "" || isBlank m.2) ||
      events.any fun e => (projectIdsByToken.get e.token).isNone then
    .error .invalidProjectBinding
  else .ok ⟨events, projectIdsByToken, historicalMigration, nowMs⟩

def eventCount (batch : CapturedBatch ν U) : Nat := batch.events.length

def projectIdFor (batch : CapturedBatch ν U) (event : CapturedEvent ν U) : Option String :=
  batch.projectIdsByToken.get event.token

end CapturedBatch

section write
variable {ν U : Type} (K : Crates ν U)

/-- The derived `Serialize` of `CapturedEvent`. -/
def CapturedEvent.toValue (e : CapturedEvent ν U) : Value ν :=
  .object [("uuid", .string (K.uuidText e.uuid)), ("event", .string e.event), ("distinct_id", .string e.distinctId),
    ("token", .string e.token), ("timestamp", .string (K.timeText e.timestamp)),
    ("properties", .object e.properties.members)]

/-- The derived `Serialize` of `CapturedBatch`, which skips the bindings and the migration flag when
they are empty and false. -/
def CapturedBatch.toValue (b : CapturedBatch ν U) : Value ν :=
  .object (("events", .array (b.events.map (CapturedEvent.toValue K))) ::
    (if b.projectIdsByToken.1.isEmpty then []
      else [("project_ids_by_token", .object (b.projectIdsByToken.1.map fun m => (m.1, .string m.2)))]) ++
    (if b.historicalMigration then [("historical_migration", .bool true)] else []) ++
    [("received_at_ms", .number (K.ofI64 b.receivedAtMs))])

end write

section read
variable {ν U : Type} (K : Crates ν U)

/-- A field of a derived struct: absent, given once, or refused as a duplicate. -/
def uniqueField (members : List (String × Value ν)) (name : String) : Option (Option (Value ν)) :=
  match members.filter (·.1 = name) with
  | [] => some none
  | [m] => some (some m.2)
  | _ => none

/-- The fields a derived `Deserialize` sees, from an object or from a sequence in field order. -/
def fieldsOf (names : List String) : Value ν → Option (List (Option (Value ν)))
  | .object members => names.mapM (uniqueField members)
  | .array items =>
    if items.length ≤ names.length then
      some (items.map some ++ List.replicate (names.length - items.length) none)
    else none
  | _ => none

def eventFields : List String := ["uuid", "event", "distinct_id", "token", "timestamp", "properties"]

/-- The derived `Deserialize` of `CapturedEvent`: every field is required. -/
def readEvent (v : Value ν) : Option (CapturedEvent ν U) :=
  match fieldsOf eventFields v with
  | some [some (.string uuid), some (.string event), some (.string distinctId), some (.string token),
      some (.string timestamp), some (.object properties)] => do
    let uuid ← K.parseUuid uuid
    let timestamp ← K.ofTimeText timestamp
    return { uuid, event, distinctId, token, timestamp, properties := Map.ofWritten properties }
  | _ => none

def batchFields : List String := ["events", "project_ids_by_token", "historical_migration", "received_at_ms"]

def readBinding (m : String × Value ν) : Option (String × String) := m.2.asStr.map fun s => (m.1, s)

def readBindings : Option (Value ν) → Option Bindings
  | none => some ⟨[], by simp [Sorted]⟩
  | some (.object members) => (members.mapM readBinding).map fun ms => ⟨ofMembers ms, sorted_ofMembers ms⟩
  | some _ => none

def readFlag : Option (Value ν) → Option Bool
  | none => some false
  | some v => v.asBool

def readMillis : Option (Value ν) → Option Int64
  | none => some 0
  | some v => asI64 K v

/-- The derived `Deserialize` of `CapturedBatch`: only the events are required. -/
def readBatch (v : Value ν) : Option (CapturedBatch ν U) :=
  match fieldsOf batchFields v with
  | some [some (.array events), bindings, flag, millis] => do
    let events ← events.mapM (readEvent K)
    let projectIdsByToken ← readBindings bindings
    let historicalMigration ← readFlag flag
    let receivedAtMs ← readMillis K millis
    return { events, projectIdsByToken, historicalMigration, receivedAtMs }
  | _ => none

end read

section roundTrip
variable {ν U : Type} (K : Crates ν U)

theorem readEvent_toValue (e : CapturedEvent ν U) : readEvent K (e.toValue K) = some e := by
  have hf : fieldsOf eventFields (e.toValue K) = some [some (.string (K.uuidText e.uuid)), some (.string e.event),
      some (.string e.distinctId), some (.string e.token), some (.string (K.timeText e.timestamp)),
      some (.object e.properties.members)] := by
    simp [fieldsOf, eventFields, CapturedEvent.toValue, uniqueField]
  simp only [readEvent, hf, K.parseUuid_text, K.ofTimeText_text, Map.ofWritten_members]
  rfl

private theorem mapM_readEvent (events : List (CapturedEvent ν U)) :
    (events.map (CapturedEvent.toValue K)).mapM (readEvent K) = some events := by
  induction events with
  | nil => rfl
  | cons e es ih => simp [readEvent_toValue, ih]

private theorem mapM_readBinding (ms : List (String × String)) :
    (ms.map fun m => (m.1, (.string m.2 : Value ν))).mapM readBinding = some ms := by
  induction ms with
  | nil => rfl
  | cons m ms ih => simp [readBinding, Value.asStr, ih]

theorem readBatch_toValue (b : CapturedBatch ν U) : readBatch K (b.toValue K) = some b := by
  obtain ⟨events, ⟨bindings, hs⟩, flag, millis⟩ := b
  have hf : fieldsOf batchFields (CapturedBatch.toValue K ⟨events, ⟨bindings, hs⟩, flag, millis⟩) =
      some [some (.array (events.map (CapturedEvent.toValue K))),
        if bindings.isEmpty then none else some (.object (bindings.map fun m => (m.1, .string m.2))),
        if flag then some (.bool true) else none, some (.number (K.ofI64 millis))] := by
    cases bindings <;> cases flag <;>
      simp [fieldsOf, batchFields, CapturedBatch.toValue, uniqueField]
  have hb : readBindings (if bindings.isEmpty then none
      else some (.object (bindings.map fun m => (m.1, (.string m.2 : Value ν))))) = some ⟨bindings, hs⟩ := by
    cases bindings with
    | nil => rfl
    | cons m ms =>
      simp only [List.isEmpty_cons, Bool.false_eq_true, if_false, readBindings, mapM_readBinding, Option.map_some,
        ofMembers_of_sorted hs]
  have hflag : readFlag (if flag then some (.bool true : Value ν) else none) = some flag := by
    cases flag <;> rfl
  simp only [readBatch, hf, mapM_readEvent, hb, hflag, readMillis, asI64, K.asI64_ofI64]
  rfl

/-- A batch nests four containers above its property values. -/
theorem nesting_toValue (b : CapturedBatch ν U) (d : Nat) :
    nesting (b.toValue K) ≤ d + 4 ↔ ∀ e ∈ b.events, ∀ m ∈ e.properties.members, nesting m.2 ≤ d := by
  have hevent : ∀ e : CapturedEvent ν U, nesting (e.toValue K) ≤ d + 2 ↔
      ∀ m ∈ e.properties.members, nesting m.2 ≤ d := by
    intro e
    rw [← nestingMembers_le]
    simp [CapturedEvent.toValue, nesting, nestingMembers]
  have hbind : ∀ ms : List (String × String),
      nestingMembers (ms.map fun m => (m.1, (.string m.2 : Value ν))) = 0 := by
    intro ms
    induction ms with
    | nil => rfl
    | cons m ms ih => simp [nestingMembers, nesting, ih]
  have hrest : nestingMembers (((if b.projectIdsByToken.1.isEmpty then []
      else [("project_ids_by_token", .object (b.projectIdsByToken.1.map fun m => (m.1, .string m.2)))]) ++
    (if b.historicalMigration then [("historical_migration", .bool true)] else []) ++
    [("received_at_ms", .number (K.ofI64 b.receivedAtMs))] : List (String × Value ν))) ≤ 1 := by
    cases b.projectIdsByToken.1.isEmpty <;> cases b.historicalMigration <;>
      simp [nestingMembers, nesting, hbind]
  have hitems : nestingItems (b.events.map (CapturedEvent.toValue K)) ≤ d + 2 ↔
      ∀ e ∈ b.events, ∀ m ∈ e.properties.members, nesting m.2 ≤ d := by
    simp only [nestingItems_le, List.forall_mem_map, hevent]
  rw [← hitems]
  simp only [CapturedBatch.toValue, List.cons_append, nesting, nestingMembers]
  omega

/-- `serde_json::to_vec`. -/
def encodeBatch (b : CapturedBatch ν U) : Wal.Bytes := utf8 (print K.numbers (b.toValue K))

/-- `serde_json::from_slice`. -/
def decodeBatch (bytes : Wal.Bytes) : Option (CapturedBatch ν U) := do
  let cs ← ofUtf8 bytes
  let v ← parse K.numbers recursionBudget cs
  readBatch K v

/-- A written batch reads back as itself if it stays within the parser's recursion limit, and not at
all if it does not. -/
theorem decodeBatch_encodeBatch (b : CapturedBatch ν U) :
    decodeBatch K (encodeBatch K b) = if nesting (b.toValue K) ≤ recursionBudget then some b else none := by
  rw [decodeBatch, encodeBatch, ofUtf8_utf8, Option.bind_eq_bind, Option.bind_some, parse_print]
  split
  · rw [Option.bind_eq_bind, Option.bind_some, readBatch_toValue]
  · rfl

theorem decodeBatch_nil : decodeBatch K [] = none := by
  have h : ofUtf8 [] = some [] := ofUtf8_utf8 []
  rw [decodeBatch, h, Option.bind_eq_bind, Option.bind_some, parse_nil]
  rfl

theorem decodeBatch_nul {bytes : Wal.Bytes} (h : 0 ∈ bytes) : decodeBatch K bytes = none := by
  rw [decodeBatch]
  cases hb : ofUtf8 bytes with
  | none => rfl
  | some cs => rw [Option.bind_eq_bind, Option.bind_some, parse_nul (nul_of_ofUtf8 hb h)]; rfl

end roundTrip

/-- The payload format of the log. -/
def batchCodec {ν U : Type} (K : Crates ν U) : Wal.Codec (CapturedBatch ν U) where
  encode := encodeBatch K
  decode := decodeBatch K
  eventCount := CapturedBatch.eventCount
  decode_nil := decodeBatch_nil K
  decode_nul _ := decodeBatch_nul K
  eventCount_decode b b' h := by
    rw [decodeBatch_encodeBatch] at h
    split at h <;> cases h
    rfl

end Hoglet.Capture
