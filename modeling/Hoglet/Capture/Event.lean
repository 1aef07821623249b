import Hoglet.Capture.Crates
import Hoglet.Json.Object
import Hoglet.Json.Utf8

/-! Request-body parsing: the four body shapes and the resolution of each event's token, distinct id,
timestamp and uuid. -/
namespace Hoglet.Capture
open Json

/-- The nesting serde_json allows a text before its recursion limit of 128 is reached. -/
def recursionBudget : Nat := 127

def maxDistinctIdChars : Nat := 200
def maxFutureHours : Int := 23
def maxTokenBytes : Nat := 64

inductive TokenError where
  | empty | tooLong | notAscii | nullByte | personalApiKey
  deriving DecidableEq, Repr

/-- `token::validate`. -/
def validateToken (token : String) : Except TokenError Unit :=
  if token = "" then .error .empty
  else if maxTokenBytes < (utf8 token.toList).length then .error .tooLong
  else if ¬ token.toList.all (·.toNat < 128) then .error .notAscii
  else if '\x00' ∈ token.toList then .error .nullByte
  else if token.toList.take 4 = ['p', 'h', 'x', '_'] then .error .personalApiKey
  else .ok ()

inductive CaptureError where
  | malformed (message : String)
  | unauthorized (message : String)
  deriving DecidableEq, Repr

structure CapturedEvent (ν U : Type) where
  uuid : U
  event : String
  distinctId : String
  token : String
  timestamp : DateTime
  properties : Map ν

structure ParsedBatch (ν U : Type) where
  events : List (CapturedEvent ν U)
  historicalMigration : Bool

/-- The characters `str::trim` removes. -/
def isTrimmed (c : Char) : Bool :=
  let n := c.toNat
  (0x9 ≤ n && n ≤ 0xD) || n = 0x20 || n = 0x85 || n = 0xA0 || n = 0x1680 || (0x2000 ≤ n && n ≤ 0x200A) ||
    n = 0x2028 || n = 0x2029 || n = 0x202F || n = 0x205F || n = 0x3000

/-- `s.trim().is_empty()`. -/
def isBlank (s : String) : Bool := s.toList.all isTrimmed

section parse
variable {ν U : Type} (K : Crates ν U)

/-- The text's last three bytes, when they are whole characters, and what is before them. -/
def splitLastThree (raw : List Char) : Option (List Char × List Char) :=
  (raw.tails.find? fun tail => (utf8 tail).length = 3 ∧ tail.length < raw.length).map fun tail =>
    (raw.take (raw.length - tail.length), tail)

/-- RFC 3339, then a bare `+NN` offset completed to `+NN:00`, then the two naive formats. -/
def parseTimestamp (raw : String) : Option DateTime :=
  (K.parseRfc3339 raw).or <|
  (match splitLastThree raw.toList with
    | some (head, sign :: digits) =>
      if (sign = '+' ∨ sign = '-') ∧ digits.all Char.isDigit then
        K.parseRfc3339 (String.ofList (head ++ sign :: digits ++ [':', '0', '0']))
      else none
    | _ => none).or <|
  (K.parseNaive raw "%Y-%m-%dT%H:%M:%S%.f").or <|
  K.parseNaive raw "%Y-%m-%d %H:%M:%S%.f"

def resolveToken (obj properties : Map ν) (batchToken : Option String) : Except CaptureError String :=
  let raw := batchToken.or <|
    (["token", "$token", "api_key"].findSome? fun k => (obj.get k).bind Value.asStr).or <|
    (properties.get "token").bind Value.asStr
  match raw with
  | none => .error (.unauthorized "no token")
  | some raw =>
    match validateToken raw with
    | .error _ => .error (.unauthorized "invalid token")
    | .ok () => .ok raw

def resolveDistinctId (obj properties : Map ν) : Except CaptureError String :=
  let finish (s : List Char) : Except CaptureError String :=
    let s := s.map fun c => if c = '\x00' then '\uFFFD' else c
    if s.all isTrimmed then .error (.malformed "empty distinct_id")
    else .ok (String.ofList (s.take maxDistinctIdChars))
  match (obj.get "distinct_id").or <| (obj.get "$distinct_id").or <| properties.get "distinct_id" with
  | none => .error (.malformed "missing distinct_id")
  | some .null => .error (.malformed "null distinct_id")
  | some (.string s) => finish s.toList
  | some other => finish (print K.numbers other)

def asI64 : Value ν → Option Int64
  | .number n => K.asI64 n
  | _ => none

/-- `offset` wins outright; else `timestamp`, corrected for the client's clock and clamped when it is
far in the future; else now. -/
def resolveTimestamp (obj properties : Map ν) (sentAt : Option DateTime) (now : DateTime) :
    Except CaptureError DateTime :=
  match (obj.get "offset").bind (asI64 K) with
  | some offset =>
    match (tryMilliseconds offset.toInt).bind now.checkedSubSigned with
    | some t => .ok t
    | none => .error (.malformed "bad offset")
  | none =>
    match (obj.get "timestamp").bind Value.asStr with
    | none => .ok now
    | some raw =>
      match parseTimestamp K raw with
      | none => .error (.malformed "bad timestamp")
      | some t =>
        let ignoreSentAt := ((properties.get "$ignore_sent_at").bind Value.asBool).getD false
        let corrected := match sentAt with
          | some sentAt => if ignoreSentAt then some t else t.checkedSubSigned (sentAt.ns - now.ns)
          | none => some t
        match corrected with
        | none => .error (.malformed "bad timestamp")
        | some t => .ok (if now.ns + hours maxFutureHours < t.ns then now else t)

/-- A top-level `$set` or `$set_once` moves into the properties unless they have one already. -/
def foldKey (key : String) (obj properties : Map ν) : Map ν × Map ν :=
  match obj.get key with
  | none => (obj, properties)
  | some v => (obj.remove key, if properties.contains key then properties else properties.insert key v)

/-- `newV7` is the random UUIDv7 drawn for a timestamp. -/
def resolveEvent (newV7 : DateTime → U) (obj : Map ν) (batchToken : Option String)
    (sentAt : Option DateTime) (now : DateTime) : Except CaptureError (CapturedEvent ν U) := do
  let name ← match (obj.get "event").bind Value.asStr with
    | some s => if s = "" then throw (.malformed "missing event name") else pure s
    | none => throw (.malformed "missing event name")
  let properties ← match obj.get "properties" with
    | some (.object members) => pure (Map.ofWritten members)
    | some _ => throw (.malformed "properties must be an object")
    | none => pure Map.empty
  let obj := obj.remove "properties"
  let (obj, properties) := foldKey "$set" obj properties
  let (obj, properties) := foldKey "$set_once" obj properties
  let token ← resolveToken obj properties batchToken
  let distinctId ← resolveDistinctId K obj properties
  let timestamp ← resolveTimestamp K obj properties sentAt now
  let uuid ← match (obj.get "uuid").bind Value.asStr with
    | some s => match K.parseUuid s with
      | some u => pure u
      | none => throw (.malformed "invalid uuid")
    | none => pure (newV7 timestamp)
  return { uuid, event := name, distinctId, token, timestamp, properties }

/-- The events of a body in order, each with the random draw of its place in the body. -/
def resolveEvents (newV7 : Nat → DateTime → U) (batchToken : Option String) (sentAt : Option DateTime)
    (now : DateTime) : Nat → List (Value ν) → Except CaptureError (List (CapturedEvent ν U))
  | _, [] => .ok []
  | i, .object members :: rest => do
    let obj := Map.ofWritten members
    if (obj.get "event").bind Value.asStr = some "$performance_event" then
      resolveEvents newV7 batchToken sentAt now (i + 1) rest
    else
      let event ← resolveEvent K (newV7 i) obj batchToken sentAt now
      let events ← resolveEvents newV7 batchToken sentAt now (i + 1) rest
      return event :: events
  | _, _ :: _ => .error (.malformed "event must be an object")

def parseBody (newV7 : Nat → DateTime → U) (body : String) (sentAtQuery : Option DateTime) (now : DateTime) :
    Except CaptureError (ParsedBatch ν U) :=
  match parse K.numbers recursionBudget body.toList with
  | none => .error (.malformed "invalid JSON")
  | some (.array events) => do
    let events ← resolveEvents K newV7 none sentAtQuery now 0 events
    return ⟨events, false⟩
  | some (.object members) =>
    let obj := Map.ofWritten members
    match obj.get "batch" with
    | some (.array events) => do
      let obj := obj.remove "batch"
      let batchToken := ((obj.get "token").or (obj.get "api_key")).bind Value.asStr
      let sentAt := match (obj.get "sent_at").bind Value.asStr with
        | some s => parseTimestamp K s
        | none => sentAtQuery
      let historical := ((obj.get "historical_migration").bind Value.asBool).getD false
      let events ← resolveEvents K newV7 batchToken sentAt now 0 events
      return ⟨events, historical⟩
    | some _ => .error (.malformed "batch must be an array")
    | none => do
      let obj := if obj.contains "event" then obj else obj.insert "event" (.string "$identify")
      let events ← resolveEvents K newV7 none sentAtQuery now 0 [.object obj.members]
      return ⟨events, false⟩
  | some _ => .error (.malformed "body must be an object or array")

end parse
end Hoglet.Capture
