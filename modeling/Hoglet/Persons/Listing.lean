import Hoglet.Base64Url
import Hoglet.Capture.Sniffing
import Hoglet.Paging
import Hoglet.Projections.Identity
import Mathlib.Order.Lex

/-! The persons list: newest first, paged by the position of the last person of a page. A position goes to the client as a
cursor that says nothing to it, JSON in base64. -/
namespace Hoglet.Persons
open Capture Json
open Projections (PersonRow Tables)
open Paging (descending)

/-- Largest page of the persons list. -/
def maxPersonPage : Nat := 100
/-- Longest persons search string, in characters. -/
def maxPersonSearch : Nat := 200
/-- Most distinct ids returned for one person, per call. -/
def maxDistinctIdsPerCall : Nat := 1000
/-- Distinct ids shown per person in the list. -/
def listedDistinctIds : Nat := 10
/-- Longest accepted cursor. -/
def maxCursorLength : Nat := 2048
def defaultPersonLimit : Nat := 50

inductive PersonStoreError where
  | corrupt (message : String)
  deriving DecidableEq, Repr

inductive ExploreError where
  | invalid (field message : String)
  | persons (error : PersonStoreError)
  deriving DecidableEq, Repr

/-- One person, as stored. -/
structure PersonRecord (ν : Type) where
  projectId : String
  id : String
  properties : Map ν
  isIdentified : Bool
  createdAt : String
  firstSeenKey : String

/-- Keyset position in the persons list. -/
structure PersonCursor where
  createdAt : String
  id : String
  deriving DecidableEq, Repr

/-- One row of the persons list. -/
structure PersonListEntry (ν : Type) where
  person : PersonRecord ν
  distinctIds : List String
  lastSeen : Option String

structure PersonSummary (ν : Type) where
  id : String
  displayName : String
  distinctIds : List String
  properties : Map ν
  isIdentified : Bool
  createdAt : String
  lastSeen : Option String

/-! The store. -/
section store
variable {ν U : Type} (K : Crates ν U)

/-- `str::trim`. -/
def trim (cs : List Char) : List Char := ((cs.dropWhile isTrimmed).reverse.dropWhile isTrimmed).reverse

/-- SQLite's `lower`, which knows the letters of ASCII only. -/
def lower (text : String) : List Char := text.toList.map Char.toLower

def decodeObject (encoded : String) : Except PersonStoreError (Map ν) :=
  match parse K.numbers recursionBudget encoded.toList with
  | some (.object members) => .ok (.ofWritten members)
  | _ => .error (.corrupt "person properties are not a JSON object")

def distinctIdsOn (s : Tables) (projectId personId : String) (limit : Nat) : List String :=
  ((s.distinctIds.select fun k r => k.1 = projectId && r.personId = personId).take (Nat.min limit maxDistinctIdsPerCall)).map fun m => m.1.2

/-- What a search text of a request is searched for. -/
def searchText (search : Option String) : Option String :=
  ((search.map fun text => trim text.toList).filter fun text => !text.isEmpty).map fun text => String.ofList (text.take maxPersonSearch)

/-- Whether a person has a distinct id that is the search text or begins with it, or has it in their email or name. `extract` is what SQLite's
`json_extract` finds at a path of an object, as text. -/
def searched (extract : String → String → Option String) (s : Tables) (projectId search : String) (m : (String × String) × PersonRow) : Bool :=
  (s.distinctIds.rows.any fun d => d.1.1 = projectId && search ≤ d.1.2 && d.1.2 ≤ search ++ String.singleton (Char.ofNat 1114111) &&
    d.2.personId = m.1.2) ||
  lower search <:+: lower ((extract m.2.properties "$.email").getD "") ||
  lower search <:+: lower ((extract m.2.properties "$.name").getD "")

/-- `created_at < ? OR (created_at = ? AND id < ?)`. -/
def PersonCursor.isBefore (after : PersonCursor) (m : (String × String) × PersonRow) : Bool :=
  m.2.createdAt < after.createdAt || (m.2.createdAt = after.createdAt && m.1.2 < after.id)

/-- The order of the persons list. -/
def personKey (m : (String × String) × PersonRow) : String ×ₗ String := toLex (m.2.createdAt, m.1.2)

def finishPerson (projectId : String) (m : (String × String) × PersonRow) : Except PersonStoreError (PersonRecord ν) :=
  (decodeObject K m.2.properties).map fun properties =>
    ⟨projectId, m.1.2, properties, m.2.isIdentified, m.2.createdAt, m.2.firstSeenKey⟩

/-- Persons of a project, newest first. At most one row more than the largest page. -/
def listPersons (extract : String → String → Option String) (s : Tables) (projectId : String) (search : Option String)
    (after : Option PersonCursor) (limit distinctIdsPerPerson : Nat) : Except PersonStoreError (List (PersonListEntry ν)) :=
  let limit := Nat.min (Nat.max limit 1) (maxPersonPage + 1)
  let matching := s.persons.rows.filter fun m => m.1.1 = projectId && after.all (·.isBefore m) &&
    (searchText search).all (searched extract s projectId · m)
  ((descending personKey matching).take limit).mapM fun m =>
    (finishPerson K projectId m).map fun person => ⟨person, distinctIdsOn s projectId person.id distinctIdsPerPerson, m.2.lastSeen⟩

end store

/-! The list. -/
section explore
variable {ν U : Type} (K : Crates ν U)

/-- The text or number that a property names a person with. -/
def nameIn (properties : Map ν) (key : String) : Option String :=
  match properties.get key with
  | some (.string text) => if isBlank text then none else some text
  | some (.number number) => some (String.ofList (K.numbers.text number))
  | _ => none

/-- `email`, then `name`, then the first distinct id, then the person id. -/
def displayName (properties : Map ν) (distinctIds : List String) (id : String) : String :=
  (((nameIn K properties "email").or (nameIn K properties "name")).or distinctIds.head?).getD id

def summary (person : PersonRecord ν) (distinctIds : List String) (lastSeen : Option String) : PersonSummary ν :=
  let listed := distinctIds.take listedDistinctIds
  ⟨person.id, displayName K person.properties listed person.id, listed, person.properties, person.isIdentified, person.createdAt, lastSeen⟩

def encodeCursor (cursor : PersonCursor) : String :=
  String.ofList (asciiText (Base64Url.encode (utf8 (print K.numbers (.array [.string cursor.createdAt, .string cursor.id])))))

def invalidCursor : ExploreError := .invalid "cursor" "The cursor is not one this server issued."

def decodeCursor (text : String) : Except ExploreError PersonCursor :=
  if maxCursorLength < text.utf8ByteSize then .error invalidCursor
  else
    match ((Base64Url.decode (utf8 text.toList)).bind ofUtf8).bind (parse K.numbers recursionBudget) with
    | some (.array [.string createdAt, .string id]) => .ok ⟨createdAt, id⟩
    | _ => .error invalidCursor

/-- One page, and the cursor of the next one. -/
def list (extract : String → String → Option String) (s : Tables) (projectId : String) (search : Option String) (cursor : Option PersonCursor)
    (limit : Nat) : Except ExploreError (List (PersonSummary ν) × Option String) :=
  let limit := Nat.min (Nat.max limit 1) maxPersonPage
  match listPersons K extract s projectId search cursor (limit + 1) listedDistinctIds with
  | .error error => .error (.persons error)
  | .ok entries =>
    let shown := entries.take limit
    let nextCursor := if limit < entries.length then
      shown.getLast?.map fun entry => encodeCursor K ⟨entry.person.createdAt, entry.person.id⟩
    else none
    .ok (shown.map fun entry => summary K entry.person entry.distinctIds entry.lastSeen, nextCursor)

/-- `GET /api/projects/{project_id}/persons` with the three values of its query. -/
def listRoute (extract : String → String → Option String) (s : Tables) (projectId : String) (search cursor : Option String) (limit : Option Nat) :
    Except ExploreError (List (PersonSummary ν) × Option String) := do
  let cursor ← match cursor.filter (· ≠ "") with
    | none => pure none
    | some text => some <$> decodeCursor K text
  list K extract s projectId search cursor (limit.getD defaultPersonLimit)

end explore
end Hoglet.Persons
