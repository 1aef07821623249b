import Hoglet.Projections.Tables

/-! Identity effects of captured events, in log order, and the erasure of a person. -/
namespace Hoglet.Projections
open Json Capture

section apply
variable {ν U : Type} (K : Crates ν U)

/-- The text a properties column holds. -/
def encodeProperties (properties : Map ν) : String := String.ofList (print K.numbers (.object properties.members))

def decodeProperties (encoded : String) : Except ProjectionError (Map ν) :=
  match parse K.numbers recursionBudget encoded.toList with
  | some (.object members) => .ok (.ofWritten members)
  | _ => .error .invalidJson

def decoded (encoded : String) : Effects (Map ν) :=
  match decodeProperties K encoded with
  | .ok properties => pure properties
  | .error error => throw error

/-- `insert` of one member after another. -/
def insertAll (properties : Map ν) (members : List (String × Value ν)) : Map ν :=
  members.foldl (fun m (k, v) => m.insert k v) properties

def nextIdentitySeq : Effects Nat := do
  modify Tables.bumpSeq
  return (← get).identityState.seq

/-- The person of a distinct id; a new id becomes the id of a new person. -/
def ensurePerson (projectId distinctId : String) (event : CapturedEvent ν U) : Effects String := do
  match (← get).distinctIds.get (projectId, distinctId) with
  | some row => return row.personId
  | none =>
    insertPerson projectId distinctId ⟨event.timestamp.toRfc3339, false, "\x7b\x7d", distinctId, none⟩
    insertDistinctId projectId distinctId ⟨distinctId, 0⟩
    return distinctId

inductive MergeGuard where
  | refuseIdentifiedSource
  | refuseBothIdentified
  | always
  deriving DecidableEq, Repr

/-- Which of the two people survives, if the guard lets them be merged; the survivor comes first. -/
def guardedMerge (projectId : String) (guard : MergeGuard) (winner loser : String) : Effects (Option (String × String)) := do
  let loserIsIdentified := (← personRow projectId loser).isIdentified
  match guard, loserIsIdentified with
  | .refuseIdentifiedSource, true => return none
  | .refuseBothIdentified, true =>
    if (← personRow projectId winner).isIdentified then return none
    return some (loser, winner)
  | _, _ => return some (winner, loser)

/-- The second half of `merge_persons`: the loser's row and distinct ids go to the winner. -/
def foldPersons (projectId winner loser : String) : Effects Unit := do
  let winnerRow ← personRow projectId winner
  let loserRow ← personRow projectId loser
  let loserProperties ← decoded K loserRow.properties
  let winnerProperties ← decoded K winnerRow.properties
  let merged := insertAll loserProperties winnerProperties.members
  let (createdAt, firstSeenKey) :=
    if loserRow.createdAt < winnerRow.createdAt then (loserRow.createdAt, loserRow.firstSeenKey)
    else (winnerRow.createdAt, winnerRow.firstSeenKey)
  let seq ← nextIdentitySeq
  modify (·.repoint projectId winner loser seq)
  modify (·.setPerson projectId winner fun r => { r with lastSeen := Option.max winnerRow.lastSeen loserRow.lastSeen })
  modify (·.setPerson projectId winner fun r =>
    { r with properties := encodeProperties K merged, createdAt, firstSeenKey, isIdentified := true })
  modify (·.deletePerson projectId loser)

def mergePersons (projectId losingDistinctId winningDistinctId : String) (event : CapturedEvent ν U)
    (guard : MergeGuard) : Effects Unit := do
  let winner ← ensurePerson projectId winningDistinctId event
  let loser ← ensurePerson projectId losingDistinctId event
  if winner = loser then return
  match ← guardedMerge projectId guard winner loser with
  | none => return
  | some (winner, loser) => foldPersons K projectId winner loser

def markIdentified (projectId distinctId : String) : Effects Unit := do
  match (← get).personOf projectId distinctId with
  | none => return
  | some personId => modify (·.setPerson projectId personId fun r => { r with isIdentified := true })

/-- The text or number a group key is given as. -/
def groupKey : Value ν → Option String
  | .string text => some text
  | .number number => some (String.ofList (K.numbers.text number))
  | _ => none

def asObject : Value ν → Option (List (String × Value ν))
  | .object members => some members
  | _ => none

def asArray : Value ν → Option (List (Value ν))
  | .array items => some items
  | _ => none

def applyGroup (projectId : String) (event : CapturedEvent ν U) : Effects Unit := do
  match (event.properties.get "$group_type").bind Value.asStr, (event.properties.get "$group_key").bind (groupKey K) with
  | some groupType, some groupKey =>
    let properties ← match (← get).groups.get (projectId, groupType, groupKey) with
      | some row => decoded K row.properties
      | none => pure Map.empty
    let properties := insertAll properties (((event.properties.get "$group_set").bind asObject).getD [])
    let encoded := encodeProperties K properties
    let row : GroupRow := ⟨encoded, event.timestamp.toRfc3339⟩
    modify fun s =>
      { s with groups := s.groups.upsert (projectId, groupType, groupKey) row fun r => { r with properties := encoded } }
  | _, _ => return

/-- `$set_once`, then `$set`, then `$unset`. -/
def updateProperties (properties : Map ν) (setOnce set : List (String × Value ν)) (unset : List (Value ν)) : Map ν :=
  let properties := setOnce.foldl (fun m (k, v) => if m.contains k then m else m.insert k v) properties
  let properties := insertAll properties set
  (unset.filterMap Value.asStr).foldl Map.remove properties

def applyPersonProperties (projectId distinctId : String) (event : CapturedEvent ν U) : Effects Unit := do
  let setOnce := (event.properties.get "$set_once").bind asObject
  let set := (event.properties.get "$set").bind asObject
  let unset := (event.properties.get "$unset").bind asArray
  if setOnce.isNone && set.isNone && unset.isNone then return
  let personId ← ensurePerson projectId distinctId event
  let row ← personRow projectId personId
  let properties ← decoded K row.properties
  let properties := updateProperties properties (setOnce.getD []) (set.getD []) (unset.getD [])
  modify (·.setPerson projectId personId fun r => { r with properties := encodeProperties K properties })

/-- A property that names another id than the event's own. -/
def otherId (event : CapturedEvent ν U) (key : String) : Option String :=
  ((event.properties.get key).bind Value.asStr).filter fun value => value ≠ "" ∧ value ≠ event.distinctId

/-- What the event's name asks for: a merge with the id it names, an identified person, a group. -/
def applyLink (projectId : String) (event : CapturedEvent ν U) : Effects Unit := do
  let merge (key : String) (guard : MergeGuard) : Effects Unit :=
    match otherId event key with
    | some other => mergePersons K projectId other event.distinctId event guard
    | none => pure ()
  match event.event with
  | "$identify" =>
    merge "$anon_distinct_id" .refuseIdentifiedSource
    markIdentified projectId event.distinctId
  | "$create_alias" =>
    merge "alias" .refuseBothIdentified
    markIdentified projectId event.distinctId
  | "$merge_dangerously" => merge "alias" .always
  | "$groupidentify" => applyGroup K projectId event
  | _ => return

def applyIdentity (projectId : String) (event : CapturedEvent ν U) : Effects Unit := do
  let personId ← ensurePerson projectId event.distinctId event
  let seen := event.timestamp.sortableTime
  modify (·.setPerson projectId personId fun r =>
    if r.lastSeen.all (· < seen) then { r with lastSeen := some seen } else r)
  applyLink K projectId event
  applyPersonProperties K projectId event.distinctId event

def applyIdentityEffects (projectId : String) (event : CapturedEvent ν U) : Effects Unit := do
  if isBlank projectId then throw .invalidProjectId
  applyIdentity K projectId event

end apply

/-- Removes a person and every distinct id that resolves to them, and returns these ids. -/
def erasePerson (projectId personId : String) : Effects (List String) := do
  let s ← get
  let distinctIds := (s.distinctIds.select fun k r => k.1 = projectId && r.personId = personId).map fun m => m.1.2
  modify fun s => { s with pendingErasures := distinctIds.foldl (fun t d => t.upsert (projectId, d) () id) s.pendingErasures }
  modify (·.unmap projectId personId)
  modify (·.deletePerson projectId personId)
  modify fun s => { s with identityState := ⟨s.identityState.seq + 1, s.identityState.epoch + 1⟩ }
  return distinctIds

end Hoglet.Projections
