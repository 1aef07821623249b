import Hoglet.Capture.Event
import Hoglet.Ends
import Hoglet.Table

/-! The identity tables of `projections.db` and the statements the projections run on them. The caller
owns the transaction, so what an error leaves behind is thrown away. -/
namespace Hoglet.Projections
open Json Capture

inductive ProjectionError where
  | database
  | invalidJson
  | invalidProjectId
  deriving DecidableEq, Repr

structure PersonRow where
  createdAt : String
  isIdentified : Bool
  properties : String
  firstSeenKey : String
  lastSeen : Option String

structure DistinctIdRow where
  personId : String
  seq : Nat
  deriving DecidableEq

structure GroupRow where
  properties : String
  createdAt : String

structure IdentityState where
  seq : Nat
  epoch : Nat
  deriving DecidableEq, Repr

/-- The tables; a person or distinct id is keyed by its project and its own id. -/
structure Tables where
  persons : Table (String × String) PersonRow
  distinctIds : Table (String × String) DistinctIdRow
  identityState : IdentityState
  pendingErasures : Table (String × String) Unit
  groups : Table (String × String × String) GroupRow

abbrev Effects := EStateM ProjectionError Tables

namespace Tables

def empty : Tables := ⟨.empty, .empty, ⟨0, 0⟩, .empty, .empty⟩

/-- The person a distinct id points to. -/
def personOf (s : Tables) (projectId distinctId : String) : Option String :=
  (s.distinctIds.get (projectId, distinctId)).map DistinctIdRow.personId

def person (s : Tables) (projectId personId : String) : Option PersonRow := s.persons.get (projectId, personId)

/-- `UPDATE persons … WHERE project_id = ? AND id = ?`. -/
def setPerson (s : Tables) (projectId personId : String) (f : PersonRow → PersonRow) : Tables :=
  { s with persons := s.persons.update fun k r => if k = (projectId, personId) then f r else r }

/-- `UPDATE distinct_ids SET person_id = ?, seq = ? WHERE project_id = ? AND person_id = ?`. -/
def repoint (s : Tables) (projectId winner loser : String) (seq : Nat) : Tables :=
  { s with distinctIds := s.distinctIds.update fun k r =>
      if k.1 = projectId ∧ r.personId = loser then ⟨winner, seq⟩ else r }

/-- `DELETE FROM distinct_ids WHERE project_id = ? AND person_id = ?`. -/
def unmap (s : Tables) (projectId personId : String) : Tables :=
  { s with distinctIds := s.distinctIds.delete fun k r => k.1 = projectId && r.personId = personId }

/-- `DELETE FROM persons WHERE project_id = ? AND id = ?`; the rows that reference the person go with it. -/
def deletePerson (s : Tables) (projectId personId : String) : Tables :=
  { s.unmap projectId personId with persons := s.persons.delete fun k _ => k = (projectId, personId) }

def bumpSeq (s : Tables) : Tables := { s with identityState := { s.identityState with seq := s.identityState.seq + 1 } }

section lookups
variable (s : Tables) (projectId : String)

@[simp] theorem person_setPerson (p : String) (f : PersonRow → PersonRow) (pr q : String) :
    (s.setPerson projectId p f).person pr q = (s.person pr q).map fun r => if (pr, q) = (projectId, p) then f r else r := by
  simp [person, setPerson]

@[simp] theorem personOf_setPerson (p : String) (f : PersonRow → PersonRow) :
    (s.setPerson projectId p f).personOf = s.personOf := rfl

theorem setPerson_setPerson (p : String) (f g : PersonRow → PersonRow) :
    (s.setPerson projectId p f).setPerson projectId p g = s.setPerson projectId p (g ∘ f) := by
  simp only [setPerson, Table.update_update]
  congr 2
  funext k r
  split <;> rfl

@[simp] theorem person_repoint (w l : String) (seq : Nat) : (s.repoint projectId w l seq).person = s.person := rfl

theorem personOf_eq_some {s : Tables} {pr d p : String} :
    s.personOf pr d = some p ↔ ∃ r, s.distinctIds.get (pr, d) = some r ∧ r.personId = p := Option.map_eq_some_iff

theorem personOf_repoint (w l : String) (seq : Nat) (pr d : String) :
    (s.repoint projectId w l seq).personOf pr d =
      if pr = projectId ∧ s.personOf pr d = some l then some w else s.personOf pr d := by
  simp only [personOf, repoint, Table.get_update]
  obtain h | ⟨r, h⟩ := Option.eq_none_or_eq_some (s.distinctIds.get (pr, d))
  · simp [h]
  · simp only [h, Option.map_some, Option.some.injEq]
    split <;> rfl

theorem personOf_unmap (p pr d : String) :
    (s.unmap projectId p).personOf pr d = if pr = projectId ∧ s.personOf pr d = some p then none else s.personOf pr d := by
  rw [show (s.unmap projectId p).personOf pr d = ((s.distinctIds.get (pr, d)).filter fun r =>
    !(pr = projectId && r.personId = p)).map DistinctIdRow.personId by simp [personOf, unmap, Table.get_delete]]
  obtain h | ⟨r, h⟩ := Option.eq_none_or_eq_some (s.distinctIds.get (pr, d))
  · have hp : s.personOf pr d = none := by rw [personOf, h, Option.map_none]
    simp [h, hp]
  · have hp : s.personOf pr d = some r.personId := by rw [personOf, h, Option.map_some]
    simp only [h, hp, Option.some.injEq]
    by_cases hr : pr = projectId ∧ r.personId = p
    · rw [if_pos hr, Option.filter_some_neg (by simp [hr]), Option.map_none]
    · rw [if_neg hr, Option.filter_some_pos (by simpa using not_and_or.mp hr), Option.map_some]

@[simp] theorem personOf_deletePerson (p : String) : (s.deletePerson projectId p).personOf = (s.unmap projectId p).personOf := rfl

theorem person_deletePerson (p pr q : String) :
    (s.deletePerson projectId p).person pr q = if pr = projectId ∧ q = p then none else s.person pr q := by
  simp only [person, deletePerson, Table.get_delete]
  by_cases h : pr = projectId ∧ q = p
  · simp [h]
  · cases hr : s.persons.get (pr, q) <;> simp [h]

@[simp] theorem person_unmap (p : String) : (s.unmap projectId p).person = s.person := rfl

@[simp] theorem person_bumpSeq : s.bumpSeq.person = s.person := rfl
@[simp] theorem personOf_bumpSeq : s.bumpSeq.personOf = s.personOf := rfl

end lookups
end Tables

def insertPerson (projectId personId : String) (row : PersonRow) : Effects Unit := do
  match (← get).persons.insert (projectId, personId) row with
  | some persons => modify fun s => { s with persons }
  | none => throw .database

/-- The row has to reference a person. -/
def insertDistinctId (projectId distinctId : String) (row : DistinctIdRow) : Effects Unit := do
  let s ← get
  if (s.person projectId row.personId).isNone then throw .database
  match s.distinctIds.insert (projectId, distinctId) row with
  | some distinctIds => modify fun s => { s with distinctIds }
  | none => throw .database

/-- A person that has to be there. -/
def personRow (projectId personId : String) : Effects PersonRow := do
  match (← get).person projectId personId with
  | some row => return row
  | none => throw .database

end Hoglet.Projections
