import Hoglet.Capture.Event
import Hoglet.Checks
import Hoglet.Table

/-! The tables of `control.db` that membership rests on, and the checks and reads its operations share.
A function that returns an error leaves nothing behind: its transaction is rolled back. -/
namespace Hoglet.Control
open Capture

inductive Role where
  | owner
  | admin
  | member
  deriving DecidableEq, Repr

inductive Authentication where
  | session
  | personalKey
  deriving DecidableEq, Repr

structure Principal where
  userId : String
  authentication : Authentication
  deriving DecidableEq, Repr

inductive AccessError where
  | database
  | invalidRequest
  | unauthorized
  | forbidden
  | notFound
  | unavailable
  deriving DecidableEq, Repr

/-- A request that is valid but contradicts current state. -/
inductive Conflict where
  | lastOwner
  | alreadyMember
  | tooManyInvites
  | tooManyMembers
  | emailInUse
  deriving DecidableEq, Repr

inductive MemberError where
  | access (error : AccessError)
  | conflict (conflict : Conflict)
  | invalidInvite
  | invalid (message : String)
  deriving DecidableEq, Repr

structure UserRow where
  email : String
  passwordHash : String
  name : String
  createdAt : Int

structure OrganizationRow where
  name : String
  createdAt : Int

structure MemberRow where
  role : Role
  joinedAt : Int
  deriving DecidableEq

structure InviteRow where
  organizationId : String
  email : String
  role : Role
  tokenHash : String
  createdBy : String
  createdAt : Int
  expiresAt : Int
  deriving DecidableEq

structure SessionRow where
  userId : String
  createdAt : Int
  expiresAt : Int

/-- The tables; a member is keyed by the organization and the user, a personal key names its user. -/
structure ControlDb where
  users : Table String UserRow
  organizations : Table String OrganizationRow
  members : Table (String × String) MemberRow
  invites : Table String InviteRow
  sessions : Table String SessionRow
  personalApiKeys : Table String String

/-- A row that has to be there. -/
def found {α : Type} (row : Option α) (error : MemberError) : Except MemberError α :=
  match row with
  | some a => .ok a
  | none => .error error

def refuse (condition : Bool) (error : MemberError) : Except MemberError Unit :=
  if condition then .error error else .ok ()

section checks
variable {α : Type}

theorem found_ok {row : Option α} {error : MemberError} {a : α} : found row error = .ok a ↔ row = some a := by
  cases row <;> simp [found]

theorem refuse_ok {condition : Bool} {error : MemberError} {u : Unit} : refuse condition error = .ok u ↔ condition = false := by
  cases condition <;> simp [refuse]

end checks

def requireSession (principal : Principal) : Except MemberError Unit :=
  refuse (principal.authentication ≠ .session) (.access .forbidden)

/-- Whether `actor` may change a member who is `target` to `newRole`, or remove them. -/
def mayChange (actor target : Role) (newRole : Option Role) : Bool :=
  match actor with
  | .owner => true
  | .admin => target ≠ .owner && newRole ≠ some .owner
  | .member => false

def requireManager (role : Role) : Except MemberError Unit := refuse (role = .member) (.access .forbidden)

namespace ControlDb
variable (s : ControlDb) (organizationId : String)

def memberRole (userId : String) : Option Role := (s.members.get (organizationId, userId)).map MemberRow.role

/-- Not being a member is answered as not being allowed, so ids cannot be probed. -/
def actorRole (principal : Principal) : Except MemberError Role :=
  found (s.memberRole organizationId principal.userId) (.access .forbidden)

/-- The member rows of one organization. -/
def membersOf : List ((String × String) × MemberRow) := s.members.select fun k _ => k.1 = organizationId

def ownerCount : Nat := (s.members.select fun k r => k.1 = organizationId ∧ r.role = .owner).length

/-- The invite rows of one organization, expired or not. -/
def invitesOf : List (String × InviteRow) := s.invites.select fun _ r => r.organizationId = organizationId

end ControlDb

structure Member where
  userId : String
  name : String
  email : String
  role : Role
  joinedAt : Int
  deriving DecidableEq

/-- A member joined with their account; members from before the column joined with the account. -/
def readMember (s : ControlDb) (organizationId userId : String) : Option Member := do
  let member ← s.members.get (organizationId, userId)
  let user ← s.users.get userId
  return ⟨userId, user.name, user.email, member.role, if 0 < member.joinedAt then member.joinedAt else user.createdAt / 1000⟩

def updateMemberRole (principal : Principal) (organizationId userId : String) (newRole : Role) (s : ControlDb) :
    Except MemberError (Member × ControlDb) := do
  requireSession principal
  let actor ← s.actorRole organizationId principal
  requireManager actor
  let target ← found (s.memberRole organizationId userId) (.access .notFound)
  refuse (!mayChange actor target (some newRole)) (.access .forbidden)
  refuse (target ≠ newRole ∧ target = .owner ∧ s.ownerCount organizationId ≤ 1) (.conflict .lastOwner)
  let s' := if target = newRole then s else
    { s with members := s.members.update fun k r => if k = (organizationId, userId) then { r with role := newRole } else r }
  let member ← found (readMember s' organizationId userId) (.access .notFound)
  return (member, s')

/-- Someone else removed loses their sessions; a person without any organization loses keys and sessions. -/
def removeMember (principal : Principal) (organizationId userId : String) (s : ControlDb) :
    Except MemberError (Unit × ControlDb) := do
  requireSession principal
  let actor ← s.actorRole organizationId principal
  let leaving := principal.userId = userId
  refuse (!leaving && actor = .member) (.access .forbidden)
  let target ← found (s.memberRole organizationId userId) (.access .notFound)
  refuse (!leaving && !mayChange actor target none) (.access .forbidden)
  refuse (target = .owner ∧ s.ownerCount organizationId ≤ 1) (.conflict .lastOwner)
  let members := s.members.delete fun k _ => k = (organizationId, userId)
  let remaining := (members.select fun k _ => k.2 = userId).length
  let sessions := if !leaving || remaining = 0 then s.sessions.delete fun _ r => r.userId = userId else s.sessions
  let keys := if remaining = 0 then s.personalApiKeys.delete fun _ user => user = userId else s.personalApiKeys
  return ((), { s with members, sessions, personalApiKeys := keys })

end Hoglet.Control
