import Hoglet.Control.Invites

/-! The control worker answers one request after another, and SQLite may fail in any transaction of one. -/
namespace Hoglet.Control

inductive Request where
  | updateMemberRole (principal : Principal) (organizationId userId : String) (newRole : Role)
  | removeMember (principal : Principal) (organizationId userId : String)
  | createInvite (principal : Principal) (organizationId email : String) (role : Role) (draw : InviteDraw)
  | revokeInvite (principal : Principal) (organizationId inviteId : String)
  | inviteLookup (hash : String)
  | acceptInvite (hash : String) (account : AcceptAccount) (userId sessionId : String)

/-- Which parts of a call SQLite carries out. -/
structure Sqlite where
  transaction : Bool
  session : Bool
  workspace : Bool
  deriving DecidableEq

def Sqlite.reliable : Sqlite := ⟨true, true, true⟩

/-- A request, the clock while it is answered, and what SQLite does. -/
structure Call where
  request : Request
  now : Int
  nowMillis : Int
  sqlite : Sqlite

inductive Reply where
  | member (member : Member)
  | done
  | created (invite : CreatedInvite)
  | lookup (lookup : InviteLookup)
  | accepted (result : SetupResult)
  deriving DecidableEq

/-- An answer, and the database it leaves. -/
abbrev Outcome (α : Type) := Except MemberError α × ControlDb

/-- An error rolls the transaction back, whether a check or SQLite raised it. -/
def transaction {α : Type} (carriedOut : Bool) (x : ControlDb → Except MemberError (α × ControlDb)) (s : ControlDb) : Outcome α :=
  match x s with
  | .error e => (.error e, s)
  | .ok (a, s') => if carriedOut then (.ok a, s') else (.error (.access .database), s)

/-- What `accept_invite` does once the invite is accepted: a session, in a transaction of its own. -/
def openSession (sqlite : Sqlite) (userId sessionId : String) (now : Int) (s : ControlDb) : Outcome Reply :=
  match transaction sqlite.session (startSession userId sessionId now) s with
  | (.error e, s) => (.error e, s)
  | (.ok (), s) =>
    match if sqlite.workspace then workspaceFor s userId else .error (.access .database) with
    | .error e => (.error e, s)
    | .ok workspace => (.ok (.accepted ⟨workspace, sessionId⟩), s)

def acceptInvite (hash : String) (account : AcceptAccount) (userId sessionId : String) (now nowMillis : Int) (sqlite : Sqlite)
    (s : ControlDb) : Outcome Reply :=
  match transaction sqlite.transaction (acceptTransaction hash account userId now nowMillis) s with
  | (.error e, s) => (.error e, s)
  | (.ok .alreadyMember, s) => (.error (.conflict .alreadyMember), s)
  | (.ok (.joined userId), s) => openSession sqlite userId sessionId now s

def Outcome.map {α γ : Type} (f : α → Except MemberError γ) (o : Outcome α) : Outcome γ := (o.1.bind f, o.2)

/-- The token with which a call lets somebody join. -/
def Call.accepts (c : Call) (s : ControlDb) : Option String :=
  match c.request with
  | .acceptInvite hash account newId _ =>
    match (transaction c.sqlite.transaction (acceptTransaction hash account newId c.now c.nowMillis) s).1 with
    | .ok (.joined _) => some hash
    | _ => none
  | _ => none

section calls
variable (sha256 : String → String)

def Call.perform (c : Call) (s : ControlDb) : Outcome Reply :=
  match c.request with
  | .updateMemberRole principal organizationId userId newRole =>
    (transaction c.sqlite.transaction (updateMemberRole principal organizationId userId newRole) s).map (.ok ∘ .member)
  | .removeMember principal organizationId userId =>
    (transaction c.sqlite.transaction (removeMember principal organizationId userId) s).map fun _ => .ok .done
  | .createInvite principal organizationId email role draw =>
    (transaction c.sqlite.transaction (createInvite sha256 principal organizationId email role draw c.now) s).map (.ok ∘ .created)
  | .revokeInvite principal organizationId inviteId =>
    (transaction c.sqlite.transaction (revokeInvite principal organizationId inviteId) s).map fun _ => .ok .done
  | .inviteLookup hash =>
    (transaction c.sqlite.transaction (inviteLookup hash c.now) s).map fun
      | some found => .ok (.lookup found)
      | none => .error .invalidInvite
  | .acceptInvite hash account userId sessionId =>
    Control.acceptInvite hash account userId sessionId c.now c.nowMillis c.sqlite s

/-- The database after some calls. -/
def afterCalls (s : ControlDb) (calls : List Call) : ControlDb := calls.foldl (fun s c => (c.perform sha256 s).2) s

end calls
end Hoglet.Control
