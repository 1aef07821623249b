import Hoglet.Control.Access

/-! Invites without an email server: a link is minted, revoked, looked up and accepted once. -/
namespace Hoglet.Control
open Capture

/-- Seven days. -/
def inviteTtlSeconds : Int := 7 * 24 * 3600
/-- Pending (unused, unexpired) invites one organization may hold. -/
def maxPendingInvites : Nat := 100
/-- Members one organization may hold. -/
def maxMembers : Nat := 500
def tokenPrefix : String := "hgi_"
def tokenLen : Nat := tokenPrefix.length + 64
def sessionTtlSeconds : Int := 7 * 24 * 3600
/-- Concurrently valid sessions per user; a new login retires the oldest. -/
def maxSessionsPerUser : Nat := 50

def isHexDigit (c : Char) : Bool := c.isDigit || ('a' ≤ c && c ≤ 'f') || ('A' ≤ c && c ≤ 'F')

/-- `sha256` is the hex digest of a text. -/
def tokenHash (sha256 : String → String) (token : String) : Option String :=
  let wellFormed := token.utf8ByteSize = tokenLen && tokenPrefix.toList.isPrefixOf token.toList &&
    (token.toList.drop tokenPrefix.length).all isHexDigit
  if wellFormed then some (sha256 token) else none

def trim (cs : List Char) : List Char := ((cs.dropWhile isTrimmed).reverse.dropWhile isTrimmed).reverse

def isControl (c : Char) : Bool := c.toNat < 0x20 || (0x7F ≤ c.toNat && c.toNat ≤ 0x9F)

def validateEmail (email : List Char) : Bool :=
  let email := trim email
  !email.isEmpty && (String.ofList email).utf8ByteSize ≤ 254 && email.contains '@'

/-- Trimmed, lower-cased, one address, no whitespace or control characters. -/
def normalizeEmail (email : String) : Except MemberError String := do
  let email := (trim email.toList).map Char.toLower
  let invalid := MemberError.invalid "Enter a valid email address."
  refuse (!validateEmail email) invalid
  let localPart := email.takeWhile (· ≠ '@')
  let domain := email.drop (localPart.length + 1)
  refuse (localPart.isEmpty || domain.isEmpty || domain.contains '@' || email.any fun c => isTrimmed c || isControl c) invalid
  return String.ofList email

structure Invite where
  id : String
  email : String
  role : Role
  createdBy : String
  createdAt : Int
  expiresAt : Int
  deriving DecidableEq

structure CreatedInvite where
  invite : Invite
  token : String
  path : String
  deriving DecidableEq

namespace ControlDb
variable (s : ControlDb)

def purgeExpired (organizationId : String) (now : Int) : ControlDb :=
  { s with invites := s.invites.delete fun _ r => r.organizationId = organizationId && r.expiresAt ≤ now }

/-- Without the expired invites of an organization and the one for an address. -/
def clearedFor (organizationId email : String) (now : Int) : ControlDb :=
  let purged := s.purgeExpired organizationId now
  { purged with invites := purged.invites.delete fun _ r => r.organizationId = organizationId && r.email = email }

def deleteInvite (inviteId : String) : ControlDb := { s with invites := s.invites.delete fun id _ => id = inviteId }

/-- The row under a token's hash; the column is unique. -/
def inviteByHash (hash : String) : Option (String × InviteRow) := s.invites.rows.find? (·.2.tokenHash = hash)

/-- What the unique columns and the references ask of a new invite. -/
def admits (row : InviteRow) : Bool :=
  (s.invites.rows.all fun m => m.2.tokenHash ≠ row.tokenHash && (m.2.organizationId ≠ row.organizationId || m.2.email ≠ row.email)) &&
    (s.organizations.get row.organizationId).isSome && (s.users.get row.createdBy).isSome

def insertInvite (inviteId : String) (row : InviteRow) : Except MemberError ControlDb := do
  refuse (!s.admits row) (.access .database)
  let invites ← found (s.invites.insert inviteId row) (.access .database)
  return { s with invites }

def emailIsMember (organizationId email : String) : Bool :=
  (s.membersOf organizationId).any fun m => (s.users.get m.1.2).any (·.email = email)

end ControlDb

/-- The row of a new invite. -/
def invitedRow (principal : Principal) (organizationId email : String) (role : Role) (hash : String) (now : Int) : InviteRow :=
  ⟨organizationId, email, role, hash, principal.userId, now, now + inviteTtlSeconds⟩

/-- What a new invite draws at random: the secret of its token and its id. -/
structure InviteDraw where
  secret : String
  id : String

def InviteDraw.token (draw : InviteDraw) : String := tokenPrefix ++ draw.secret

section invites
variable (sha256 : String → String)

/-- Inviting the same address again replaces the old link. -/
def createInvite (principal : Principal) (organizationId email : String) (role : Role) (draw : InviteDraw) (now : Int)
    (s : ControlDb) : Except MemberError (CreatedInvite × ControlDb) := do
  requireSession principal
  let email ← normalizeEmail email
  let actor ← s.actorRole organizationId principal
  requireManager actor
  refuse (role = .owner ∧ actor ≠ .owner) (.access .forbidden)
  refuse (s.emailIsMember organizationId email) (.conflict .alreadyMember)
  let cleared := s.clearedFor organizationId email now
  refuse (maxPendingInvites ≤ (cleared.invitesOf organizationId).length) (.conflict .tooManyInvites)
  let hash ← found (tokenHash sha256 draw.token) (.access .unavailable)
  let s' ← cleared.insertInvite draw.id (invitedRow principal organizationId email role hash now)
  let invite : Invite := ⟨draw.id, email, role, principal.userId, now, now + inviteTtlSeconds⟩
  return (⟨invite, draw.token, "/invite/" ++ draw.token⟩, s')

def revokeInvite (principal : Principal) (organizationId inviteId : String) (s : ControlDb) :
    Except MemberError (Unit × ControlDb) := do
  requireSession principal
  let actor ← s.actorRole organizationId principal
  requireManager actor
  let row ← found ((s.invites.get inviteId).filter (·.organizationId = organizationId)) (.access .notFound)
  refuse (row.role = .owner ∧ actor ≠ .owner) (.access .forbidden)
  return ((), { s with invites := s.invites.delete fun id r => id = inviteId && r.organizationId = organizationId })

structure InvitePreview where
  organizationName : String
  email : String
  role : Role
  expiresAt : Int
  accountExists : Bool
  deriving DecidableEq

/-- What the worker knows about an invite, and the account of the invited address. -/
structure InviteLookup where
  preview : InvitePreview
  account : Option (String × String)
  deriving DecidableEq

/-- `none` means that the invite has expired and is deleted. -/
def inviteLookup (hash : String) (now : Int) (s : ControlDb) : Except MemberError (Option InviteLookup × ControlDb) := do
  let (_, row) ← found (s.inviteByHash hash) .invalidInvite
  let organization ← found (s.organizations.get row.organizationId) .invalidInvite
  if row.expiresAt ≤ now then
    return (none, { s with invites := s.invites.delete fun _ r => r.tokenHash = hash })
  else
    let account := (s.users.rows.find? (·.2.email = row.email)).map fun m => (m.1, m.2.passwordHash)
    return (some ⟨⟨organization.name, row.email, row.role, row.expiresAt, account.isSome⟩, account⟩, s)

inductive AcceptAccount where
  | existing (userId : String)
  | new (name passwordHash : String)

/-- The user who joins: the account of the invited address, or one created for it under a drawn id. -/
def acceptingUser (account : AcceptAccount) (email userId : String) (nowMillis : Int) (s : ControlDb) :
    Except MemberError (String × ControlDb) :=
  match account with
  | .existing userId => do
    refuse (!(s.users.get userId).any (·.email = email)) .invalidInvite
    return (userId, s)
  | .new name passwordHash => do
    refuse (s.users.rows.any (·.2.email = email)) (.conflict .emailInUse)
    let users ← found (s.users.insert userId ⟨email, passwordHash, name, nowMillis⟩) (.access .database)
    return (userId, { s with users })

/-- What the first transaction of an acceptance commits. -/
inductive Acceptance where
  | joined (userId : String)
  | alreadyMember
  deriving DecidableEq

/-- The first transaction of `accept_invite`. A member who accepts again uses the invite up. -/
def acceptTransaction (hash : String) (account : AcceptAccount) (userId : String) (now nowMillis : Int) (s : ControlDb) :
    Except MemberError (Acceptance × ControlDb) := do
  let (inviteId, row) ← found (s.inviteByHash hash) .invalidInvite
  refuse (row.expiresAt ≤ now) .invalidInvite
  refuse (maxMembers ≤ (s.membersOf row.organizationId).length) (.conflict .tooManyMembers)
  let (userId, s) ← acceptingUser account row.email userId nowMillis s
  if (s.memberRole row.organizationId userId).isSome then
    return (.alreadyMember, s.deleteInvite inviteId)
  else
    refuse (s.organizations.get row.organizationId).isNone (.access .database)
    let members ← found (s.members.insert (row.organizationId, userId) ⟨row.role, now⟩) (.access .database)
    return (.joined userId, ControlDb.deleteInvite { s with members } inviteId)

end invites

structure Workspace where
  userId : String
  email : String
  name : String
  organizations : List (String × String × Role)
  deriving DecidableEq

structure SetupResult where
  workspace : Workspace
  sessionId : String
  deriving DecidableEq

/-- The organizations in the order of their creation. -/
def workspaceFor (s : ControlDb) (userId : String) : Except MemberError Workspace := do
  let user ← found (s.users.get userId) (.access .unauthorized)
  let joined := s.organizations.rows.filterMap fun m => (s.memberRole m.1 userId).map fun role => (m, role)
  let sorted := joined.mergeSort fun a b =>
    a.1.2.createdAt < b.1.2.createdAt ∨ a.1.2.createdAt = b.1.2.createdAt ∧ a.1.1 ≤ b.1.1
  return ⟨userId, user.email, user.name, sorted.map fun m => (m.1.1, m.1.2.name, m.2)⟩

/-- The newest sessions of a user; of two of one second the one stored later is newer. -/
def newestSessions (sessions : Table String SessionRow) (userId : String) : List String :=
  (((sessions.select fun _ r => r.userId = userId).reverse.mergeSort fun a b => b.2.createdAt ≤ a.2.createdAt).take
    maxSessionsPerUser).map Prod.fst

/-- The transaction of `start_session`; what it returns is read behind it. -/
def startSession (userId sessionId : String) (now : Int) (s : ControlDb) : Except MemberError (Unit × ControlDb) := do
  let current := s.sessions.delete fun _ r => r.expiresAt ≤ now
  refuse (s.users.get userId).isNone (.access .database)
  let sessions ← found (current.insert sessionId ⟨userId, now, now + sessionTtlSeconds⟩) (.access .database)
  let newest := newestSessions sessions userId
  return ((), { s with sessions := sessions.delete fun id r => r.userId = userId && id ∉ newest })

end Hoglet.Control
