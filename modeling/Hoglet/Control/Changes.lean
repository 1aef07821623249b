import Hoglet.Control.Calls

/-! What each operation has checked when it succeeds, and from this every change a call can make to the
members and invites. -/
namespace Hoglet.Control

section operations
variable {sha256 : String → String} {principal : Principal} {o u : String} {s s' : ControlDb}

/-- The principal has a session and a role that may manage the organization. -/
structure Manages (s : ControlDb) (principal : Principal) (o : String) (actor : Role) : Prop where
  session : principal.authentication = .session
  role : s.memberRole o principal.userId = some actor
  manager : actor ≠ .member

private theorem requireSession_ok : requireSession principal = .ok () ↔ principal.authentication = .session := by
  simp [requireSession, refuse_ok]

private theorem requireManager_ok {role : Role} : requireManager role = .ok () ↔ role ≠ .member := by
  simp [requireManager, refuse_ok]

/-- The owner that a change takes away is not the last one. -/
def KeepsOwner (s : ControlDb) (o : String) (target : Role) : Prop := target = .owner → 2 ≤ s.ownerCount o

theorem updateMemberRole_ok {newRole : Role} {member : Member} (h : updateMemberRole principal o u newRole s = .ok (member, s')) :
    ∃ actor target, Manages s principal o actor ∧ s.memberRole o u = some target ∧ mayChange actor target (some newRole) = true ∧
      (target = newRole ∧ s' = s ∨ target ≠ newRole ∧ KeepsOwner s o target ∧ s' = { s with
        members := s.members.update fun k r => if k = (o, u) then { r with role := newRole } else r }) := by
  simp only [updateMemberRole, bind_ok, refuse_ok, ControlDb.actorRole, found_ok, pure_ok, Prod.mk.injEq] at h
  obtain ⟨⟨⟩, hsession, actor, hactor, ⟨⟩, hmanager, target, htarget, ⟨⟩, hmay, ⟨⟩, hlast, member', -, -, rfl⟩ := h
  refine ⟨actor, target, ⟨requireSession_ok.mp hsession, hactor, requireManager_ok.mp hmanager⟩, htarget, by simpa using hmay, ?_⟩
  by_cases heq : target = newRole
  · exact .inl ⟨heq, if_pos heq⟩
  · refine .inr ⟨heq, fun howner => ?_, if_neg heq⟩
    have := (decide_eq_false_iff_not.mp hlast)
    simp only [howner, not_and] at this
    have := this (howner ▸ heq) trivial
    omega

theorem removeMember_ok (h : removeMember principal o u s = .ok ((), s')) :
    ∃ actor target, principal.authentication = .session ∧ s.memberRole o principal.userId = some actor ∧
      s.memberRole o u = some target ∧ (principal.userId = u ∨ mayChange actor target none = true) ∧ KeepsOwner s o target ∧
      s'.members = s.members.delete (fun k _ => k = (o, u)) ∧ s'.invites = s.invites := by
  simp only [removeMember, bind_ok, refuse_ok, ControlDb.actorRole, found_ok, pure_ok, Prod.mk.injEq] at h
  obtain ⟨⟨⟩, hsession, actor, hactor, ⟨⟩, -, target, htarget, ⟨⟩, hmay, ⟨⟩, hlast, -, rfl⟩ := h
  refine ⟨actor, target, requireSession_ok.mp hsession, hactor, htarget, ?_, fun howner => ?_, rfl, rfl⟩
  · by_cases hleaving : principal.userId = u
    · exact .inl hleaving
    · exact .inr (by simpa [hleaving] using hmay)
  · simp only [howner, decide_eq_false_iff_not, true_and] at hlast
    omega

/-- What has to hold for a new invite to go through. -/
structure Inviting (sha256 : String → String) (principal : Principal) (o email : String) (role : Role) (draw : InviteDraw) (now : Int)
    (s : ControlDb) (address : String) (actor : Role) (hash : String) : Prop where
  normal : normalizeEmail email = .ok address
  manages : Manages s principal o actor
  owner : role = .owner → actor = .owner
  stranger : s.emailIsMember o address = false
  room : ((s.clearedFor o address now).invitesOf o).length < maxPendingInvites
  drawn : tokenHash sha256 draw.token = some hash
  admitted : (s.clearedFor o address now).admits (invitedRow principal o address role hash now) = true
  unused : (s.clearedFor o address now).invites.get draw.id = none

theorem createInvite_ok {email : String} {role : Role} {draw : InviteDraw} {now : Int} {invite : CreatedInvite}
    (h : createInvite sha256 principal o email role draw now s = .ok (invite, s')) :
    ∃ address actor hash invites, Inviting sha256 principal o email role draw now s address actor hash ∧
      (s.clearedFor o address now).invites.insert draw.id (invitedRow principal o address role hash now) = some invites ∧
      s' = { s with invites } := by
  simp only [createInvite, ControlDb.insertInvite, bind_ok, refuse_ok, ControlDb.actorRole, found_ok, pure_ok,
    Prod.mk.injEq] at h
  obtain ⟨⟨⟩, hsession, address, haddress, actor, hactor, ⟨⟩, hmanager, ⟨⟩, howner, ⟨⟩, hstranger, ⟨⟩, hroom, hash, hhash, db,
    ⟨⟨⟩, hadmits, invites, hinsert, rfl⟩, -, rfl⟩ := h
  refine ⟨address, actor, hash, invites, ⟨haddress, ⟨requireSession_ok.mp hsession, hactor, requireManager_ok.mp hmanager⟩, fun hr => ?_, hstranger, ?_, hhash,
    ?_, (Table.insert_eq_some hinsert).1⟩, hinsert, rfl⟩
  · simpa [hr] using howner
  · simpa using hroom
  · simpa using hadmits

theorem createInvite_goes {email address hash : String} {actor role : Role} {draw : InviteDraw} {now : Int}
    (h : Inviting sha256 principal o email role draw now s address actor hash) :
    ∃ r, createInvite sha256 principal o email role draw now s = .ok r := by
  obtain ⟨invites, hinsert⟩ := Table.insert_isSome (invitedRow principal o address role hash now) h.unused
  refine ⟨(⟨⟨draw.id, address, role, principal.userId, now, now + inviteTtlSeconds⟩, draw.token, "/invite/" ++ draw.token⟩,
    { s.clearedFor o address now with invites }), ?_⟩
  simp only [createInvite, ControlDb.insertInvite, bind_ok, refuse_ok, ControlDb.actorRole, found_ok, pure_ok]
  refine ⟨(), requireSession_ok.mpr h.manages.session, address, h.normal, actor, h.manages.role, (), requireManager_ok.mpr h.manages.manager, (), ?_, (),
    h.stranger, (), ?_, hash, h.drawn, _, ⟨(), ?_, invites, hinsert, rfl⟩, rfl⟩
  · simpa using h.owner
  · simpa using h.room
  · simpa using h.admitted

theorem revokeInvite_ok {inviteId : String} (h : revokeInvite principal o inviteId s = .ok ((), s')) :
    ∃ actor row, Manages s principal o actor ∧ s.invites.get inviteId = some row ∧ row.organizationId = o ∧
      (row.role = .owner → actor = .owner) ∧
      s' = { s with invites := s.invites.delete fun id r => id = inviteId && r.organizationId = o } := by
  simp only [revokeInvite, bind_ok, refuse_ok, ControlDb.actorRole, found_ok, pure_ok, Prod.mk.injEq,
    Option.filter_eq_some_iff] at h
  obtain ⟨⟨⟩, hsession, actor, hactor, ⟨⟩, hmanager, row, ⟨hrow, ho⟩, ⟨⟩, howner, -, rfl⟩ := h
  exact ⟨actor, row, ⟨requireSession_ok.mp hsession, hactor, requireManager_ok.mp hmanager⟩, hrow, by simpa using ho, fun hr => by simpa [hr] using howner, rfl⟩

theorem inviteLookup_ok {hash : String} {now : Int} {found : Option InviteLookup} (h : inviteLookup hash now s = .ok (found, s')) :
    s' = s ∧ found.isSome ∨ found = none ∧ ∃ id row, s.inviteByHash hash = some (id, row) ∧ row.expiresAt ≤ now ∧
      s' = { s with invites := s.invites.delete fun _ r => r.tokenHash = hash } := by
  simp only [inviteLookup, bind_ok, found_ok] at h
  obtain ⟨⟨id, row⟩, hrow, organization, -, h⟩ := h
  split at h
  · rename_i hexpired
    simp only [pure_ok, Prod.mk.injEq] at h
    obtain ⟨rfl, rfl⟩ := h
    exact .inr ⟨rfl, id, row, hrow, hexpired, rfl⟩
  · simp only [pure_ok, Prod.mk.injEq] at h
    obtain ⟨rfl, rfl⟩ := h
    exact .inl ⟨rfl, rfl⟩

theorem acceptingUser_ok {account : AcceptAccount} {email newId userId : String} {nowMillis : Int}
    (h : acceptingUser account email newId nowMillis s = .ok (userId, s')) :
    (∃ user, s'.users.get userId = some user ∧ user.email = email) ∧ ∃ users, s' = { s with users } := by
  cases account with
  | existing id =>
    simp only [acceptingUser, bind_ok, refuse_ok, pure_ok, Prod.mk.injEq] at h
    obtain ⟨⟨⟩, hemail, rfl, rfl⟩ := h
    refine ⟨?_, s.users, rfl⟩
    cases hu : s.users.get id with
    | none => simp [hu] at hemail
    | some user => exact ⟨user, rfl, by simpa [hu] using hemail⟩
  | new name passwordHash =>
    simp only [acceptingUser, bind_ok, refuse_ok, found_ok, pure_ok, Prod.mk.injEq] at h
    obtain ⟨⟨⟩, -, users, hinsert, rfl, rfl⟩ := h
    exact ⟨⟨_, by rw [Table.get_insert hinsert, if_pos rfl], rfl⟩, users, rfl⟩

/-- The invite is there, has not expired, and its organization has room. -/
structure Acceptable (s : ControlDb) (hash : String) (now : Int) (id : String) (row : InviteRow) : Prop where
  held : s.inviteByHash hash = some (id, row)
  current : now < row.expiresAt
  room : (s.membersOf row.organizationId).length < maxMembers

theorem acceptTransaction_ok {hash newId : String} {account : AcceptAccount} {now nowMillis : Int} {a : Acceptance}
    (h : acceptTransaction hash account newId now nowMillis s = .ok (a, s')) :
    ∃ id row, Acceptable s hash now id row ∧ s'.invites = s.invites.delete (fun i _ => i = id) ∧ s'.sessions = s.sessions ∧
      match a with
      | .joined userId => (∃ user, s'.users.get userId = some user ∧ user.email = row.email) ∧
          s.members.insert (row.organizationId, userId) ⟨row.role, now⟩ = some s'.members
      | .alreadyMember => s'.members = s.members := by
  simp only [acceptTransaction, bind_ok, found_ok, refuse_ok] at h
  obtain ⟨⟨id, row⟩, hrow, ⟨⟩, hcurrent, ⟨⟩, hroom, ⟨userId, s₁⟩, hjoin, h⟩ := h
  obtain ⟨huser, users, rfl⟩ := acceptingUser_ok hjoin
  refine ⟨id, row, ⟨hrow, by simpa using hcurrent, by simpa using hroom⟩, ?_⟩
  split at h
  · simp only [pure_ok, Prod.mk.injEq] at h
    obtain ⟨rfl, rfl⟩ := h
    exact ⟨rfl, rfl, rfl⟩
  · simp only [bind_ok, refuse_ok, found_ok, pure_ok, Prod.mk.injEq] at h
    obtain ⟨⟨⟩, -, members, hinsert, rfl, rfl⟩ := h
    exact ⟨rfl, rfl, huser, hinsert⟩

theorem startSession_ok {userId sessionId : String} {now : Int} (h : startSession userId sessionId now s = .ok ((), s')) :
    ∃ sessions, s' = { s with sessions } := by
  simp only [startSession, bind_ok, refuse_ok, found_ok, pure_ok, Prod.mk.injEq] at h
  obtain ⟨⟨⟩, -, sessions, -, -, rfl⟩ := h
  exact ⟨_, rfl⟩

end operations

/-- The session of an acceptance cannot be refused. -/
structure SessionOpens (s : ControlDb) (sqlite : Sqlite) (sessionId : String) (now : Int) : Prop where
  transaction : sqlite.session = true
  unused : ∀ row, s.sessions.get sessionId = some row → row.expiresAt ≤ now
  workspace : sqlite.workspace = true

/-- What a call does to the members and invites, what it has checked, and how it answers. -/
inductive Change (sha256 : String → String) (c : Call) (s : ControlDb) : Outcome Reply → Prop
  | kept {reply : Except MemberError Reply} {s' : ControlDb} (haccepts : c.accepts s = none)
      (hreply : (∃ e, reply = .error e) ∨ (∃ member, reply = .ok (.member member)) ∨ ∃ lookup, reply = .ok (.lookup lookup)) (hm : s'.members = s.members) (hi : s'.invites = s.invites) :
      Change sha256 c s (reply, s')
  | roleSet {principal : Principal} {o u : String} {newRole actor target : Role} {member : Member} {s' : ControlDb}
      (hrequest : c.request = .updateMemberRole principal o u newRole) (hmanages : Manages s principal o actor)
      (htarget : s.memberRole o u = some target) (hmay : mayChange actor target (some newRole) = true)
      (hlast : KeepsOwner s o target)
      (hm : s'.members = s.members.update fun k r => if k = (o, u) then { r with role := newRole } else r)
      (hi : s'.invites = s.invites) : Change sha256 c s (.ok (.member member), s')
  | removed {principal : Principal} {o u : String} {actor target : Role} {s' : ControlDb}
      (hrequest : c.request = .removeMember principal o u) (hactor : s.memberRole o principal.userId = some actor)
      (htarget : s.memberRole o u = some target) (hmay : principal.userId = u ∨ mayChange actor target none = true)
      (hlast : KeepsOwner s o target) (hm : s'.members = s.members.delete fun k _ => k = (o, u)) (hi : s'.invites = s.invites) :
      Change sha256 c s (.ok .done, s')
  | invited {principal : Principal} {o email address hash : String} {role actor : Role} {draw : InviteDraw} {invite : CreatedInvite}
      {s' : ControlDb} (hrequest : c.request = .createInvite principal o email role draw) (hsqlite : c.sqlite.transaction = true)
      (hinviting : Inviting sha256 principal o email role draw c.now s address actor hash) (hm : s'.members = s.members)
      (hi : (s.clearedFor o address c.now).invites.insert draw.id (invitedRow principal o address role hash c.now) = some s'.invites) :
      Change sha256 c s (.ok (.created invite), s')
  | revoked {principal : Principal} {o inviteId : String} {actor : Role} {row : InviteRow} {s' : ControlDb}
      (hrequest : c.request = .revokeInvite principal o inviteId) (hmanages : Manages s principal o actor)
      (hrow : s.invites.get inviteId = some row) (ho : row.organizationId = o) (howner : row.role = .owner → actor = .owner)
      (hm : s'.members = s.members)
      (hi : s'.invites = s.invites.delete fun id r => id = inviteId && r.organizationId = o) : Change sha256 c s (.ok .done, s')
  | expired {hash id : String} {row : InviteRow} {s' : ControlDb} (hrequest : c.request = .inviteLookup hash)
      (hrow : s.inviteByHash hash = some (id, row)) (hexpired : row.expiresAt ≤ c.now) (hm : s'.members = s.members)
      (hi : s'.invites = s.invites.delete fun _ r => r.tokenHash = hash) : Change sha256 c s (.error .invalidInvite, s')
  | joined {hash newId userId sessionId id : String} {account : AcceptAccount} {row : InviteRow} {reply : Except MemberError Reply}
      {s' : ControlDb} (hrequest : c.request = .acceptInvite hash account newId sessionId) (hacceptable : Acceptable s hash c.now id row)
      (haccepts : c.accepts s = some hash)
      (huser : ∃ user, s'.users.get userId = some user ∧ user.email = row.email)
      (hm : s.members.insert (row.organizationId, userId) ⟨row.role, c.now⟩ = some s'.members)
      (hi : s'.invites = s.invites.delete fun i _ => i = id)
      (hreply : SessionOpens s c.sqlite sessionId c.now → ∃ result, reply = .ok (.accepted result)) : Change sha256 c s (reply, s')
  | usedUp {hash newId sessionId id : String} {account : AcceptAccount} {row : InviteRow} {s' : ControlDb}
      (hrequest : c.request = .acceptInvite hash account newId sessionId) (haccepts : c.accepts s = none)
      (hacceptable : Acceptable s hash c.now id row) (hm : s'.members = s.members) (hi : s'.invites = s.invites.delete fun i _ => i = id) :
      Change sha256 c s (.error (.conflict .alreadyMember), s')

section perform
variable {sha256 : String → String} {c : Call} {s : ControlDb}

theorem transaction_cases {α : Type} (carriedOut : Bool) (x : ControlDb → Except MemberError (α × ControlDb)) (s : ControlDb) :
    (∃ e, transaction carriedOut x s = (.error e, s)) ∨
      ∃ a s', x s = .ok (a, s') ∧ carriedOut = true ∧ transaction carriedOut x s = (.ok a, s') := by
  unfold transaction
  cases hx : x s with
  | error e => exact .inl ⟨e, rfl⟩
  | ok r =>
    cases carriedOut with
    | false => exact .inl ⟨_, rfl⟩
    | true => exact .inr ⟨r.1, r.2, rfl, rfl, rfl⟩

private theorem openSession_keeps (sqlite : Sqlite) (userId sessionId : String) (now : Int) (s : ControlDb) :
    ∃ reply sessions, openSession sqlite userId sessionId now s = (reply, { s with sessions }) := by
  unfold openSession
  rcases transaction_cases sqlite.session (startSession userId sessionId now) s with ⟨e, h⟩ | ⟨⟨⟩, s', hs, -, h⟩
  · exact ⟨.error e, s.sessions, by rw [h]⟩
  · obtain ⟨sessions, rfl⟩ := startSession_ok hs
    rw [h]
    simp only
    split
    · exact ⟨_, sessions, rfl⟩
    · exact ⟨_, sessions, rfl⟩

private theorem openSession_opens {sqlite : Sqlite} {userId sessionId : String} {now : Int} {user : UserRow} {s s₀ : ControlDb}
    (hsessions : s.sessions = s₀.sessions) (h : SessionOpens s₀ sqlite sessionId now) (huser : s.users.get userId = some user) :
    ∃ result, (openSession sqlite userId sessionId now s).1 = .ok (.accepted result) := by
  have hunused : (s.sessions.delete fun _ r => r.expiresAt ≤ now).get sessionId = none := by
    rw [hsessions, Table.get_delete]
    cases hrow : s₀.sessions.get sessionId with
    | none => rfl
    | some row => exact Option.filter_some_neg (by simpa using h.unused row hrow)
  obtain ⟨sessions, hinsert⟩ := Table.insert_isSome (⟨userId, now, now + sessionTtlSeconds⟩ : SessionRow) hunused
  have hstart : ∃ sessions', startSession userId sessionId now s = .ok ((), { s with sessions := sessions' }) := by
    refine ⟨sessions.delete fun id r => r.userId = userId && id ∉ newestSessions sessions userId, ?_⟩
    simp only [startSession, bind_ok, refuse_ok, found_ok]
    exact ⟨(), by rw [huser]; rfl, sessions, hinsert, rfl⟩
  obtain ⟨sessions', hstart⟩ := hstart
  unfold openSession transaction
  rw [hstart]
  simp only [h.transaction, if_true, h.workspace, workspaceFor, huser, found]
  exact ⟨_, rfl⟩

/-- Every call makes one of the changes. -/
theorem Call.change (c : Call) (s : ControlDb) : Change sha256 c s (c.perform sha256 s) := by
  obtain ⟨request, now, nowMillis, sqlite⟩ := c
  unfold Call.perform
  cases request with
  | updateMemberRole principal o u newRole =>
    rcases transaction_cases sqlite.transaction (updateMemberRole principal o u newRole) s with ⟨e, h⟩ | ⟨member, s', hs, -, h⟩
    · simp only [h]
      exact .kept rfl (.inl ⟨_, rfl⟩) rfl rfl
    · simp only [h]
      obtain ⟨actor, target, hmanages, htarget, hmay, ⟨-, rfl⟩ | ⟨-, hlast, rfl⟩⟩ := updateMemberRole_ok hs
      · exact .kept rfl (.inr (.inl ⟨_, rfl⟩)) rfl rfl
      · exact .roleSet rfl hmanages htarget hmay hlast rfl rfl
  | removeMember principal o u =>
    rcases transaction_cases sqlite.transaction (removeMember principal o u) s with ⟨e, h⟩ | ⟨⟨⟩, s', hs, -, h⟩
    · simp only [h]
      exact .kept rfl (.inl ⟨_, rfl⟩) rfl rfl
    · simp only [h]
      obtain ⟨actor, target, -, hactor, htarget, hmay, hlast, hm, hi⟩ := removeMember_ok hs
      exact .removed rfl hactor htarget hmay hlast hm hi
  | createInvite principal o email role draw =>
    rcases transaction_cases sqlite.transaction (createInvite sha256 principal o email role draw now) s with ⟨e, h⟩ | ⟨invite, s', hs, hsqlite, h⟩
    · simp only [h]
      exact .kept rfl (.inl ⟨_, rfl⟩) rfl rfl
    · simp only [h]
      obtain ⟨address, actor, hash, invites, hinviting, hinsert, rfl⟩ := createInvite_ok hs
      exact .invited rfl hsqlite hinviting rfl hinsert
  | revokeInvite principal o inviteId =>
    rcases transaction_cases sqlite.transaction (revokeInvite principal o inviteId) s with ⟨e, h⟩ | ⟨⟨⟩, s', hs, -, h⟩
    · simp only [h]
      exact .kept rfl (.inl ⟨_, rfl⟩) rfl rfl
    · simp only [h]
      obtain ⟨actor, row, hmanages, hrow, ho, howner, rfl⟩ := revokeInvite_ok hs
      exact .revoked rfl hmanages hrow ho howner rfl rfl
  | inviteLookup hash =>
    rcases transaction_cases sqlite.transaction (inviteLookup hash now) s with ⟨e, h⟩ | ⟨found, s', hs, -, h⟩
    · simp only [h]
      exact .kept rfl (.inl ⟨_, rfl⟩) rfl rfl
    · simp only [h]
      rcases inviteLookup_ok hs with ⟨rfl, hsome⟩ | ⟨rfl, id, row, hrow, hexpired, rfl⟩
      · obtain ⟨found, rfl⟩ := Option.isSome_iff_exists.mp hsome
        exact .kept rfl (.inr (.inr ⟨found, rfl⟩)) rfl rfl
      · exact .expired rfl hrow hexpired rfl rfl
  | acceptInvite hash account newId sessionId =>
    simp only [acceptInvite]
    rcases transaction_cases sqlite.transaction (acceptTransaction hash account newId now nowMillis) s with ⟨e, h⟩ | ⟨a, s', hs, -, h⟩
    · simp only [h]
      exact .kept (by simp only [Call.accepts, h]) (.inl ⟨_, rfl⟩) rfl rfl
    · obtain ⟨id, row, hacceptable, hi, hsessions, ha⟩ := acceptTransaction_ok hs
      cases a with
      | alreadyMember =>
        simp only [h]
        exact .usedUp rfl (by simp only [Call.accepts, h]) hacceptable ha hi
      | joined userId =>
        obtain ⟨⟨user, huser, hemail⟩, hm⟩ := ha
        obtain ⟨reply, sessions, hopen⟩ := openSession_keeps sqlite userId sessionId now s'
        simp only [h, hopen]
        refine .joined rfl hacceptable (by simp only [Call.accepts, h]) ⟨user, huser, hemail⟩ hm hi fun hopens => ?_
        have hreply := openSession_opens (hsessions) hopens huser
        rwa [hopen] at hreply

end perform
end Hoglet.Control
