import Hoglet.Control.Changes

/-! What every organization keeps through any sequence of calls, and that a token lets one person in. -/
namespace Hoglet.Control

/-- Every organization there is has one member, its owner, and nobody is invited. -/
structure Founded (s : ControlDb) : Prop where
  members : ∀ o, s.membersOf o = [] ∨ ∃ u joinedAt, s.membersOf o = [((o, u), ⟨.owner, joinedAt⟩)]
  invites : s.invites.rows = []

/-- The limits, which expired invites count towards as well, and that no two invites share their address or
their token. -/
structure Lawful (s : ControlDb) : Prop where
  members : ∀ o, (s.membersOf o).length ≤ maxMembers
  invites : ∀ o, (s.invitesOf o).length ≤ maxPendingInvites
  emails : ∀ o, ((s.invitesOf o).map fun m => m.2.email).Nodup
  hashes : (s.invites.rows.map fun m => m.2.tokenHash).Nodup

/-- An invite with the token is stored. -/
def ControlDb.Held (s : ControlDb) (hash : String) : Prop := ∃ m ∈ s.invites.rows, m.2.tokenHash = hash

/-- The token a call mints, if it gets that far. -/
def Call.drawn (sha256 : String → String) (c : Call) : Option String :=
  match c.request with
  | .createInvite _ _ _ _ draw => tokenHash sha256 draw.token
  | _ => none

/-- When a call lets somebody join, nothing keeps it from opening their session. -/
def Call.Opens (c : Call) (s : ControlDb) : Prop :=
  ∀ hash account newId sessionId, c.request = .acceptInvite hash account newId sessionId → c.accepts s = some hash →
    SessionOpens s c.sqlite sessionId c.now

namespace ControlDb
variable {s : ControlDb} {o u : String}

theorem memberRole_eq_some {role : Role} : s.memberRole o u = some role ↔ ∃ r, s.members.get (o, u) = some r ∧ r.role = role :=
  Option.map_eq_some_iff

/-- Where there are two owners, one of them is somebody else. -/
theorem exists_other_owner (h : 2 ≤ s.ownerCount o) (u : String) : ∃ u', u' ≠ u ∧ s.memberRole o u' = some .owner := by
  by_contra hnone
  push Not at hnone
  have hsame : ∀ m ∈ s.members.select (fun k r => k.1 = o ∧ r.role = .owner), m.1 = (o, u) := by
    intro m hm
    obtain ⟨hrow, hp⟩ := List.mem_filter.mp hm
    obtain ⟨ho, hrole⟩ := of_decide_eq_true hp
    have hget : s.members.get (o, m.1.2) = some m.2 := Table.get_eq_some.mpr (ho ▸ hrow)
    by_contra hne
    refine hnone m.1.2 (fun heq => hne ?_) (memberRole_eq_some.mpr ⟨m.2, hget, hrole⟩)
    rw [← ho, ← heq]
  have hnodup : ((s.members.select fun k r => k.1 = o ∧ r.role = .owner).map Prod.fst).Nodup :=
    s.members.unique.sublist (List.filter_sublist.map _)
  have hone := (List.nodup_iff_count_le_one.mp hnodup) (o, u)
  rw [List.eq_replicate_of_mem (l := (s.members.select _).map Prod.fst) (a := (o, u)) (by simpa using hsame)] at hone
  rw [List.count_replicate_self, List.length_map] at hone
  exact absurd (h.trans hone) (by omega)

theorem inviteByHash_some {hash id : String} {row : InviteRow} (h : s.inviteByHash hash = some (id, row)) :
    (id, row) ∈ s.invites.rows ∧ row.tokenHash = hash :=
  ⟨List.mem_of_find?_eq_some h, by simpa using List.find?_some h⟩

end ControlDb

section steps
variable {sha256 : String → String} {c : Call} {s s' : ControlDb} {reply : Except MemberError Reply}

/-- The member rows of an organization depend on the table alone. -/
private theorem membersOf_congr (h : s'.members = s.members) (o : String) : s'.membersOf o = s.membersOf o := by
  rw [ControlDb.membersOf, ControlDb.membersOf, h]

theorem memberRole_congr (h : s'.members = s.members) (o u : String) : s'.memberRole o u = s.memberRole o u := by
  rw [ControlDb.memberRole, ControlDb.memberRole, h]

/-- An organization that has an owner keeps one. -/
theorem Change.owner (h : Change sha256 c s (reply, s')) {o : String} (howner : ∃ u, s.memberRole o u = some .owner) :
    ∃ u, s'.memberRole o u = some .owner := by
  obtain ⟨u, hu⟩ := howner
  cases h with
  | kept _ _ hm | invited _ _ _ hm | revoked _ _ _ _ _ hm | expired _ _ _ hm | usedUp _ _ _ hm => exact ⟨u, by rw [memberRole_congr hm, hu]⟩
  | @roleSet principal o' u' newRole actor target member _ hrequest hmanages htarget hmay hlast hm hi =>
    have hother : ∀ v, s.memberRole o v = some .owner → (o, v) ≠ (o', u') → s'.memberRole o v = some .owner := by
      intro v hv hne
      obtain ⟨r, hr, hrole⟩ := ControlDb.memberRole_eq_some.mp hv
      exact ControlDb.memberRole_eq_some.mpr ⟨r, by rw [hm, Table.get_update, hr, Option.map_some, if_neg hne], hrole⟩
    by_cases heq : (o, u) = (o', u')
    · obtain ⟨rfl, rfl⟩ := Prod.mk.inj heq
      obtain ⟨v, hne, hv⟩ := ControlDb.exists_other_owner (hlast (Option.some.inj (htarget.symm.trans hu))) u
      exact ⟨v, hother v hv (by simpa using hne)⟩
    · exact ⟨u, hother u hu heq⟩
  | @removed principal o' u' actor target _ hrequest hactor htarget hmay hlast hm hi =>
    have hother : ∀ v, s.memberRole o v = some .owner → (o, v) ≠ (o', u') → s'.memberRole o v = some .owner := by
      intro v hv hne
      obtain ⟨r, hr, hrole⟩ := ControlDb.memberRole_eq_some.mp hv
      exact ControlDb.memberRole_eq_some.mpr ⟨r, by rw [hm]; exact Table.get_delete_eq_some.mpr ⟨hr, decide_eq_false hne⟩, hrole⟩
    by_cases heq : (o, u) = (o', u')
    · obtain ⟨rfl, rfl⟩ := Prod.mk.inj heq
      obtain ⟨v, hne, hv⟩ := ControlDb.exists_other_owner (hlast (Option.some.inj (htarget.symm.trans hu))) u
      exact ⟨v, hother v hv (by simpa using hne)⟩
    · exact ⟨u, hother u hu heq⟩
  | @joined hash newId userId sessionId id account row _ _ hrequest hacceptable haccepts huser hm hi hreply =>
    obtain ⟨r, hr, hrole⟩ := ControlDb.memberRole_eq_some.mp hu
    refine ⟨u, ControlDb.memberRole_eq_some.mpr ⟨r, ?_, hrole⟩⟩
    rw [Table.get_insert hm, if_neg, hr]
    intro heq
    rw [heq, (Table.insert_eq_some hm).1] at hr
    cases hr

/-- Of the invites some go, unless the call adds one to those that stay. -/
theorem Change.invites (h : Change sha256 c s (reply, s')) : s'.invites.rows.Sublist s.invites.rows ∨
    ∃ principal o email address hash role actor draw, c.request = .createInvite principal o email role draw ∧
      Inviting sha256 principal o email role draw c.now s address actor hash ∧ s'.members = s.members ∧
      s'.invites.rows = (s.clearedFor o address c.now).invites.rows ++ [(draw.id, invitedRow principal o address role hash c.now)] := by
  cases h with
  | kept _ _ _ hi | roleSet _ _ _ _ _ _ hi | removed _ _ _ _ _ _ hi => exact .inl (hi ▸ .refl _)
  | revoked _ _ _ _ _ _ hi | expired _ _ _ _ hi | joined _ _ _ _ _ hi | usedUp _ _ _ _ hi => exact .inl (hi ▸ List.filter_sublist)
  | invited hrequest _ hinviting hm hi =>
    exact .inr ⟨_, _, _, _, _, _, _, _, hrequest, hinviting, hm, (Table.insert_eq_some hi).2⟩

theorem cleared_sublist (s : ControlDb) (o address : String) (now : Int) :
    (s.clearedFor o address now).invites.rows.Sublist s.invites.rows := List.filter_sublist.trans List.filter_sublist

/-- The invites a database admits a row beside differ from it in the token, and in the organization or address. -/
private theorem admits_apart {db : ControlDb} {row : InviteRow} (h : db.admits row = true) :
    ∀ m ∈ db.invites.rows, m.2.tokenHash ≠ row.tokenHash ∧ (m.2.organizationId = row.organizationId → m.2.email ≠ row.email) := by
  intro m hm
  simp only [ControlDb.admits, Bool.and_eq_true, List.all_eq_true] at h
  obtain ⟨hhash, hrest⟩ := h.1.1 m hm
  refine ⟨by simpa using hhash, fun ho => ?_⟩
  simpa [ho] using hrest

/-- Fewer invites keep the limits. -/
private theorem Lawful.thinned (hs : Lawful s) (hm : ∀ o, (s'.membersOf o).length ≤ maxMembers)
    (h : s'.invites.rows.Sublist s.invites.rows) : Lawful s' := by
  refine ⟨hm, fun o => ?_, fun o => ?_, hs.hashes.sublist (h.map _)⟩
  · exact (h.filter _).length_le.trans (hs.invites o)
  · exact (hs.emails o).sublist ((h.filter _).map _)

/-- The member limit is checked where a member is added. -/
theorem Change.members_le (hs : Lawful s) (h : Change sha256 c s (reply, s')) (o : String) : (s'.membersOf o).length ≤ maxMembers := by
  cases h with
  | kept _ _ hm | invited _ _ _ hm | revoked _ _ _ _ _ hm | expired _ _ _ hm | usedUp _ _ _ hm =>
    rw [membersOf_congr hm]
    exact hs.members o
  | roleSet _ _ _ _ _ hm =>
    rw [ControlDb.membersOf, hm, Table.select, Table.update, List.filter_map, List.length_map]
    exact hs.members o
  | removed _ _ _ _ _ hm =>
    rw [ControlDb.membersOf, hm]
    exact (List.filter_sublist.filter _).length_le.trans (hs.members o)
  | @joined hash newId userId sessionId id account row _ _ hrequest hacceptable haccepts huser hm hi hreply =>
    rw [ControlDb.membersOf, Table.select, (Table.insert_eq_some hm).2, List.filter_append, List.length_append]
    have hold := hs.members o
    have hroom := hacceptable.room
    rw [ControlDb.membersOf, Table.select] at hold hroom
    by_cases ho : row.organizationId = o
    · subst ho
      simpa using hroom
    · simpa [ho] using hold

theorem Change.lawful (hs : Lawful s) (h : Change sha256 c s (reply, s')) : Lawful s' := by
  have hmembers := h.members_le hs
  rcases h.invites with hsub | ⟨principal, o, email, address, hash, role, actor, draw, -, hinviting, hm, hrows⟩
  · exact hs.thinned hmembers hsub
  have hcleared : Lawful (s.clearedFor o address c.now) := hs.thinned hs.members (cleared_sublist s o address c.now)
  have hapart := admits_apart hinviting.admitted
  refine ⟨hmembers, fun o' => ?_, fun o' => ?_, ?_⟩
  · have hroom := hinviting.room
    have hold := hcleared.invites o'
    rw [ControlDb.invitesOf, Table.select] at hroom hold ⊢
    rw [hrows, List.filter_append, List.length_append]
    by_cases ho : o = o'
    · subst ho
      simpa [invitedRow] using hroom
    · simpa [invitedRow, ho] using hold
  · have hold := hcleared.emails o'
    rw [ControlDb.invitesOf, Table.select] at hold ⊢
    rw [hrows, List.filter_append, List.map_append]
    by_cases ho : o = o'
    · subst ho
      rw [List.nodup_append]
      refine ⟨hold, by simp [invitedRow], fun a ha b hb hab => ?_⟩
      obtain ⟨m, hm, rfl⟩ := List.mem_map.mp ha
      obtain ⟨hin, ho⟩ := List.mem_filter.mp hm
      have hb : b = address := by simpa [invitedRow] using hb
      exact (hapart m hin).2 (of_decide_eq_true ho) (hab.trans hb)
    · simpa [invitedRow, ho] using hold
  · rw [hrows, List.map_append, List.nodup_append]
    refine ⟨hcleared.hashes, by simp, fun a ha b hb hab => ?_⟩
    obtain ⟨m, hm, rfl⟩ := List.mem_map.mp ha
    have hb : b = hash := by simpa [invitedRow] using hb
    exact (hapart m hm).1 (hab.trans hb)

/-- A token is stored only after it has been drawn. -/
theorem Change.held (h : Change sha256 c s (reply, s')) {hash : String} (hheld : s'.Held hash) :
    s.Held hash ∨ c.drawn sha256 = some hash := by
  obtain ⟨m, hm, heq⟩ := hheld
  rcases h.invites with hsub | ⟨principal, o, email, address, hash', role, actor, draw, hrequest, hinviting, -, hrows⟩
  · exact .inl ⟨m, hsub.subset hm, heq⟩
  · rw [hrows, List.mem_append] at hm
    rcases hm with hm | hm
    · exact .inl ⟨m, (cleared_sublist s o address c.now).subset hm, heq⟩
    · obtain rfl := List.mem_singleton.mp hm
      right
      rw [Call.drawn, hrequest]
      exact heq ▸ hinviting.drawn

end steps

section runs
variable {sha256 : String → String} {s : ControlDb}

theorem afterCalls_append (s : ControlDb) (before after : List Call) :
    afterCalls sha256 s (before ++ after) = afterCalls sha256 (afterCalls sha256 s before) after := List.foldl_append

/-- What every call keeps, any sequence of calls keeps. -/
theorem afterCalls_keeps {P : ControlDb → Prop} (hstep : ∀ (c : Call) s, P s → P (c.perform sha256 s).2) (calls : List Call) (hs : P s) :
    P (afterCalls sha256 s calls) := by
  induction calls generalizing s with
  | nil => exact hs
  | cons c calls ih => exact ih (hstep c s hs)

theorem afterCalls_lawful (calls : List Call) (hs : Lawful s) : Lawful (afterCalls sha256 s calls) :=
  afterCalls_keeps (fun c _ hs => (c.change _).lawful hs) calls hs

theorem afterCalls_owner (calls : List Call) {o : String} (hs : ∃ u, s.memberRole o u = some .owner) :
    ∃ u, (afterCalls sha256 s calls).memberRole o u = some .owner :=
  afterCalls_keeps (P := fun s => ∃ u, s.memberRole o u = some .owner) (fun c _ hs => (c.change _).owner hs) calls hs

theorem afterCalls_held (calls : List Call) {hash : String} (hheld : (afterCalls sha256 s calls).Held hash) :
    s.Held hash ∨ hash ∈ calls.filterMap (Call.drawn sha256) := by
  induction calls generalizing s with
  | nil => exact .inl hheld
  | cons c calls ih =>
    rcases ih hheld with hheld | hin
    · rcases (c.change s).held hheld with hheld | hdrawn
      · exact .inl hheld
      · exact .inr (List.mem_filterMap.mpr ⟨c, List.mem_cons_self, hdrawn⟩)
    · obtain ⟨c', hc, hdrawn⟩ := List.mem_filterMap.mp hin
      exact .inr (List.mem_filterMap.mpr ⟨c', List.mem_cons_of_mem _ hc, hdrawn⟩)

theorem Founded.lawful (h : Founded s) : Lawful s := by
  refine ⟨fun o => ?_, fun o => ?_, fun o => ?_, by simp [h.invites]⟩
  · rcases h.members o with hnil | ⟨u, joinedAt, hone⟩
    · simp [hnil]
    · simp [hone, maxMembers]
  · simp [ControlDb.invitesOf, Table.select, h.invites]
  · simp [ControlDb.invitesOf, Table.select, h.invites]

theorem Founded.owner (h : Founded s) {o : String} (hne : s.membersOf o ≠ []) : ∃ u, s.memberRole o u = some .owner := by
  rcases h.members o with hnil | ⟨u, joinedAt, hone⟩
  · exact absurd hnil hne
  · have hmem : ((o, u), (⟨.owner, joinedAt⟩ : MemberRow)) ∈ s.membersOf o := hone ▸ List.mem_singleton_self _
    exact ⟨u, ControlDb.memberRole_eq_some.mpr ⟨_, Table.get_eq_some.mpr (List.mem_of_mem_filter hmem), rfl⟩⟩

end runs

/-- What one call of a sequence may do, as far as invites and errors go. -/
structure Answered (sha256 : String → String) (c : Call) (s : ControlDb) : Prop where
  /-- Whoever joins does so with a current invite for their address, under its role, and uses it up. -/
  accepted : ∀ hash, c.accepts s = some hash → ∃ id row userId, s.invites.get id = some row ∧ row.tokenHash = hash ∧ c.now < row.expiresAt ∧
    (∃ user, (c.perform sha256 s).2.users.get userId = some user ∧ user.email = row.email) ∧
    (c.perform sha256 s).2.members.rows = s.members.rows ++ [((row.organizationId, userId), ⟨row.role, c.now⟩)] ∧
    ¬ (c.perform sha256 s).2.Held hash
  /-- Nobody else joins. -/
  otherwise : c.accepts s = none → ∀ o u, s.memberRole o u = none → (c.perform sha256 s).2.memberRole o u = none
  revoked : ∀ principal o id row, c.request = .revokeInvite principal o id → (c.perform sha256 s).1 = .ok .done →
    s.invites.get id = some row → ¬ (c.perform sha256 s).2.Held row.tokenHash
  replaced : ∀ principal o email role draw address invite id row, c.request = .createInvite principal o email role draw →
    (c.perform sha256 s).1 = .ok (.created invite) → normalizeEmail email = .ok address → s.invites.get id = some row →
    row.organizationId = o → row.email = address → ¬ (c.perform sha256 s).2.Held row.tokenHash
  /-- An error changes neither members nor live invites, but for the invite a member uses up. -/
  failed : ∀ e, (c.perform sha256 s).1 = .error e → (c.perform sha256 s).2.members = s.members ∧ ∀ id row, c.now < row.expiresAt →
    ((c.perform sha256 s).2.invites.get id = some row → s.invites.get id = some row) ∧
    (s.invites.get id = some row → (c.perform sha256 s).2.invites.get id = some row ∨ e = .conflict .alreadyMember ∧
      ∃ account newId sessionId, c.request = .acceptInvite row.tokenHash account newId sessionId)

section answers
variable {sha256 : String → String} {c : Call} {s : ControlDb}

/-- Where tokens are unique, deleting the invite of a token leaves none. -/
private theorem not_held {hash id : String} {row : InviteRow} {db : ControlDb} (hs : Lawful s) (hrow : (id, row) ∈ s.invites.rows)
    (hhash : row.tokenHash = hash) (hdb : ∀ m ∈ db.invites.rows, m ∈ s.invites.rows ∧ m.1 ≠ id) : ¬ db.Held hash := by
  rintro ⟨m, hm, heq⟩
  obtain ⟨hin, hne⟩ := hdb m hm
  have hsame := List.inj_on_of_nodup_map hs.hashes hin hrow (heq.trans hhash.symm)
  exact hne (congrArg Prod.fst hsame)

theorem accepts_none (h : ∀ hash account newId sessionId, c.request ≠ .acceptInvite hash account newId sessionId) : c.accepts s = none := by
  unfold Call.accepts
  split
  · rename_i heq
    exact absurd heq (h _ _ _ _)
  · rfl

private theorem deleted_mem {invites : Table String InviteRow} {id : String} {p : String → InviteRow → Bool} (hp : ∀ row, p id row = true)
    {m : String × InviteRow} (hm : m ∈ (invites.delete p).rows) : m ∈ invites.rows ∧ m.1 ≠ id := by
  obtain ⟨hin, hnot⟩ := List.mem_filter.mp hm
  refine ⟨hin, fun heq => ?_⟩
  rw [heq, hp] at hnot
  cases hnot

variable {s' : ControlDb} {reply : Except MemberError Reply}

private theorem Change.accepted (hs : Lawful s) (h : Change sha256 c s (reply, s')) {hash : String} (haccepts : c.accepts s = some hash) :
    ∃ id row userId, s.invites.get id = some row ∧ row.tokenHash = hash ∧ c.now < row.expiresAt ∧
      (∃ user, s'.users.get userId = some user ∧ user.email = row.email) ∧
      s'.members.rows = s.members.rows ++ [((row.organizationId, userId), ⟨row.role, c.now⟩)] ∧ ¬ s'.Held hash := by
  cases h with
  | kept hnot | usedUp _ hnot =>
    rw [hnot] at haccepts
    cases haccepts
  | roleSet hrequest | removed hrequest | invited hrequest | revoked hrequest | expired hrequest =>
    rw [accepts_none (by rw [hrequest]; intros; exact Request.noConfusion)] at haccepts
    cases haccepts
  | @joined hash' newId userId sessionId id account row _ _ hrequest hacceptable haccepts' huser hm hi hreply =>
    obtain rfl := Option.some.inj (haccepts'.symm.trans haccepts)
    obtain ⟨hrow, hhash⟩ := ControlDb.inviteByHash_some hacceptable.held
    refine ⟨id, row, userId, Table.get_eq_some.mpr hrow, hhash, hacceptable.current, huser, (Table.insert_eq_some hm).2, ?_⟩
    refine not_held hs hrow hhash fun m hm => ?_
    rw [hi] at hm
    exact deleted_mem (by simp) hm

private theorem Change.otherwise (h : Change sha256 c s (reply, s')) (haccepts : c.accepts s = none) {o u : String}
    (hu : s.memberRole o u = none) : s'.memberRole o u = none := by
  have hget : s.members.get (o, u) = none := by simpa [ControlDb.memberRole] using hu
  cases h with
  | kept _ _ hm | invited _ _ _ hm | revoked _ _ _ _ _ hm | expired _ _ _ hm | usedUp _ _ _ hm => rw [memberRole_congr hm, hu]
  | roleSet _ _ _ _ _ hm => simp [ControlDb.memberRole, hm, hget]
  | removed _ _ _ _ _ hm => simp [ControlDb.memberRole, hm, Table.get_delete, hget]
  | joined _ _ haccepts' =>
    rw [haccepts'] at haccepts
    cases haccepts

private theorem Change.revoked_gone (hs : Lawful s) (h : Change sha256 c s (reply, s')) {principal : Principal} {o id : String}
    {row : InviteRow} (hrequest : c.request = .revokeInvite principal o id) (hreply : reply = .ok .done)
    (hrow : s.invites.get id = some row) : ¬ s'.Held row.tokenHash := by
  cases h with
  | kept _ hkept =>
    rw [hreply] at hkept
    rcases hkept with ⟨_, h⟩ | ⟨_, h⟩ | ⟨_, h⟩ <;> cases h
  | roleSet hr | removed hr | invited hr | expired hr | joined hr | usedUp hr =>
    rw [hr] at hrequest
    cases hrequest
  | revoked hr _ hrow' ho _ _ hi =>
    rw [hr] at hrequest
    cases hrequest
    refine not_held hs (Table.get_eq_some.mp hrow) rfl fun m hm => ?_
    rw [hi] at hm
    obtain ⟨hin, hnot⟩ := List.mem_filter.mp hm
    refine ⟨hin, fun heq => ?_⟩
    have hget : s.invites.get m.1 = some m.2 := Table.get_eq_some.mpr hin
    rw [heq, hrow', Option.some.injEq] at hget
    simp [heq, ← hget, ho] at hnot

private theorem Change.replaced_gone (hs : Lawful s) (h : Change sha256 c s (reply, s')) {principal : Principal} {o email address : String}
    {role : Role} {draw : InviteDraw} {invite : CreatedInvite} {id : String} {row : InviteRow}
    (hdrawn : ∀ hash, c.drawn sha256 = some hash → ¬ s.Held hash)
    (hrequest : c.request = .createInvite principal o email role draw) (hreply : reply = .ok (.created invite))
    (haddress : normalizeEmail email = .ok address) (hrow : s.invites.get id = some row) (ho : row.organizationId = o)
    (hemail : row.email = address) : ¬ s'.Held row.tokenHash := by
  cases h with
  | kept _ hkept =>
    rw [hreply] at hkept
    rcases hkept with ⟨_, h⟩ | ⟨_, h⟩ | ⟨_, h⟩ <;> cases h
  | roleSet hr | removed hr | revoked hr | expired hr | joined hr | usedUp hr =>
    rw [hr] at hrequest
    cases hrequest
  | @invited _ _ _ address' hash _ _ _ _ _ hr _ hinviting _ hi =>
    rw [hr] at hrequest
    cases hrequest
    obtain rfl := Except.ok.inj (hinviting.normal.symm.trans haddress)
    have hmem := Table.get_eq_some.mp hrow
    rintro ⟨m, hm, heq⟩
    rw [(Table.insert_eq_some hi).2, List.mem_append] at hm
    rcases hm with hm | hm
    · have hin := (cleared_sublist s o address' c.now).subset hm
      obtain rfl := List.inj_on_of_nodup_map hs.hashes hin hmem heq
      have hnot := (List.mem_filter.mp hm).2
      simp [ho, hemail] at hnot
    · obtain rfl := List.mem_singleton.mp hm
      exact hdrawn hash (by rw [Call.drawn, hr]; exact hinviting.drawn) ⟨_, hmem, heq.symm⟩

private theorem Change.failed (hs : Lawful s) (h : Change sha256 c s (reply, s')) (hopens : c.Opens s) {e : MemberError} (hreply : reply = .error e) :
    s'.members = s.members ∧ ∀ id row, c.now < row.expiresAt → (s'.invites.get id = some row → s.invites.get id = some row) ∧
      (s.invites.get id = some row → s'.invites.get id = some row ∨ e = .conflict .alreadyMember ∧
        ∃ account newId sessionId, c.request = .acceptInvite row.tokenHash account newId sessionId) := by
  cases h with
  | kept _ _ hm hi => exact ⟨hm, fun id row _ => ⟨fun h => hi ▸ h, fun h => .inl (hi ▸ h)⟩⟩
  | roleSet | removed | invited | revoked => cases hreply
  | @expired hash id' row' _ hrequest hrow hexpired hm hi =>
    refine ⟨hm, fun id row hcurrent => ⟨fun h => ?_, fun h => .inl ?_⟩⟩
    · rw [hi] at h
      exact (Table.get_delete_eq_some.mp h).1
    · rw [hi]
      refine Table.get_delete_eq_some.mpr ⟨h, decide_eq_false fun heq => ?_⟩
      obtain ⟨hin, hhash⟩ := ControlDb.inviteByHash_some hrow
      have hsame := List.inj_on_of_nodup_map hs.hashes (Table.get_eq_some.mp h) hin (heq.trans hhash.symm)
      rw [(Prod.mk.inj hsame).2] at hcurrent
      omega
  | joined hrequest _ haccepts _ _ _ hjoined =>
    obtain ⟨result, rfl⟩ := hjoined (hopens _ _ _ _ hrequest haccepts)
    cases hreply
  | @usedUp hash newId sessionId id' account row' _ hrequest hnot hacceptable hm hi =>
    cases hreply
    refine ⟨hm, fun id row _ => ⟨fun h => ?_, fun h => ?_⟩⟩
    · rw [hi] at h
      exact (Table.get_delete_eq_some.mp h).1
    · by_cases hid : id = id'
      · subst hid
        obtain ⟨hrow, hhash⟩ := ControlDb.inviteByHash_some hacceptable.held
        obtain rfl := Option.some.inj ((Table.get_eq_some.mpr hrow).symm.trans h)
        exact .inr ⟨rfl, account, newId, sessionId, hhash ▸ hrequest⟩
      · exact .inl (by rw [hi]; exact Table.get_delete_eq_some.mpr ⟨h, decide_eq_false hid⟩)

theorem Call.answered (hs : Lawful s) (hdrawn : ∀ hash, c.drawn sha256 = some hash → ¬ s.Held hash) (hopens : c.Opens s) :
    Answered sha256 c s where
  accepted _ h := Change.accepted hs (c.change s) h
  otherwise h _ _ hu := Change.otherwise (c.change s) h hu
  revoked _ _ _ _ hrequest hreply hrow := Change.revoked_gone hs (c.change s) hrequest hreply hrow
  replaced _ _ _ _ _ _ _ _ _ hrequest hreply haddress hrow ho hemail :=
    Change.replaced_gone hs (c.change s) hdrawn hrequest hreply haddress hrow ho hemail
  failed _ hreply := Change.failed hs (c.change s) hopens hreply

/-- Nobody joins with a token that is not stored. -/
theorem Call.accepts_held {hash : String} (h : c.accepts s = some hash) : s.Held hash := by
  unfold Call.accepts at h
  split at h
  · rename_i hash' account newId sessionId hrequest
    split at h
    · rename_i userId htransaction
      cases h
      rcases transaction_cases c.sqlite.transaction (acceptTransaction hash account newId c.now c.nowMillis) s with ⟨e, hs⟩ | ⟨a, s', hs, -, -⟩
      · rw [hs] at htransaction
        cases htransaction
      · obtain ⟨id, row, hacceptable, -⟩ := acceptTransaction_ok hs
        obtain ⟨hrow, hhash⟩ := ControlDb.inviteByHash_some hacceptable.held
        exact ⟨_, hrow, hhash⟩
    · cases h
  · cases h

end answers

section claims
variable {sha256 : String → String} {start : ControlDb}

/-- A token that is not stored and will not be drawn again lets nobody in. -/
private theorem not_accepted {s : ControlDb} {hash : String} {calls : List Call} {c : Call} (hheld : ¬ s.Held hash)
    (hdrawn : hash ∉ calls.filterMap (Call.drawn sha256)) : c.accepts (afterCalls sha256 s calls) ≠ some hash := by
  intro haccepts
  rcases afterCalls_held calls (Call.accepts_held haccepts) with h | h
  · exact hheld h
  · exact hdrawn h

/-- Through any sequence of calls an organization keeps an owner and its limits, every call answers as it
should, and a token that was accepted, revoked, replaced or found expired lets nobody in afterwards. The tokens
drawn are taken to be different. -/
theorem organizations_kept (hstart : Founded start) (calls : List Call) (hdrawn : (calls.filterMap (Call.drawn sha256)).Nodup)
    (hopens : ∀ before c after, calls = before ++ c :: after → c.Opens (afterCalls sha256 start before)) :
    (∀ o, start.membersOf o ≠ [] → ∃ u, (afterCalls sha256 start calls).memberRole o u = some .owner) ∧
    Lawful (afterCalls sha256 start calls) ∧
    ∀ before c after, calls = before ++ c :: after → Answered sha256 c (afterCalls sha256 start before) ∧
      ∀ hash, (afterCalls sha256 start before).Held hash → ¬ (afterCalls sha256 start (before ++ [c])).Held hash →
        ∀ middle c' rest, after = middle ++ c' :: rest → c'.accepts (afterCalls sha256 start (before ++ c :: middle)) ≠ some hash := by
  have hnone : ∀ {hash : String}, ¬ start.Held hash := fun ⟨m, hm, _⟩ => by
    rw [hstart.invites] at hm
    cases hm
  refine ⟨fun o ho => afterCalls_owner calls (hstart.owner ho), afterCalls_lawful calls hstart.lawful, fun before c after hcalls => ?_⟩
  have hapart := hdrawn
  rw [hcalls, List.filterMap_append, List.nodup_append] at hapart
  obtain ⟨-, htail, hdisjoint⟩ := hapart
  have hearlier : ∀ hash, (afterCalls sha256 start before).Held hash → hash ∉ (c :: after).filterMap (Call.drawn sha256) := by
    intro hash hheld hin
    rcases afterCalls_held before hheld with h | h
    · exact hnone h
    · exact hdisjoint hash h hash hin rfl
  refine ⟨Call.answered (afterCalls_lawful before hstart.lawful) (fun hash hd hheld => ?_) (hopens before c after hcalls), ?_⟩
  · exact hearlier hash hheld (List.mem_filterMap.mpr ⟨c, List.mem_cons_self, hd⟩)
  · rintro hash hheld hgone middle c' rest rfl
    rw [show before ++ c :: middle = (before ++ [c]) ++ middle by simp, afterCalls_append]
    refine not_accepted hgone fun hin => hearlier hash hheld ?_
    rw [List.filterMap_cons, List.filterMap_append]
    split <;> simp [hin]

end claims

/-- One organization `o` with its owner `ann`. -/
def foundedDb : ControlDb where
  users := ⟨[("ann", ⟨"ann@a.co", "", "Ann", 0⟩)], by simp⟩
  organizations := ⟨[("o", ⟨"O", 0⟩)], by simp⟩
  members := ⟨[(("o", "ann"), ⟨.owner, 0⟩)], by simp⟩
  invites := .empty
  sessions := .empty
  personalApiKeys := .empty

def ann : Principal := ⟨"ann", .session⟩

/-- Sixty-four digits. -/
def sampleSecret : String := String.ofList (List.replicate 64 'a')

def inviteBob : Call := ⟨.createInvite ann "o" "bob@b.co" .member ⟨sampleSecret, "i"⟩, 10, 10000, .reliable⟩

/-- Bob has no account yet; his session is `session`. -/
def acceptBob (sqlite : Sqlite) : Call :=
  ⟨.acceptInvite ("hgi_" ++ sampleSecret) (.new "Bob" "") "bob" "session", 20, 20000, sqlite⟩

theorem foundedDb_founded : Founded foundedDb := by
  refine ⟨fun o => ?_, rfl⟩
  by_cases ho : "o" = o
  · subst ho
    exact .inr ⟨"ann", 0, rfl⟩
  · exact .inl (by simp [ControlDb.membersOf, Table.select, foundedDb, ho])

theorem bob_joins : ∃ u, (afterCalls id foundedDb [inviteBob, acceptBob .reliable]).memberRole "o" u = some .owner := by
  refine (organizations_kept foundedDb_founded [inviteBob, acceptBob .reliable] ?_ ?_).1 "o" (by decide)
  · decide +kernel
  · intro before c after h hash account newId sessionId hrequest _
    rcases before with _ | ⟨x, _ | ⟨y, before⟩⟩
    · obtain rfl := (List.cons.inj h).1
      cases hrequest
    · obtain ⟨rfl, h'⟩ := List.cons.inj h
      obtain rfl := (List.cons.inj h').1
      cases hrequest
      have hnone : ((afterCalls id foundedDb [inviteBob]).sessions.get "session").isNone = true := by decide +kernel
      refine ⟨rfl, fun row hrow => ?_, rfl⟩
      rw [hrow] at hnone
      cases hnone
    · simp at h

/-- SQLite refuses the second transaction of the acceptance: the answer is an error, and Bob is a member. -/
theorem joined_without_session : Founded foundedDb ∧
    ((acceptBob ⟨true, false, true⟩).perform id (afterCalls id foundedDb [inviteBob])).1 = .error (.access .database) ∧
    (afterCalls id foundedDb [inviteBob]).members.rows.length = 1 ∧
    ((acceptBob ⟨true, false, true⟩).perform id (afterCalls id foundedDb [inviteBob])).2.members.rows.length = 2 :=
  ⟨foundedDb_founded, by decide +kernel, by decide +kernel, by decide +kernel⟩

end Hoglet.Control
