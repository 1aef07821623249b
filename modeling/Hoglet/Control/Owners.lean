import Hoglet.Control.Organization

/-! What people who are not owners can do to the owners of an organization and to the invites of future ones. -/
namespace Hoglet.Control

/-- Who asks for an operation of the member list or the invites, and in which organization. -/
def Request.actor : Request → Option (Principal × String)
  | .updateMemberRole principal o _ _ => some (principal, o)
  | .removeMember principal o _ => some (principal, o)
  | .createInvite principal o _ _ _ => some (principal, o)
  | .revokeInvite principal o _ => some (principal, o)
  | .inviteLookup _ | .acceptInvite _ _ _ _ => none

def ControlDb.owners (s : ControlDb) (o : String) : Set String := {u | s.memberRole o u = some .owner}

/-- The invites, not expired at `now`, that would make somebody an owner. -/
def ControlDb.pendingOwners (s : ControlDb) (o : String) (now : Int) : Set (String × InviteRow) :=
  {m | s.invites.get m.1 = some m.2 ∧ m.2.organizationId = o ∧ m.2.role = .owner ∧ now < m.2.expiresAt}

/-- The call goes through as a new invite for an address that has a pending invite to become an owner. -/
def Call.Displaces (sha256 : String → String) (c : Call) (s : ControlDb) : Prop :=
  ∃ principal o email role draw address actor hash, c.request = .createInvite principal o email role draw ∧
    c.sqlite.transaction = true ∧ Inviting sha256 principal o email role draw c.now s address actor hash ∧
    ∃ m ∈ s.pendingOwners o c.now, m.2.email = address

section calls
variable {sha256 : String → String} {c : Call} {s s' : ControlDb} {reply : Except MemberError Reply} {principal : Principal} {o : String}

/-- The owners are the same when no member becomes or stops being one. -/
private theorem owners_eq (h : ∀ u, s'.memberRole o u = some .owner ↔ s.memberRole o u = some .owner) : s'.owners o = s.owners o :=
  Set.ext h

private theorem pendingOwners_eq {now : Int} (h : ∀ id row, row.organizationId = o → row.role = .owner → now < row.expiresAt →
    (s'.invites.get id = some row ↔ s.invites.get id = some row)) : s'.pendingOwners o now = s.pendingOwners o now := by
  ext ⟨id, row⟩
  simp only [ControlDb.pendingOwners, Set.mem_ofPred_eq]
  constructor
  · rintro ⟨hrow, ho, hrole, hcurrent⟩
    exact ⟨(h id row ho hrole hcurrent).mp hrow, ho, hrole, hcurrent⟩
  · rintro ⟨hrow, ho, hrole, hcurrent⟩
    exact ⟨(h id row ho hrole hcurrent).mpr hrow, ho, hrole, hcurrent⟩

/-- Whoever is not an owner changes only people who are not owners, and makes nobody one. -/
private theorem mayChange_of_not_owner {actor target : Role} {newRole : Option Role} (ha : actor ≠ .owner)
    (h : mayChange actor target newRole = true) : target ≠ .owner ∧ newRole ≠ some .owner := by
  cases actor with
  | owner => exact absurd rfl ha
  | admin => simpa [mayChange] using h
  | member => simp [mayChange] at h

/-- What an admin's or member's call does to the owners and the invites of future owners. -/
private theorem Change.owners_kept (h : Change sha256 c s (reply, s')) (hactor : c.request.actor = some (principal, o))
    (hrole : s.memberRole o principal.userId ≠ some .owner) (hd : ¬ c.Displaces sha256 s) :
    s'.owners o = s.owners o ∧ s'.pendingOwners o c.now = s.pendingOwners o c.now := by
  cases h with
  | kept _ _ hm hi => exact ⟨owners_eq fun u => by rw [memberRole_congr hm], pendingOwners_eq fun id row _ _ _ => by rw [hi]⟩
  | @roleSet principal' o' u newRole actor target _ _ hrequest hmanages htarget hmay _ hm hi =>
    rw [hrequest] at hactor
    cases hactor
    obtain ⟨ht, hn⟩ := mayChange_of_not_owner (fun ha => hrole (ha ▸ hmanages.role)) hmay
    refine ⟨owners_eq fun u' => ?_, pendingOwners_eq fun id row _ _ _ => by rw [hi]⟩
    by_cases heq : u' = u
    · subst heq
      obtain ⟨r, hr, -⟩ := ControlDb.memberRole_eq_some.mp htarget
      have hset : s'.memberRole o u' = some newRole := by
        simp only [ControlDb.memberRole, hm, Table.get_update, hr, Option.map_some, if_true]
      rw [hset, htarget]
      exact iff_of_false hn fun h => ht (Option.some.inj h)
    · have hne : (o, u') ≠ (o, u) := fun h => heq (Prod.mk.inj h).2
      simp only [ControlDb.memberRole, hm, Table.get_update, if_neg hne, Option.map_id']
  | @removed principal' o' u actor target _ hrequest hactor' htarget hmay _ hm hi =>
    rw [hrequest] at hactor
    cases hactor
    have hnot : actor ≠ .owner := fun ha => hrole (ha ▸ hactor')
    have ht : target ≠ .owner := by
      rcases hmay with rfl | hmay
      · exact fun ht => hrole (ht ▸ htarget)
      · exact (mayChange_of_not_owner hnot hmay).1
    refine ⟨owners_eq fun u' => ?_, pendingOwners_eq fun id row _ _ _ => by rw [hi]⟩
    simp only [ControlDb.memberRole_eq_some, hm, Table.get_delete_eq_some]
    constructor
    · rintro ⟨r, ⟨hr, -⟩, hown⟩
      exact ⟨r, hr, hown⟩
    rintro ⟨r, hr, hown⟩
    refine ⟨r, ⟨hr, decide_eq_false fun heq => ?_⟩, hown⟩
    obtain ⟨r', hr', hrole'⟩ := ControlDb.memberRole_eq_some.mp htarget
    rw [heq, hr', Option.some.injEq] at hr
    exact ht (by rw [← hrole', hr, hown])
  | @invited principal' o' email address hash role actor draw _ _ hrequest hsqlite hinviting hm hi =>
    rw [hrequest] at hactor
    cases hactor
    have hnot : role ≠ .owner := fun hr => hrole (hinviting.owner hr ▸ hinviting.manages.role)
    refine ⟨owners_eq fun u => by rw [memberRole_congr hm], pendingOwners_eq fun id row ho hown hcurrent => ?_⟩
    rw [Table.get_insert hi]
    constructor
    · intro h
      split at h
      · cases h
        exact absurd hown hnot
      · exact (Table.get_delete_eq_some.mp (Table.get_delete_eq_some.mp h).1).1
    · intro h
      have hemail : row.email ≠ address := fun heq =>
        hd ⟨principal, o, email, role, draw, address, actor, hash, hrequest, hsqlite, hinviting, (id, row), ⟨h, ho, hown, hcurrent⟩, heq⟩
      have hstays : (s.clearedFor o address c.now).invites.get id = some row := by
        refine Table.get_delete_eq_some.mpr ⟨Table.get_delete_eq_some.mpr ⟨h, ?_⟩, by simp [hemail]⟩
        simp [hcurrent]
      have hid : id ≠ draw.id := by
        rintro rfl
        rw [hinviting.unused] at hstays
        cases hstays
      rw [if_neg hid]
      exact hstays
  | @revoked principal' o' inviteId actor row' _ hrequest hmanages hrow ho howner hm hi =>
    rw [hrequest] at hactor
    cases hactor
    refine ⟨owners_eq fun u => by rw [memberRole_congr hm], pendingOwners_eq fun id row _ hown _ => ?_⟩
    rw [hi, Table.get_delete_eq_some]
    refine ⟨fun h => h.1, fun h => ⟨h, ?_⟩⟩
    have hid : id ≠ inviteId := by
      rintro rfl
      obtain rfl := Option.some.inj (hrow.symm.trans h)
      exact hrole (howner hown ▸ hmanages.role)
    simp [hid]
  | expired hrequest | joined hrequest | usedUp hrequest =>
    rw [hrequest] at hactor
    cases hactor

/-- A new invite for an address takes the place of the pending one. -/
private theorem Call.Displaces.lost (hd : c.Displaces sha256 s) (hactor : c.request.actor = some (principal, o))
    (hrole : s.memberRole o principal.userId ≠ some .owner) :
    (c.perform sha256 s).2.pendingOwners o c.now ≠ s.pendingOwners o c.now := by
  obtain ⟨principal', o', email, role, draw, address, actor, hash, hrequest, hsqlite, hinviting, ⟨id, row⟩, hm, hemail⟩ := hd
  rw [hrequest] at hactor
  cases hactor
  obtain ⟨⟨invite, s'⟩, hgoes⟩ := createInvite_goes hinviting
  have hperform : c.perform sha256 s = (.ok (.created invite), s') := by
    unfold Call.perform transaction
    simp only [hrequest, hgoes, hsqlite]
    rfl
  obtain ⟨address', actor', hash', invites, hinviting', hinsert, rfl⟩ := createInvite_ok hgoes
  obtain rfl := Except.ok.inj (hinviting'.normal.symm.trans hinviting.normal)
  have hnot : role ≠ .owner := fun hr => hrole (hinviting.owner hr ▸ hinviting.manages.role)
  intro heq
  rw [hperform] at heq
  obtain ⟨hrow, -, hown, -⟩ := heq ▸ hm
  rw [Table.get_insert hinsert] at hrow
  split at hrow
  · cases hrow
    exact hnot hown
  · have hdeleted := (Table.get_delete_eq_some.mp hrow).2
    have ho : row.organizationId = o := hm.2.1
    have haddress : row.email = address' := hemail
    simp [ho, haddress] at hdeleted

/-- The two ways in which a call makes somebody an owner. -/
private theorem Change.becomes_owner (h : Change sha256 c s (reply, s')) {u : String} (hbefore : s.memberRole o u ≠ some .owner)
    (hafter : s'.memberRole o u = some .owner) :
    (∃ principal, c.request = .updateMemberRole principal o u .owner ∧ s.memberRole o principal.userId = some .owner) ∨
    ∃ id row, c.accepts s = some row.tokenHash ∧ row.organizationId = o ∧ row.role = .owner ∧ s.invites.get id = some row := by
  cases h with
  | kept _ _ hm | invited _ _ _ hm | revoked _ _ _ _ _ hm | expired _ _ _ hm | usedUp _ _ _ hm =>
    rw [memberRole_congr hm] at hafter
    exact absurd hafter hbefore
  | @roleSet principal o' u' newRole actor target _ _ hrequest hmanages htarget hmay _ hm hi =>
    obtain ⟨r, hr, hrole⟩ := ControlDb.memberRole_eq_some.mp hafter
    rw [hm, Table.get_update, Option.map_eq_some_iff] at hr
    obtain ⟨r', hr', hnew⟩ := hr
    split at hnew
    · rename_i heq
      cases heq
      have hnewRole : newRole = .owner := by rw [← hrole, ← hnew]
      subst hnewRole
      refine .inl ⟨principal, hrequest, ?_⟩
      by_contra hnot
      exact (mayChange_of_not_owner (fun ha => hnot (ha ▸ hmanages.role)) hmay).2 rfl
    · exact absurd (ControlDb.memberRole_eq_some.mpr ⟨r, hnew ▸ hr', hrole⟩) hbefore
  | removed _ _ _ _ _ hm =>
    obtain ⟨r, hr, hrole⟩ := ControlDb.memberRole_eq_some.mp hafter
    rw [hm, Table.get_delete_eq_some] at hr
    exact absurd (ControlDb.memberRole_eq_some.mpr ⟨r, hr.1, hrole⟩) hbefore
  | @joined hash newId userId sessionId id account row _ _ hrequest hacceptable haccepts huser hm hi hreply =>
    obtain ⟨r, hr, hrole⟩ := ControlDb.memberRole_eq_some.mp hafter
    rw [Table.get_insert hm] at hr
    split at hr
    · rename_i heq
      cases heq
      cases hr
      obtain ⟨hrow, hhash⟩ := ControlDb.inviteByHash_some hacceptable.held
      exact .inr ⟨id, row, hhash ▸ haccepts, rfl, hrole, Table.get_eq_some.mpr hrow⟩
    · exact absurd (ControlDb.memberRole_eq_some.mpr ⟨r, hr, hrole⟩) hbefore

end calls

section claims
variable {sha256 : String → String}

/-- Every stored invite was created by a call, and one to become an owner by somebody who was one. -/
private theorem created_by_owner {start : ControlDb} (hstart : start.invites.rows = []) (calls : List Call) {id : String} {row : InviteRow}
    (hrow : (afterCalls sha256 start calls).invites.get id = some row) (hown : row.role = .owner) :
    ∃ earlier c later principal email draw, calls = earlier ++ c :: later ∧
      c.request = .createInvite principal row.organizationId email .owner draw ∧ row.createdBy = principal.userId ∧
      (afterCalls sha256 start earlier).memberRole row.organizationId principal.userId = some .owner ∧
      (afterCalls sha256 start (earlier ++ [c])).invites.get id = some row := by
  induction calls using List.reverseRecOn with
  | nil =>
    have hin := Table.get_eq_some.mp hrow
    rw [show (afterCalls sha256 start []).invites = start.invites from rfl, hstart] at hin
    cases hin
  | append_singleton calls c ih =>
    have hlast := hrow
    rw [afterCalls_append] at hlast
    rcases (Call.change c (afterCalls sha256 start calls)).invites with hsub | ⟨principal, o, email, address, hash, role, actor, draw,
      hrequest, hinviting, -, hrows⟩
    · obtain ⟨earlier, c', later, principal, email, draw, rfl, h⟩ := ih (Table.get_eq_some.mpr (hsub.subset (Table.get_eq_some.mp hlast)))
      exact ⟨earlier, c', later ++ [c], principal, email, draw, by simp, h⟩
    · have hin := Table.get_eq_some.mp hlast
      rw [show (afterCalls sha256 (afterCalls sha256 start calls) [c]).invites.rows = _ from hrows, List.mem_append] at hin
      rcases hin with hin | hin
      · have hold := Table.get_eq_some.mpr ((cleared_sublist _ _ _ _).subset hin)
        obtain ⟨earlier, c', later, principal, email, draw, rfl, h⟩ := ih hold
        exact ⟨earlier, c', later ++ [c], principal, email, draw, by simp, h⟩
      · obtain ⟨rfl, rfl⟩ := Prod.mk.inj (List.mem_singleton.mp hin)
        cases hown
        exact ⟨calls, c, [], principal, email, draw, rfl, hrequest, rfl, hinviting.owner rfl ▸ hinviting.manages.role, hrow⟩

/-- A call of anybody but an owner leaves the owners and the pending invites of future owners alone, unless it
displaces such an invite; and people become owners by an owner's hand or by an invite that an owner created. -/
theorem owners_protected :
    (∀ (c : Call) s principal o, c.request.actor = some (principal, o) → s.memberRole o principal.userId ≠ some .owner →
      ((c.perform sha256 s).2.owners o = s.owners o ∧ (c.perform sha256 s).2.pendingOwners o c.now = s.pendingOwners o c.now ↔
        ¬ c.Displaces sha256 s)) ∧
    ∀ start calls c o u, start.invites.rows = [] → (afterCalls sha256 start calls).memberRole o u ≠ some .owner →
      (afterCalls sha256 start (calls ++ [c])).memberRole o u = some .owner →
      (∃ principal, c.request = .updateMemberRole principal o u .owner ∧
        (afterCalls sha256 start calls).memberRole o principal.userId = some .owner) ∨
      ∃ id row, c.accepts (afterCalls sha256 start calls) = some row.tokenHash ∧ row.organizationId = o ∧ row.role = .owner ∧
        (afterCalls sha256 start calls).invites.get id = some row ∧
        ∃ earlier c' later principal email draw, calls = earlier ++ c' :: later ∧
          c'.request = .createInvite principal o email .owner draw ∧ row.createdBy = principal.userId ∧
          (afterCalls sha256 start earlier).memberRole o principal.userId = some .owner ∧
          (afterCalls sha256 start (earlier ++ [c'])).invites.get id = some row := by
  refine ⟨fun c s principal o hactor hrole => ⟨fun ⟨_, hsame⟩ hd => hd.lost hactor hrole hsame,
    fun hd => Change.owners_kept (c.change s) hactor hrole hd⟩, fun start calls c o u hstart hbefore hafter => ?_⟩
  rw [afterCalls_append] at hafter
  rcases Change.becomes_owner (Call.change c (afterCalls sha256 start calls)) hbefore hafter with hrole | ⟨id, row, haccepts, rfl, hown, hrow⟩
  · exact .inl hrole
  · exact .inr ⟨id, row, haccepts, rfl, hown, hrow, created_by_owner hstart calls hrow hown⟩

end claims

/-- `ann` owns the organization, `carl` is its admin. -/
def managedDb : ControlDb := { foundedDb with
  users := ⟨[("ann", ⟨"ann@a.co", "", "Ann", 0⟩), ("carl", ⟨"carl@c.co", "", "Carl", 0⟩)], by simp⟩
  members := ⟨[(("o", "ann"), ⟨.owner, 0⟩), (("o", "carl"), ⟨.admin, 0⟩)], by simp⟩ }

def carl : Principal := ⟨"carl", .session⟩

def inviteOwner : Call := ⟨.createInvite ann "o" "bob@b.co" .owner ⟨sampleSecret, "i"⟩, 10, 10000, .reliable⟩

def inviteAgain : Call := ⟨.createInvite carl "o" "bob@b.co" .member ⟨String.ofList (List.replicate 64 'c'), "j"⟩, 20, 20000, .reliable⟩

theorem admin_removes_nobody : (Call.perform id ⟨.removeMember carl "o" "ann", 20, 20000, .reliable⟩ managedDb).2.owners "o" = managedDb.owners "o" :=
  ((owners_protected.1 ⟨.removeMember carl "o" "ann", 20, 20000, .reliable⟩ managedDb carl "o" rfl (by decide)).mpr
    (by rintro ⟨_, _, _, _, _, _, _, _, hrequest, -⟩; cases hrequest)).1

/-- The admin invites the address again, and the owner's invite is gone. -/
theorem admin_displaces_invite : (afterCalls id managedDb [inviteOwner]).memberRole "o" "carl" = some .admin ∧
    (∃ row, ("i", row) ∈ (afterCalls id managedDb [inviteOwner]).pendingOwners "o" 20) ∧
    ∀ row, ("i", row) ∉ (afterCalls id managedDb [inviteOwner, inviteAgain]).pendingOwners "o" 20 := by
  refine ⟨by decide +kernel, ⟨invitedRow ann "o" "bob@b.co" .owner ("hgi_" ++ sampleSecret) 10, ?_⟩, fun row hrow => ?_⟩
  · have h : (afterCalls id managedDb [inviteOwner]).invites.get "i" = some (invitedRow ann "o" "bob@b.co" .owner ("hgi_" ++ sampleSecret) 10) := by
      decide +kernel
    exact ⟨h, rfl, rfl, by decide⟩
  · have h : (afterCalls id managedDb [inviteOwner, inviteAgain]).invites.get "i" = none := by decide +kernel
    have hget := hrow.1
    rw [h] at hget
    cases hget

end Hoglet.Control
