import Hoglet.Projections.Rows
import Hoglet.Projections.SentIds

/-! An event applied a second time at once finds everything as it would leave it. -/
namespace Hoglet.Projections
open Json Capture

section stays
variable {ν U : Type} {K : Crates ν U} {projectId : String} {s : Tables}

/-! Steps that change nothing. -/

theorem bind_stays {α γ : Type} {x : Effects α} {f : α → Effects γ} {a : α} {b : γ} (hx : x s = .ok a s) (hf : f a s = .ok b s) :
    (x >>= f) s = .ok b s := by
  simp only [Bind.bind, EStateM.bind, hx, hf]

theorem setPerson_stays {p : String} {f : PersonRow → PersonRow} (h : ∀ row, s.person projectId p = some row → f row = row) :
    s.setPerson projectId p f = s := by
  have hpersons : (s.persons.update fun k r => if k = (projectId, p) then f r else r) = s.persons := by
    refine Table.update_stays fun k r hr => ?_
    split
    · rename_i hk
      subst hk
      exact h r hr
    · rfl
  rw [Tables.setPerson, hpersons]

theorem ensurePerson_stays {d p : String} (h : s.personOf projectId d = some p) (event : CapturedEvent ν U) :
    ensurePerson projectId d event s = .ok p s := by
  obtain ⟨row, hrow, rfl⟩ := Tables.personOf_eq_some.mp h
  refine bind_stays rfl ?_
  rw [hrow]
  rfl

theorem personRow_stays {p : String} {row : PersonRow} (h : s.person projectId p = some row) : personRow projectId p s = .ok row s := by
  refine bind_stays rfl ?_
  rw [h]
  rfl

theorem decoded_stays {encoded : String} {properties : Map ν} (h : decodeProperties K encoded = .ok properties) :
    decoded K encoded s = .ok properties s := by
  rw [decoded, h]
  rfl

theorem rowOf_eq {d p : String} (h : s.personOf projectId d = some p) : s.rowOf projectId d = s.person projectId p := by
  rw [Tables.rowOf, h, Option.bind_some]

end stays

/-! What an application leaves settled. -/
section settled
variable {ν U : Type} (K : Crates ν U) (projectId : String) (event : CapturedEvent ν U) (s : Tables)

/-- The person has been seen at the event's time or later. -/
def SeenAt : Prop := ∃ row seen, s.rowOf projectId event.distinctId = some row ∧ row.lastSeen = some seen ∧ event.timestamp.sortableTime ≤ seen

/-- The linked ids have one person, or two that the guard keeps apart. -/
def LinkSettled : Prop := ∀ other guard, linkOf event = some (other, guard) → ∃ q, s.personOf projectId other = some q ∧
  (s.personOf projectId event.distinctId = some q ∨ Refuses guard (s.rowOf projectId event.distinctId) (s.rowOf projectId other))

def Marked : Prop := event.event = "$identify" ∨ event.event = "$create_alias" →
  (s.rowOf projectId event.distinctId).any PersonRow.isIdentified

/-- The members that a group event sets. -/
def groupSet : List (String × Value ν) := ((event.properties.get "$group_set").bind asObject).getD []

def GroupSettled : Prop := event.event = "$groupidentify" → ∀ groupType key, (event.properties.get "$group_type").bind Value.asStr = some groupType →
  (event.properties.get "$group_key").bind (groupKey K) = some key → ∃ row properties, s.groups.get (projectId, groupType, key) = some row ∧
    decodeProperties K row.properties = .ok properties ∧ encodeProperties K (insertAll properties (groupSet event)) = row.properties

def setOnceOf : Option (List (String × Value ν)) := (event.properties.get "$set_once").bind asObject
def setOf : Option (List (String × Value ν)) := (event.properties.get "$set").bind asObject
def unsetOf : Option (List (Value ν)) := (event.properties.get "$unset").bind asArray

/-- What an event makes of its person's properties. -/
def updated (properties : Map ν) : Map ν :=
  updateProperties properties ((setOnceOf event).getD []) ((setOf event).getD []) ((unsetOf event).getD [])

def PropertiesSettled : Prop := ((setOnceOf event).isNone && (setOf event).isNone && (unsetOf event).isNone) = false →
  ∃ row properties, s.rowOf projectId event.distinctId = some row ∧ decodeProperties K row.properties = .ok properties ∧
    encodeProperties K (updated event properties) = row.properties

/-- Everything an event asks for is there. -/
structure Settled : Prop where
  seen : SeenAt projectId event s
  link : LinkSettled projectId event s
  marked : Marked projectId event s
  group : GroupSettled K projectId event s
  properties : PropertiesSettled K projectId event s

variable {K projectId event s}

theorem Settled.known (h : SeenAt projectId event s) : ∃ p row, s.personOf projectId event.distinctId = some p ∧ s.person projectId p = some row := by
  obtain ⟨row, -, hrow, -⟩ := h
  obtain ⟨p, hp, hrow⟩ := Option.bind_eq_some_iff.mp hrow
  exact ⟨p, row, hp, hrow⟩

theorem mergePersons_stays (h : LinkSettled projectId event s) (hseen : SeenAt projectId event s) {other : String} {guard : MergeGuard}
    (hlink : linkOf event = some (other, guard)) : mergePersons K projectId other event.distinctId event guard s = .ok () s := by
  obtain ⟨p, row, hp, hrow⟩ := Settled.known hseen
  obtain ⟨q, hq, hsettled⟩ := h other guard hlink
  refine bind_stays (ensurePerson_stays hp event) (bind_stays (ensurePerson_stays hq event) ?_)
  by_cases hpq : p = q
  · rw [if_pos hpq]
    rfl
  rw [if_neg hpq]
  have hrefuses : Refuses guard (s.person projectId p) (s.person projectId q) := by
    rcases hsettled with hsame | hrefuses
    · exact absurd (Option.some.inj (hp.symm.trans hsame)) hpq
    · rwa [rowOf_eq hp, rowOf_eq hq] at hrefuses
  obtain ⟨hloser, hguard⟩ := hrefuses
  obtain ⟨loser, hl, hid⟩ := (Option.any_eq_true _ _).mp hloser
  have hguarded : guardedMerge projectId guard p q s = .ok none s := by
    refine bind_stays (personRow_stays hl) ?_
    rw [hid]
    rcases hguard with rfl | ⟨rfl, hwinner⟩
    · rfl
    · obtain ⟨winner, hw, hid'⟩ := (Option.any_eq_true _ _).mp hwinner
      refine bind_stays (personRow_stays hw) ?_
      rw [if_pos hid']
      rfl
  exact bind_stays hguarded rfl

theorem markIdentified_stays (h : (s.rowOf projectId event.distinctId).any PersonRow.isIdentified) :
    markIdentified projectId event.distinctId s = .ok () s := by
  obtain ⟨row, hrow, hid⟩ := (Option.any_eq_true _ _).mp h
  obtain ⟨p, hp, hrow⟩ := Option.bind_eq_some_iff.mp hrow
  refine bind_stays rfl ?_
  rw [hp]
  change EStateM.Result.ok () (s.setPerson projectId p _) = _
  rw [setPerson_stays]
  intro row' hrow'
  rw [hrow] at hrow'
  cases hrow'
  rw [← hid]

theorem applyGroup_stays (h : GroupSettled K projectId event s) (hname : event.event = "$groupidentify") :
    applyGroup K projectId event s = .ok () s := by
  unfold applyGroup
  cases htype : (event.properties.get "$group_type").bind Value.asStr with
  | none => rfl
  | some groupType =>
    cases hkey : (event.properties.get "$group_key").bind (groupKey K) with
    | none => rfl
    | some key =>
      obtain ⟨row, properties, hrow, hdecode, hencode⟩ := h hname groupType key htype hkey
      refine bind_stays rfl ?_
      rw [hrow]
      refine bind_stays (decoded_stays hdecode) ?_
      change EStateM.Result.ok () ({ s with groups := _ } : Tables) = _
      rw [Table.upsert_stays hrow]
      change ({ row with properties := encodeProperties K (insertAll properties (groupSet event)) } : GroupRow) = row
      rw [hencode]

theorem applyPersonProperties_stays (h : PropertiesSettled K projectId event s) : applyPersonProperties K projectId event.distinctId event s = .ok () s := by
  unfold applyPersonProperties
  simp only
  split
  · rfl
  rename_i hsome
  obtain ⟨row, properties, hrow, hdecode, hencode⟩ := h (Bool.eq_false_iff.mpr hsome)
  obtain ⟨p, hp, hrow⟩ := Option.bind_eq_some_iff.mp hrow
  refine bind_stays (ensurePerson_stays hp event) (bind_stays (personRow_stays hrow) (bind_stays (decoded_stays hdecode) ?_))
  change EStateM.Result.ok () (s.setPerson projectId p _) = _
  rw [setPerson_stays]
  intro row' hrow'
  rw [hrow] at hrow'
  cases hrow'
  change ({ row with properties := encodeProperties K (updated event properties) } : PersonRow) = row
  rw [hencode]

/-- The effects change nothing. -/
def Stays (x : Effects Unit) (s : Tables) : Prop := x s = .ok () s

private theorem mergeLinked_stays (h : Settled K projectId event s) : Stays (mergeLinked K projectId event) s := by
  unfold mergeLinked
  cases hlink : linkOf event with
  | none => rfl
  | some link => exact mergePersons_stays h.link h.seen hlink

theorem applyLink_stays (h : Settled K projectId event s) : Stays (applyLink K projectId event) s := by
  rw [applyLink_eq]
  refine bind_stays (mergeLinked_stays h) ?_
  split
  · rename_i hname
    exact markIdentified_stays (h.marked hname)
  split
  · rename_i hname
    exact applyGroup_stays h.group hname
  · rfl

/-- Where everything is settled, the event changes nothing. -/
theorem applyIdentity_stays (h : Settled K projectId event s) : applyIdentity K projectId event s = .ok () s := by
  obtain ⟨p, row, hp, hrow⟩ := Settled.known h.seen
  refine bind_stays (ensurePerson_stays hp event) (bind_stays (a := ()) ?_ (bind_stays (applyLink_stays h) (applyPersonProperties_stays h.properties)))
  change EStateM.Result.ok () (s.setPerson projectId p (markSeen event)) = _
  rw [setPerson_stays]
  intro row' hrow'
  obtain ⟨row'', seen, hrow'', hseen, hle⟩ := h.seen
  rw [rowOf_eq hp, hrow'] at hrow''
  cases hrow''
  rw [markSeen, hseen, Option.all_some, if_neg (fun hlt => absurd (of_decide_eq_true hlt) (not_lt.mpr hle))]

end settled

/-! What an application leaves. -/
section first
variable {ν U : Type} {K : Crates ν U} {projectId : String} {event : CapturedEvent ν U} {s s' : Tables}

/-- Distinct ids stay where they are, and rows keep when their people were seen and whether they are identified. -/
structure Keeps (projectId : String) (s s' : Tables) : Prop where
  ids : s'.personOf projectId = s.personOf projectId
  rows : ∀ d row, s.rowOf projectId d = some row → ∃ row', s'.rowOf projectId d = some row' ∧ row'.lastSeen = row.lastSeen ∧
    (row.isIdentified = true → row'.isIdentified = true)

theorem Keeps.refl (s : Tables) : Keeps projectId s s := ⟨rfl, fun _ row hrow => ⟨row, hrow, rfl, id⟩⟩

theorem rowOf_setPerson (p : String) (f : PersonRow → PersonRow) (d : String) : (s.setPerson projectId p f).rowOf projectId d =
    (s.rowOf projectId d).map fun row => if s.personOf projectId d = some p then f row else row := by
  rw [Tables.rowOf, Tables.personOf_setPerson, Tables.rowOf]
  cases hq : s.personOf projectId d with
  | none => rfl
  | some q =>
    rw [Option.bind_some, Option.bind_some, Tables.person_setPerson]
    simp

theorem Keeps.setPerson (s : Tables) (p : String) {f : PersonRow → PersonRow}
    (hf : ∀ row, (f row).lastSeen = row.lastSeen ∧ (row.isIdentified = true → (f row).isIdentified = true)) :
    Keeps projectId s (s.setPerson projectId p f) := by
  refine ⟨rfl, fun d row hrow => ⟨_, by rw [rowOf_setPerson, hrow, Option.map_some], ?_⟩⟩
  split
  · exact hf row
  · exact ⟨rfl, id⟩

theorem Keeps.any (h : Keeps projectId s s') {d : String} (hd : (s.rowOf projectId d).any PersonRow.isIdentified) :
    (s'.rowOf projectId d).any PersonRow.isIdentified := by
  obtain ⟨row, hrow, hid⟩ := (Option.any_eq_true _ _).mp hd
  obtain ⟨row', hrow', -, hkept⟩ := h.rows d row hrow
  exact (Option.any_eq_true _ _).mpr ⟨row', hrow', hkept hid⟩

theorem Keeps.seenAt (h : Keeps projectId s s') (hseen : SeenAt projectId event s) : SeenAt projectId event s' := by
  obtain ⟨row, seen, hrow, hlast, hle⟩ := hseen
  obtain ⟨row', hrow', hlast', -⟩ := h.rows _ row hrow
  exact ⟨row', seen, hrow', hlast'.trans hlast, hle⟩

theorem Refuses.mono {guard : MergeGuard} {winner loser winner' loser' : Option PersonRow} (h : Refuses guard winner loser)
    (hw : winner.any PersonRow.isIdentified → winner'.any PersonRow.isIdentified)
    (hl : loser.any PersonRow.isIdentified → loser'.any PersonRow.isIdentified) : Refuses guard winner' loser' :=
  ⟨hl h.1, h.2.imp_right fun ⟨heq, hwinner⟩ => ⟨heq, hw hwinner⟩⟩

theorem Keeps.link (h : Keeps projectId s s') (hlink : LinkSettled projectId event s) : LinkSettled projectId event s' := by
  intro other guard hother
  obtain ⟨q, hq, hsettled⟩ := hlink other guard hother
  rw [h.ids]
  exact ⟨q, hq, hsettled.imp_right fun hrefuses => hrefuses.mono h.any h.any⟩

/-- The rows of known ids stay when another id is ensured. -/
theorem Ensured.rowOf {d p : String} (h : Ensured projectId d event s p s') (hs : s.Resolved) {e : String}
    (he : s.personOf projectId e ≠ none) : s'.rowOf projectId e = s.rowOf projectId e := by
  obtain ⟨q, hq⟩ := Option.ne_none_iff_exists'.mp he
  rw [rowOf_eq hq, rowOf_eq (h.keeps hq)]
  cases h with
  | known _ => rfl
  | created hd hids hrows =>
    rw [hrows, if_neg]
    rintro heq
    have hroot := hs.rooted projectId e q hq
    rw [(Prod.mk.inj heq).2, hd] at hroot
    cases hroot

theorem le_max_lastSeen {seen text : String} {a b : Option String} (h : a = some seen ∨ b = some seen) (hle : text ≤ seen) :
    ∃ seen', Option.max a b = some seen' ∧ text ≤ seen' := by
  rcases h with rfl | rfl
  · cases b with
    | none => exact ⟨seen, rfl, hle⟩
    | some other => exact ⟨_, rfl, hle.trans (le_max_left seen other)⟩
  · cases a with
    | none => exact ⟨seen, rfl, hle⟩
    | some other => exact ⟨_, rfl, hle.trans (le_max_right other seen)⟩

/-- After a merge its person has been seen still, and the two ids have one person or are kept apart. -/
theorem Merges.settles {other : String} {guard : MergeGuard} (h : Merges K projectId other event.distinctId event guard s s')
    (hs : s.Resolved) (hseen : SeenAt projectId event s) : SeenAt projectId event s' ∧ ∃ q, s'.personOf projectId other = some q ∧
      (s'.personOf projectId event.distinctId = some q ∨ Refuses guard (s'.rowOf projectId event.distinctId) (s'.rowOf projectId other)) := by
  obtain ⟨p, row, hp, hrow⟩ := Settled.known hseen
  have hkept : ∀ {w l s₁ s₂}, Ensured projectId event.distinctId event s w s₁ → Ensured projectId other event s₁ l s₂ →
      SeenAt projectId event s₂ ∧ s₂.personOf projectId event.distinctId = some w ∧ s₂.personOf projectId other = some l := by
    intro w l s₁ s₂ hw hl
    obtain ⟨rfl, rfl⟩ := hw.of_known hp
    refine ⟨?_, hl.keeps hp, hl.points⟩
    rw [SeenAt, hl.rowOf hs (by simp [hp])]
    exact hseen
  cases h with
  | same hw hl =>
    obtain ⟨hseen₂, hwinning, hlosing⟩ := hkept hw hl
    exact ⟨hseen₂, _, hlosing, .inl hwinning⟩
  | refused hw hl hrefuses =>
    obtain ⟨hseen₂, hwinning, hlosing⟩ := hkept hw hl
    refine ⟨hseen₂, _, hlosing, .inr ?_⟩
    rwa [rowOf_eq hwinning, rowOf_eq hlosing]
  | @joined w l s₁ s₂ _ hw hl kept gone hne hsides winner loser hjoins =>
    obtain ⟨⟨seenRow, seen, hseenRow, hlast, hle⟩, hwinning, hlosing⟩ := hkept hw hl
    obtain ⟨merged, hlastSeen, hperson, hids⟩ := hjoins.survivor hne
    have hside : ∀ {e q}, s₂.personOf projectId e = some q → q = w ∨ q = l → s'.personOf projectId e = some kept := by
      intro e q he hq
      refine hids e ?_
      rcases hsides with ⟨rfl, rfl⟩ | ⟨rfl, rfl⟩
      · rcases hq with rfl | rfl
        · exact .inl he
        · exact .inr he
      · rcases hq with rfl | rfl
        · exact .inr he
        · exact .inl he
    have hwin := hside hwinning (.inl rfl)
    have hlose := hside hlosing (.inr rfl)
    refine ⟨?_, kept, hlose, .inl hwin⟩
    rw [rowOf_eq hwinning] at hseenRow
    have hone : winner.lastSeen = some seen ∨ loser.lastSeen = some seen := by
      rcases hsides with ⟨rfl, rfl⟩ | ⟨rfl, rfl⟩
      · left
        rw [← hlast, Option.some.inj (hseenRow.symm.trans hjoins.hwinner)]
      · right
        rw [← hlast, Option.some.inj (hseenRow.symm.trans hjoins.hloser)]
    obtain ⟨seen', hmax, hle'⟩ := le_max_lastSeen hone hle
    exact ⟨merged, seen', (rowOf_eq hwin).trans hperson, hlastSeen.trans hmax, hle'⟩

theorem markIdentified_first (hknown : s.rowOf projectId event.distinctId ≠ none) : Ends (markIdentified projectId event.distinctId) s
    (fun _ s' => Keeps projectId s s' ∧ (s'.rowOf projectId event.distinctId).any PersonRow.isIdentified) fun _ _ => True := by
  obtain ⟨row, hrow⟩ := Option.ne_none_iff_exists'.mp hknown
  obtain ⟨p, hp, -⟩ := Option.bind_eq_some_iff.mp hrow
  refine .bind (.get ?_)
  rw [hp]
  refine .modify ⟨.setPerson s p fun row => ⟨rfl, fun _ => rfl⟩, ?_⟩
  rw [rowOf_setPerson, hrow, Option.map_some, if_pos hp]
  rfl

theorem applyGroup_first (he : Within storedDepth event.properties) : Ends (applyGroup K projectId event) s
    (fun _ s' => Keeps projectId s s' ∧ GroupSettled K projectId event s') fun _ _ => True := by
  have hnone : ∀ {s : Tables}, ((event.properties.get "$group_type").bind Value.asStr = none ∨
      (event.properties.get "$group_key").bind (groupKey K) = none) → GroupSettled K projectId event s := by
    intro s hor _ groupType key htype hkey
    rcases hor with hnot | hnot
    · rw [hnot] at htype
      cases htype
    · rw [hnot] at hkey
      cases hkey
  unfold applyGroup
  cases htype : (event.properties.get "$group_type").bind Value.asStr with
  | none => exact .pure ⟨.refl s, hnone (.inl htype)⟩
  | some groupType =>
    cases hkey : (event.properties.get "$group_key").bind (groupKey K) with
    | none => exact .pure ⟨.refl s, hnone (.inr hkey)⟩
    | some key =>
      have hwritten : ∀ properties, Within storedDepth properties → ∀ (groups : Table (String × String × String) GroupRow) (row : GroupRow),
          groups.get (projectId, groupType, key) = some row → row.properties = encodeProperties K (insertAll properties (groupSet event)) →
          Keeps projectId s { s with groups } ∧ GroupSettled K projectId event { s with groups } := by
        intro properties hwithin groups row hrow hproperties
        refine ⟨⟨rfl, fun _ row hrow => ⟨row, hrow, rfl, id⟩⟩, fun _ groupType' key' htype' hkey' => ?_⟩
        rw [htype] at htype'
        rw [hkey] at hkey'
        cases htype'
        cases hkey'
        have hset : Within storedDepth (insertAll properties (groupSet event)) := hwithin.insertAll (asObject_within he "$group_set")
        refine ⟨row, _, hrow, hproperties ▸ decode_encode K hset, ?_⟩
        rw [insertAll_insertAll, hproperties]
      refine .bind (.get ?_)
      cases hrow : s.groups.get (projectId, groupType, key) with
      | none =>
        refine .bind (.pure (.modify (hwritten Map.empty (Within.empty _) _
          ⟨encodeProperties K (insertAll Map.empty (groupSet event)), event.timestamp.toRfc3339⟩ ?_ rfl)))
        rw [Table.get_upsert, if_pos rfl, hrow]
        rfl
      | some row =>
        refine .bind ((decoded_found row.properties).mono ?_ fun _ _ h => h)
        rintro properties _ ⟨hdecode, rfl⟩
        refine .modify (hwritten properties (within_of_decode hdecode) _
          { row with properties := encodeProperties K (insertAll properties (groupSet event)) } ?_ rfl)
        rw [Table.get_upsert, if_pos rfl, hrow]
        rfl

theorem applyPersonProperties_first (he : Within storedDepth event.properties) (hseen : SeenAt projectId event s) :
    Ends (applyPersonProperties K projectId event.distinctId event) s
      (fun _ s' => Keeps projectId s s' ∧ s'.groups = s.groups ∧ PropertiesSettled K projectId event s') fun _ _ => True := by
  obtain ⟨p, row, hp, hrow⟩ := Settled.known hseen
  have hwritten : ∀ properties, decodeProperties K row.properties = .ok properties →
      ∀ s', s' = s.setPerson projectId p (fun r => { r with properties := encodeProperties K (updated event properties) }) →
        Keeps projectId s s' ∧ s'.groups = s.groups ∧ PropertiesSettled K projectId event s' := by
    rintro properties hdecode _ rfl
    have hwithin : Within storedDepth (updated event properties) :=
      (within_of_decode hdecode).updateProperties (asObject_within he "$set_once") (asObject_within he "$set")
    refine ⟨.setPerson _ _ fun row => ⟨rfl, id⟩, rfl, fun _ => ?_⟩
    refine ⟨{ row with properties := encodeProperties K (updated event properties) }, updated event properties, ?_, decode_encode K hwithin, ?_⟩
    · rw [rowOf_setPerson, rowOf_eq hp, hrow, Option.map_some, if_pos hp]
    · rw [updated, updated, updateProperties_updateProperties]
  unfold applyPersonProperties
  simp only
  split
  · rename_i hnone
    refine .pure ⟨.refl s, rfl, fun hsome => ?_⟩
    exact absurd hnone (Bool.eq_false_iff.mp hsome)
  have hensure : Ends (ensurePerson projectId event.distinctId event) s (fun q s' => q = p ∧ s' = s) fun _ _ => True := by
    rw [Ends, ensurePerson_stays hp event]
    exact ⟨rfl, rfl⟩
  refine .bind (hensure.mono ?_ fun _ _ h => h)
  rintro _ _ ⟨rfl, rfl⟩
  refine .bind ((personRow_ends hrow).mono ?_ fun _ _ h => h)
  rintro _ _ ⟨rfl, rfl⟩
  refine .bind ((decoded_found _).mono ?_ fun _ _ h => h)
  rintro properties _ ⟨hdecode, rfl⟩
  exact .modify (hwritten properties hdecode _ rfl)

private theorem mergeLinked_first (hs : s.Resolved) (hseen : SeenAt projectId event s) : Ends (mergeLinked K projectId event) s
    (fun _ s' => SeenAt projectId event s' ∧ LinkSettled projectId event s') fun _ _ => True := by
  unfold mergeLinked
  cases hlink : linkOf event with
  | none =>
    refine .pure ⟨hseen, fun other guard h => ?_⟩
    rw [hlink] at h
    cases h
  | some link =>
    refine (mergePersons_merges hs link.1 event.distinctId event link.2).mono (fun _ s' hmerges => ?_) fun _ _ h => h
    obtain ⟨hseen', hsettled⟩ := hmerges.settles hs hseen
    refine ⟨hseen', fun other guard h => ?_⟩
    rw [hlink] at h
    cases h
    exact hsettled

theorem applyLink_first (hs : s.Resolved) (he : Within storedDepth event.properties) (hseen : SeenAt projectId event s) :
    Ends (applyLink K projectId event) s (fun _ s' => SeenAt projectId event s' ∧ LinkSettled projectId event s' ∧
      Marked projectId event s' ∧ GroupSettled K projectId event s') fun _ _ => True := by
  rw [applyLink_eq]
  refine .bind ((mergeLinked_first hs hseen).mono ?_ fun _ _ h => h)
  rintro _ s₁ ⟨hseen₁, hlink₁⟩
  split
  · rename_i hname
    have hknown : s₁.rowOf projectId event.distinctId ≠ none := by
      obtain ⟨row, seen, hrow, -⟩ := hseen₁
      simp [hrow]
    refine (markIdentified_first hknown).mono ?_ fun _ _ h => h
    rintro _ s' ⟨hkeeps, hmarked⟩
    refine ⟨hkeeps.seenAt hseen₁, hkeeps.link hlink₁, fun _ => hmarked, fun hgroup => ?_⟩
    rcases hname with hname | hname <;> simp [hname] at hgroup
  rename_i hname
  split
  · refine (applyGroup_first he).mono ?_ fun _ _ h => h
    rintro _ s' ⟨hkeeps, hgroup⟩
    exact ⟨hkeeps.seenAt hseen₁, hkeeps.link hlink₁, fun h => absurd h hname, hgroup⟩
  · rename_i hgroup
    exact .pure ⟨hseen₁, hlink₁, fun h => absurd h hname, fun h => absurd h hgroup⟩

end first

section twice
variable {ν U : Type} {K : Crates ν U} {projectId : String} {event : CapturedEvent ν U} {s s' : Tables}

theorem markSeen_seen (row : PersonRow) : ∃ seen, (markSeen event row).lastSeen = some seen ∧ event.timestamp.sortableTime ≤ seen := by
  unfold markSeen
  split
  · exact ⟨_, rfl, le_rfl⟩
  · rename_i hlater
    cases hseen : row.lastSeen with
    | none =>
      rw [hseen] at hlater
      exact absurd rfl hlater
    | some seen =>
      rw [hseen, Option.all_some, decide_eq_true_eq, not_lt] at hlater
      exact ⟨seen, rfl, hlater⟩

theorem applyIdentity_first (hs : s.Resolved) (he : Within storedDepth event.properties) :
    Ends (applyIdentity K projectId event) s (fun _ s' => Settled K projectId event s') fun _ _ => True := by
  refine .bind ((ensurePerson_ends hs event.distinctId event).mono (fun p s₁ ⟨hs₁, hp⟩ => ?_) fun _ _ h => h)
  obtain ⟨row, hrow⟩ := Option.isSome_iff_exists.mp ((hs₁.person projectId p).mpr (hs₁.rooted projectId _ p hp.points))
  have hchange : Change projectId true s₁ (s₁.setPerson projectId p (markSeen event)) :=
    .touched p _ fun r hr => (markSeen_keeps event r).2.1.trans hr
  have hmarked : (s₁.setPerson projectId p (markSeen event)).Resolved := hchange.resolved hs₁
  have hseen : SeenAt projectId event (s₁.setPerson projectId p (markSeen event)) := by
    obtain ⟨seen, hseen, hle⟩ : ∃ seen, (markSeen event row).lastSeen = some seen ∧ _ := markSeen_seen row
    exact ⟨_, seen, by rw [rowOf_setPerson, rowOf_eq hp.points, hrow, Option.map_some, if_pos hp.points], hseen, hle⟩
  refine .bind (.modify (.bind ((applyLink_first hmarked he hseen).mono (fun _ s₂ ⟨hseen₂, hlink, hmark, hgroup⟩ => ?_) fun _ _ h => h)))
  refine (applyPersonProperties_first he hseen₂).mono (fun _ s₃ ⟨hkeeps, hgroups, hproperties⟩ => ?_) fun _ _ h => h
  refine ⟨hkeeps.seenAt hseen₂, hkeeps.link hlink, fun h => hkeeps.any (hmark h), ?_, hproperties⟩
  rw [GroupSettled, hgroups]
  exact hgroup

end twice
end Hoglet.Projections
