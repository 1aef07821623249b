import Hoglet.Projections.SentIds

/-! Who a flag is evaluated for, and what a login does to the id that flags with experience continuity
are bucketed by. -/
namespace Hoglet.Flags
open Json Capture Projections

inductive PersonStoreError where
  | database
  | corrupt (message : String)
  deriving DecidableEq, Repr

/-- One person, as stored. -/
structure PersonRecord (ν : Type) where
  projectId : String
  id : String
  properties : Map ν
  isIdentified : Bool
  createdAt : String
  firstSeenKey : String

structure Subject (ν : Type) where
  distinctId : String
  properties : Map ν
  continuityId : String

/-- What the caller knows about the person besides the distinct id. -/
structure SubjectHints (ν : Type) where
  anonDistinctId : Option String
  personProperties : Option (Map ν)

section resolve
variable {ν U : Type} (K : Crates ν U)

def decodeObject (encoded : String) : Except PersonStoreError (Map ν) :=
  match parse K.numbers recursionBudget encoded.toList with
  | some (.object members) => .ok (.ofWritten members)
  | _ => .error (.corrupt "person properties are not a JSON object")

/-- The person a distinct id currently resolves to. -/
def personForDistinctId (s : Tables) (projectId distinctId : String) : Except PersonStoreError (Option (PersonRecord ν)) :=
  match s.distinctIds.get (projectId, distinctId) with
  | none => .ok none
  | some d =>
    match s.person projectId d.personId with
    | none => .ok none
    | some p => (decodeObject K p.properties).map fun properties =>
      some ⟨projectId, d.personId, properties, p.isIdentified, p.createdAt, p.firstSeenKey⟩

/-- The subject, and whether the person store failed. -/
def resolveSubject (s : Tables) (projectId distinctId : String) (hints : SubjectHints ν) (needsPerson : Bool) : Subject ν × Bool :=
  let anon := hints.anonDistinctId.filter (· ≠ "")
  let stored : Map ν × Option String × Bool :=
    if needsPerson then
      match personForDistinctId K s projectId distinctId with
      | .ok (some person) => (person.properties, some person.firstSeenKey, false)
      | .ok none =>
        match anon with
        | none => (.empty, none, false)
        | some anon =>
          match personForDistinctId K s projectId anon with
          | .ok (some person) => (.empty, some person.firstSeenKey, false)
          | .ok none => (.empty, some anon, false)
          | .error _ => (.empty, some anon, true)
      | .error _ => (.empty, none, true)
    else (.empty, none, false)
  let (properties, continuityId, failed) := stored
  let properties := match hints.personProperties with
    | some overrides => insertAll properties overrides.members
    | none => properties
  (⟨distinctId, properties, (continuityId.or anon).getD distinctId⟩, failed)

end resolve

section continuity
variable {ν U : Type} {K : Crates ν U} {projectId : String} {s s' : Tables}

private theorem decodeObject_ok {encoded : String} {properties : Map ν} (h : decodeProperties K encoded = .ok properties) :
    decodeObject K encoded = .ok properties := by
  rw [decodeProperties] at h
  rw [decodeObject]
  cases hparse : parse K.numbers recursionBudget encoded.toList with
  | none =>
    rw [hparse] at h
    cases h
  | some v =>
    rw [hparse] at h
    cases v with
    | object members =>
      cases h
      rfl
    | _ => cases h

theorem personForDistinctId_unknown {d : String} (hd : s.personOf projectId d = none) :
    personForDistinctId K s projectId d = .ok none := by
  unfold personForDistinctId
  rw [Option.map_eq_none_iff.mp hd]

theorem personForDistinctId_known (hs : s.Orderly K) {d p : String} {row : PersonRow} (hd : s.personOf projectId d = some p)
    (hrow : s.person projectId p = some row) :
    ∃ person, personForDistinctId K s projectId d = .ok (some person) ∧ person.firstSeenKey = row.firstSeenKey := by
  obtain ⟨r, hr, rfl⟩ := Tables.personOf_eq_some.mp hd
  obtain ⟨properties, hdecoded, -⟩ := hs.readable projectId _ row hrow
  unfold personForDistinctId
  simp only [hr, hrow, decodeObject_ok hdecoded]
  exact ⟨_, rfl, rfl⟩

/-- A known person's first-seen key, whatever the hints. -/
theorem continuity_known (hs : s.Orderly K) {d p : String} {row : PersonRow} (hd : s.personOf projectId d = some p)
    (hrow : s.person projectId p = some row) (hints : SubjectHints ν) :
    (resolveSubject K s projectId d hints true).1.continuityId = row.firstSeenKey := by
  obtain ⟨person, hperson, hkey⟩ := personForDistinctId_known hs hd hrow
  simp [resolveSubject, hperson, hkey]

/-- Whoever is not identified is known by the id itself. -/
private theorem key_alone (hs : s.Orderly K) {d p : String} {row : PersonRow}
    (hun : ∀ p row, s.personOf projectId d = some p → s.person projectId p = some row → row.isIdentified = false)
    (hd : s.personOf projectId d = some p) (hrow : s.person projectId p = some row) : row.firstSeenKey = d := by
  rw [(hs.lone projectId p row hrow (hun p row hd hrow)).1, (hs.alone hun).1 p hd]

private theorem person_of_known (hs : s.Orderly K) {d p : String} (hd : s.personOf projectId d = some p) :
    ∃ row, s.person projectId p = some row :=
  Option.isSome_iff_exists.mp ((hs.resolved.person projectId p).mpr (hs.resolved.rooted projectId d p hd))

theorem continuity_anonymous (hs : s.Orderly K) {a : String}
    (hun : ∀ p row, s.personOf projectId a = some p → s.person projectId p = some row → row.isIdentified = false)
    (properties : Option (Map ν)) : (resolveSubject K s projectId a ⟨none, properties⟩ true).1.continuityId = a := by
  cases ha : s.personOf projectId a with
  | none => simp [resolveSubject, personForDistinctId_unknown ha]
  | some p =>
    obtain ⟨row, hrow⟩ := person_of_known hs ha
    rw [continuity_known hs ha hrow, key_alone hs hun ha hrow]

theorem continuity_hinted (hs : s.Orderly K) {a u : String} (ha : a ≠ "") (hu : s.personOf projectId u = none)
    (hun : ∀ p row, s.personOf projectId a = some p → s.person projectId p = some row → row.isIdentified = false)
    (properties : Option (Map ν)) : (resolveSubject K s projectId u ⟨some a, properties⟩ true).1.continuityId = a := by
  cases hp : s.personOf projectId a with
  | none => simp [resolveSubject, personForDistinctId_unknown hu, personForDistinctId_unknown hp, Option.filter_some, ha]
  | some p =>
    obtain ⟨row, hrow⟩ := person_of_known hs hp
    obtain ⟨person, hperson, hkey⟩ := personForDistinctId_known hs hp hrow
    simp [resolveSubject, personForDistinctId_unknown hu, hperson, hkey, key_alone hs hun hp hrow, Option.filter_some, ha]

/-- After the first login the user's person has the anonymous person's key when that person is older by
its text, and the user's own key when not. -/
private theorem login_key {a : String} {event : CapturedEvent ν U} (hs : s.Orderly K) (hlogged : Logged K event)
    (hname : event.event = "$identify") (hanon : event.properties.get "$anon_distinct_id" = some (.string a)) (ha : a ≠ "")
    (hne : a ≠ event.distinctId) (hu : s.personOf projectId event.distinctId = none)
    (hun : ∀ p row, s.personOf projectId a = some p → s.person projectId p = some row → row.isIdentified = false)
    (happlied : applyIdentityEffects K projectId event s = .ok () s') :
    ∃ row', s'.personOf projectId event.distinctId = some event.distinctId ∧ s'.person projectId event.distinctId = some row' ∧
      ((∃ row, s.person projectId a = some row ∧ row.createdAt < event.timestamp.toRfc3339) ∧ row'.firstSeenKey = a ∨
        (¬ ∃ row, s.person projectId a = some row ∧ row.createdAt < event.timestamp.toRfc3339) ∧
          row'.firstSeenKey = event.distinctId) := by
  obtain ⟨-, p, s₁, s₂, hensured, hlinked, htouched⟩ := (event_ends hs hlogged.within).ok happlied
  have hlink : linkOf event = some (a, .refuseIdentifiedSource) := by
    have hother : otherId event "$anon_distinct_id" = some a := by
      rw [otherId, hanon, Option.bind_some]
      exact Option.filter_some_pos (by simpa using ⟨ha, hne⟩)
    simp [linkOf, hname, hother]
  rw [Linked, hlink] at hlinked
  have hunseen := hensured.unidentified_seen hun
  have halone := hs.alone hun
  cases hensured with
  | known hp =>
    rw [hu] at hp
    cases hp
  | created _ hids hrows =>
    generalize ht : s₁.setPerson projectId event.distinctId (markSeen event) = t at hlinked hunseen
    have hidu : t.personOf projectId event.distinctId = some event.distinctId := by
      rw [← ht, Tables.personOf_setPerson, hids, if_pos rfl, Forest.create, Function.update_self]
    have hida : t.personOf projectId a = s.personOf projectId a := by
      rw [← ht, Tables.personOf_setPerson, hids, if_pos rfl, Forest.create, Function.update_of_ne hne]
    have hrowu : t.person projectId event.distinctId = some (markSeen event (newPerson event event.distinctId)) := by
      rw [← ht, Tables.person_setPerson, hrows, if_pos rfl, Option.map_some, if_pos rfl]
    have hrowa : t.person projectId a = s.person projectId a := by
      have hother : (projectId, a) ≠ (projectId, event.distinctId) := by simpa using hne
      rw [← ht, Tables.person_setPerson, hrows, if_neg hother]
      simp [hne]
    have hlosing : ∀ {l t₂}, Ensured projectId a event t l t₂ → l = a ∧ t₂.personOf projectId event.distinctId = some event.distinctId ∧
        t₂.person projectId event.distinctId = t.person projectId event.distinctId ∧ ∀ loser, t₂.person projectId a = some loser →
          loser.firstSeenKey = a ∧ (loser.createdAt < event.timestamp.toRfc3339 ↔
            ∃ row, s.person projectId a = some row ∧ row.createdAt < event.timestamp.toRfc3339) := by
      intro l t₂ hl
      cases hl with
      | known hd =>
        rw [hida] at hd
        obtain rfl := halone.1 l hd
        refine ⟨rfl, hidu, rfl, fun loser hloser => ?_⟩
        rw [hrowa] at hloser
        refine ⟨key_alone hs hun hd hloser, fun hlt => ⟨loser, hloser, hlt⟩, ?_⟩
        rintro ⟨row, hrow, hlt⟩
        rwa [Option.some.inj (hloser.symm.trans hrow)]
      | created hd hids' hrows' =>
        have hnone : s.person projectId a = none := by
          rw [← Option.not_isSome_iff_eq_none, hs.resolved.person, ← hida, hd]
          simp
        have hother : (projectId, event.distinctId) ≠ (projectId, a) := by simpa using Ne.symm hne
        refine ⟨rfl, ?_, by rw [hrows', if_neg hother], fun loser hloser => ?_⟩
        · rw [hids', if_pos rfl, Forest.create, Function.update_of_ne (Ne.symm hne), hidu]
        · rw [hrows', if_pos rfl] at hloser
          rw [← Option.some.inj hloser, hnone]
          refine ⟨rfl, fun hlt => absurd hlt (lt_irrefl _), ?_⟩
          rintro ⟨_, hrow, -⟩
          cases hrow
    cases hlinked with
    | same hw hl =>
      obtain ⟨rfl, rfl⟩ := hw.of_known hidu
      exact absurd (hlosing hl).1.symm hne
    | refused hw hl hrow hid =>
      obtain ⟨rfl, rfl⟩ := hw.of_known hidu
      rw [hl.unidentified hunseen _ _ hl.points hrow] at hid
      cases hid
    | swapped hw hl _ _ hrow hid _ =>
      obtain ⟨rfl, rfl⟩ := hw.of_known hidu
      rw [hl.unidentified hunseen _ _ hl.points hrow] at hid
      cases hid
    | folded hw hl hne' hwinner hloser hfolded =>
      obtain ⟨rfl, rfl⟩ := hw.of_known hidu
      obtain ⟨hla, hidu₂, hrowu₂, hloses⟩ := hlosing hl
      rw [hla] at hfolded hloser hne'
      obtain ⟨hkey, hlt⟩ := hloses _ hloser
      obtain ⟨row, hrow, -, -, hsurvivor⟩ := hfolded.survivor
      obtain ⟨row', hrow', hkept⟩ := htouched.keys projectId _ row hrow
      rw [hrowu₂, hrowu] at hwinner
      obtain rfl := Option.some.inj hwinner
      obtain ⟨-, -, hwinnerKey, hcreated⟩ := markSeen_keeps event (newPerson event event.distinctId)
      rw [hkey, hwinnerKey, hcreated] at hsurvivor
      refine ⟨row', ?_, hrow', ?_⟩
      · rw [htouched.ids, hfolded.ids, if_pos rfl, Forest.unite, hidu₂, if_neg (fun heq => hne' (Option.some.inj heq))]
      · rw [hkept, hsurvivor]
        by_cases holder : ∃ row, s.person projectId a = some row ∧ row.createdAt < event.timestamp.toRfc3339
        · exact .inl ⟨holder, if_pos (hlt.mpr holder)⟩
        · exact .inr ⟨holder, if_neg (fun h => holder (hlt.mp h))⟩

/-- At a user's first login the continuity id of the anonymous id before it, of the user with the
anonymous id as a hint, and of the user after it are one exactly when the anonymous id has a person whose
creation reads as earlier than the login. -/
theorem login_keeps_continuity (h : System.Reached Tables.empty (Projections.Step K) (Act.Logged K) s) {a u : String} {event : CapturedEvent ν U}
    (hlogged : Logged K event) (hname : event.event = "$identify") (hid : event.distinctId = u)
    (hanon : event.properties.get "$anon_distinct_id" = some (.string a)) (ha : a ≠ "") (hne : a ≠ u)
    (hu : s.personOf projectId u = none)
    (hun : ∀ p row, s.personOf projectId a = some p → s.person projectId p = some row → row.isIdentified = false)
    (happlied : applyIdentityEffects K projectId event s = .ok () s') (before hinted after : Option (Map ν)) (hint : Option String) :
    (resolveSubject K s projectId a ⟨none, before⟩ true).1.continuityId =
        (resolveSubject K s projectId u ⟨some a, hinted⟩ true).1.continuityId ∧
      (resolveSubject K s projectId u ⟨some a, hinted⟩ true).1.continuityId =
        (resolveSubject K s' projectId u ⟨hint, after⟩ true).1.continuityId ↔
    ∃ row, s.person projectId a = some row ∧ row.createdAt < event.timestamp.toRfc3339 := by
  subst hid
  have hs := orderly_reached h
  have hs' := step_orderly hs (a := .event projectId event) hlogged happlied
  obtain ⟨row', hidu, hrowu, hkey⟩ := login_key hs hlogged hname hanon ha hne hu hun happlied
  rw [continuity_anonymous hs hun, continuity_hinted hs ha hu hun, continuity_known hs' hidu hrowu]
  rcases hkey with ⟨holder, hkey⟩ | ⟨hyounger, hkey⟩
  · exact iff_of_true ⟨rfl, hkey.symm⟩ holder
  · exact iff_of_false (fun heq => hne (heq.2.trans hkey)) hyounger

end continuity

/-- A page seen under the anonymous id, an hour before noon. -/
def anonymousEvent : CapturedEvent Int Small.Uuid :=
  ⟨Small.nilUuid, "$pageview", "a", "phc_t", .ofSeconds (1784635200 - 3600), Map.empty⟩

def anonymousTables : Tables := tablesAfter anonymousEvent .empty

private theorem anonymousTables_reached :
    System.Reached Tables.empty (Projections.Step Crates.small) (Act.Logged Crates.small) anonymousTables := by
  have hlogged : (Act.event "p" anonymousEvent).Logged Crates.small .empty :=
    show Logged Crates.small anonymousEvent from logged_small (by decide)
  have hseen : applyIdentityEffects Crates.small "p" anonymousEvent .empty = .ok () anonymousTables :=
    tablesAfter_applied (by decide +kernel)
  exact .step .start hlogged hseen

/-- A login an hour after the anonymous page. -/
theorem later_login_keeps_continuity :
    (resolveSubject Crates.small anonymousTables "p" "u" ⟨some "a", none⟩ true).1.continuityId =
      (resolveSubject Crates.small (tablesAfter linkEvent anonymousTables) "p" "u" ⟨none, none⟩ true).1.continuityId := by
  have hun : ∀ p row, anonymousTables.personOf "p" "a" = some p → anonymousTables.person "p" p = some row → row.isIdentified = false := by
    have hrow : (anonymousTables.person "p" "a").all (fun row => !row.isIdentified) = true := by decide +kernel
    intro p row hp hrow'
    obtain rfl : "a" = p := Option.some.inj ((show anonymousTables.personOf "p" "a" = some "a" by decide +kernel).symm.trans hp)
    rw [hrow'] at hrow
    simpa using hrow
  have holder : (anonymousTables.person "p" "a").any (fun row => decide (row.createdAt < linkEvent.timestamp.toRfc3339)) = true := by
    decide +kernel
  obtain ⟨row, hrow, hlt⟩ := (Option.any_eq_true _ _).mp holder
  exact ((login_keeps_continuity anonymousTables_reached linkEvent_logged rfl rfl rfl (by decide) (by decide)
    (by decide +kernel) hun (tablesAfter_applied (by decide +kernel)) none none none none).mpr ⟨row, hrow, by simpa using hlt⟩).2

/-- A login that is the first event of both ids changes the user's continuity id from the anonymous id
to the user's own. -/
theorem first_login_loses_continuity : applyIdentityEffects Crates.small "p" linkEvent .empty = .ok () linkedTables ∧
    (resolveSubject Crates.small .empty "p" "a" ⟨none, none⟩ true).1.continuityId = "a" ∧
    (resolveSubject Crates.small .empty "p" "u" ⟨some "a", none⟩ true).1.continuityId = "a" ∧
    (resolveSubject Crates.small linkedTables "p" "u" ⟨none, none⟩ true).1.continuityId = "u" := by
  exact ⟨linkEvent_applied, by decide +kernel, by decide +kernel, by decide +kernel⟩

end Hoglet.Flags
