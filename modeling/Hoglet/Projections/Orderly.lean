import Hoglet.Capture.Batch
import Hoglet.Projections.Reachable

/-! Rows that read back, and people who are not identified: they have no distinct id but their own, which is also
their first-seen key. -/
namespace Hoglet.Projections
open Json Capture

section stored
variable {ν U : Type}

/-- No value nests deeper. -/
def Within (depth : Nat) (properties : Map ν) : Prop := ∀ m ∈ properties.members, nesting m.2 ≤ depth

/-- The nesting of values in an object that is read back. -/
def storedDepth : Nat := recursionBudget - 1

theorem within_iff {properties : Map ν} : Within storedDepth properties ↔ nesting (.object properties.members) ≤ recursionBudget := by
  rw [Within, ← nestingMembers_le, nesting]
  simp only [storedDepth, recursionBudget]
  omega

theorem Within.empty (depth : Nat) : Within depth (Map.empty : Map ν) := fun m hm => by cases hm

theorem Within.insert {depth : Nat} {properties : Map ν} (h : Within depth properties) {k : String} {v : Value ν}
    (hv : nesting v ≤ depth) : Within depth (properties.insert k v) := by
  intro m hm
  rcases mem_insertKey hm with rfl | hm
  · exact (nesting_normalize v).trans hv
  · exact h m hm

theorem Within.insertAll {depth : Nat} {properties : Map ν} {members : List (String × Value ν)} (h : Within depth properties)
    (hm : ∀ m ∈ members, nesting m.2 ≤ depth) : Within depth (insertAll properties members) := by
  unfold Projections.insertAll
  induction members generalizing properties with
  | nil => exact h
  | cons m members ih => exact ih (h.insert (hm m List.mem_cons_self)) fun n hn => hm n (List.mem_cons_of_mem _ hn)

theorem Within.remove {depth : Nat} {properties : Map ν} (h : Within depth properties) (k : String) : Within depth (properties.remove k) :=
  fun m hm => h m (List.mem_of_mem_filter hm)

/-- A member of `$set_once` is written where its key has no value yet. -/
def insertOnce (properties : Map ν) (m : String × Value ν) : Map ν :=
  if properties.contains m.1 then properties else properties.insert m.1 m.2

theorem updateProperties_eq (properties : Map ν) (setOnce set : List (String × Value ν)) (unset : List (Value ν)) :
    updateProperties properties setOnce set unset =
      (unset.filterMap Value.asStr).foldl Map.remove (insertAll (setOnce.foldl insertOnce properties) set) := rfl

theorem Within.updateProperties {depth : Nat} {properties : Map ν} {setOnce set : List (String × Value ν)} {unset : List (Value ν)}
    (h : Within depth properties) (honce : ∀ m ∈ setOnce, nesting m.2 ≤ depth) (hset : ∀ m ∈ set, nesting m.2 ≤ depth) :
    Within depth (updateProperties properties setOnce set unset) := by
  rw [updateProperties_eq]
  have hremoved : ∀ (keys : List String) {m : Map ν}, Within depth m → Within depth (keys.foldl Map.remove m) := by
    intro keys
    induction keys with
    | nil => exact fun h => h
    | cons k keys ih => exact fun h => ih (h.remove k)
  have honced : ∀ (members : List (String × Value ν)) {m : Map ν}, (∀ m ∈ members, nesting m.2 ≤ depth) → Within depth m →
      Within depth (members.foldl insertOnce m) := by
    intro members
    induction members with
    | nil => exact fun _ h => h
    | cons n members ih =>
      intro m hm h
      refine ih (fun n' hn => hm n' (List.mem_cons_of_mem _ hn)) ?_
      unfold insertOnce
      split
      · exact h
      · exact h.insert (hm n List.mem_cons_self)
  exact hremoved _ ((honced setOnce honce h).insertAll hset)

theorem Within.member {depth : Nat} {properties : Map ν} (h : Within depth properties) {key : String} {members : List (String × Value ν)}
    (hm : properties.get key = some (.object members)) : ∀ m ∈ members, nesting m.2 ≤ depth := by
  have hobject := h _ (mem_of_getKey hm)
  rw [nesting] at hobject
  exact (nestingMembers_le members).mp (by omega)

variable (K : Crates ν U)

/-- An event of a batch read from the log. -/
def Logged (event : CapturedEvent ν U) : Prop := ∃ payload batch, decodeBatch K payload = some batch ∧ event ∈ batch.events

private theorem mem_of_mapM {α β : Type} {f : α → Option β} {xs : List α} {ys : List β} (h : xs.mapM f = some ys) {y : β}
    (hy : y ∈ ys) : ∃ x ∈ xs, f x = some y := by
  induction xs generalizing ys with
  | nil =>
    cases h
    cases hy
  | cons x xs ih =>
    rw [List.mapM_cons] at h
    obtain ⟨z, hz, h⟩ := Option.bind_eq_some_iff.mp h
    obtain ⟨zs, hzs, h⟩ := Option.bind_eq_some_iff.mp h
    cases h
    rcases List.mem_cons.mp hy with rfl | hy
    · exact ⟨x, List.mem_cons_self, hz⟩
    · obtain ⟨x', hx', hf⟩ := ih hzs hy
      exact ⟨x', List.mem_cons_of_mem _ hx', hf⟩

/-- A field is nested in its struct. -/
private theorem nesting_field {names : List String} {v x : Value ν} {fields : List (Option (Value ν))}
    (h : fieldsOf names v = some fields) (hx : some x ∈ fields) : nesting x < nesting v := by
  unfold fieldsOf at h
  split at h
  · rename_i members
    obtain ⟨name, _, hname⟩ := mem_of_mapM h hx
    unfold uniqueField at hname
    split at hname
    · cases hname
    · rename_i m hm
      cases hname
      have hmem : m ∈ members := List.mem_of_mem_filter (by rw [hm]; exact List.mem_singleton_self m)
      exact Nat.lt_succ_of_le ((nestingMembers_le members).mp le_rfl m hmem)
    · cases hname
  · rename_i items
    split at h
    · cases h
      rcases List.mem_append.mp hx with hx | hx
      · obtain ⟨y, hy, heq⟩ := List.mem_map.mp hx
        cases heq
        exact Nat.lt_succ_of_le ((nestingItems_le items).mp le_rfl x hy)
      · cases List.eq_of_mem_replicate hx
    · cases h
  · cases h

/-- Its properties were read within the parser's budget. -/
theorem Logged.within {event : CapturedEvent ν U} (h : Logged K event) : Within storedDepth event.properties := by
  obtain ⟨payload, batch, hdecode, hevent⟩ := h
  unfold decodeBatch at hdecode
  obtain ⟨cs, _, hdecode⟩ := Option.bind_eq_some_iff.mp hdecode
  obtain ⟨v, hparse, hread⟩ := Option.bind_eq_some_iff.mp hdecode
  have hv := nesting_of_parse hparse
  unfold readBatch at hread
  split at hread
  · rename_i events _ _ _ hfields
    obtain ⟨es, hes, hread⟩ := Option.bind_eq_some_iff.mp hread
    obtain ⟨_, _, hread⟩ := Option.bind_eq_some_iff.mp hread
    obtain ⟨_, _, hread⟩ := Option.bind_eq_some_iff.mp hread
    obtain ⟨_, _, hread⟩ := Option.bind_eq_some_iff.mp hread
    cases hread
    obtain ⟨item, hitem, hone⟩ := mem_of_mapM hes hevent
    have hitems := nesting_field hfields List.mem_cons_self
    rw [nesting] at hitems
    have hitem' := (nestingItems_le events).mp le_rfl item hitem
    unfold readEvent at hone
    split at hone
    · rename_i uuid name distinctId token timestamp properties hf
      obtain ⟨_, _, hone⟩ := Option.bind_eq_some_iff.mp hone
      obtain ⟨_, _, hone⟩ := Option.bind_eq_some_iff.mp hone
      cases hone
      have hobject : some (.object properties) ∈ [some (.string uuid), some (.string name), some (.string distinctId),
          some (.string token), some (.string timestamp), some (Value.object properties)] := by simp
      have hproperties := nesting_field hf hobject
      rw [nesting] at hproperties
      intro m hm
      have hwritten := (nestingMembers_le _).mp le_rfl m (mem_ofMembers hm)
      have hnormal := nestingMembers_normalize properties
      rw [storedDepth]
      omega
    · cases hone
  · cases hread

/-- The properties of a row read back. -/
def PersonRow.Readable (row : PersonRow) : Prop := ∃ properties, decodeProperties K row.properties = .ok properties ∧ Within storedDepth properties

theorem decode_encode {properties : Map ν} (h : Within storedDepth properties) :
    decodeProperties K (encodeProperties K properties) = .ok properties := by
  rw [decodeProperties, encodeProperties, String.toList_ofList, parse_print, if_pos (within_iff.mp h)]
  exact congrArg Except.ok (Map.ofWritten_members properties)

theorem encode_empty : encodeProperties K Map.empty = "\x7b\x7d" := rfl

/-- The row `ensure_person` writes. -/
def newPerson (event : CapturedEvent ν U) (distinctId : String) : PersonRow :=
  ⟨event.timestamp.toRfc3339, false, "\x7b\x7d", distinctId, none⟩

theorem newPerson_readable (event : CapturedEvent ν U) (d : String) : (newPerson event d).Readable K := by
  refine ⟨Map.empty, ?_, Within.empty _⟩
  have h := decode_encode K (Within.empty (ν := ν) storedDepth)
  rwa [encode_empty] at h

structure Tables.Orderly (s : Tables) : Prop where
  resolved : s.Resolved
  readable : ∀ projectId p row, s.person projectId p = some row → row.Readable K
  lone : ∀ projectId p row, s.person projectId p = some row → row.isIdentified = false →
    row.firstSeenKey = p ∧ ∀ d, s.personOf projectId d = some p → d = p

end stored

/-- No person but one of the same id, who has no other distinct id. -/
def Tables.Alone (s : Tables) (projectId d : String) : Prop :=
  (∀ p, s.personOf projectId d = some p → p = d) ∧ ∀ e, s.personOf projectId e = some d → e = d

section effects
variable {ν U : Type} {K : Crates ν U} {projectId : String} {s : Tables}

/-- What `ensure_person` returns and leaves behind. -/
inductive Ensured (projectId d : String) (event : CapturedEvent ν U) (s : Tables) : String → Tables → Prop
  | known {p : String} (hd : s.personOf projectId d = some p) : Ensured projectId d event s p s
  | created {s' : Tables} (hd : s.personOf projectId d = none)
      (hids : ∀ pr, s'.personOf pr = if pr = projectId then Forest.create (s.personOf projectId) d else s.personOf pr)
      (hrows : ∀ pr q, s'.person pr q = if (pr, q) = (projectId, d) then some (newPerson event d) else s.person pr q) :
      Ensured projectId d event s d s'

/-- What the second half of `merge_persons` leaves behind. -/
structure Folded (K : Crates ν U) (projectId w l : String) (winner loser : PersonRow) (s s' : Tables) : Prop where
  ids : ∀ pr, s'.personOf pr = if pr = projectId then Forest.unite (s.personOf projectId) w l else s.personOf pr
  survivor : ∃ row, s'.person projectId w = some row ∧ row.isIdentified = true ∧ row.Readable K ∧
    row.firstSeenKey = if loser.createdAt < winner.createdAt then loser.firstSeenKey else winner.firstSeenKey
  others : ∀ pr q, (pr, q) ≠ (projectId, w) → ∀ row, s'.person pr q = some row → s.person pr q = some row

theorem personRow_ends {p : String} {row : PersonRow} (h : s.person projectId p = some row) :
    Ends (personRow projectId p) s (fun r s' => r = row ∧ s' = s) fun _ _ => True := by
  refine .bind (.get ?_)
  simp only [h]
  exact .pure ⟨rfl, rfl⟩

theorem decoded_ends {encoded : String} {properties : Map ν} (h : decodeProperties K encoded = .ok properties) :
    Ends (decoded K encoded) s (fun a s' => a = properties ∧ s' = s) fun _ _ => True := by
  unfold decoded
  rw [h]
  exact .pure ⟨rfl, rfl⟩

theorem ensurePerson_ends (hs : s.Resolved) (d : String) (event : CapturedEvent ν U) :
    Ends (ensurePerson projectId d event) s (fun p s' => s'.Resolved ∧ Ensured projectId d event s p s') fun _ _ => True := by
  have hresolved : Ends (ensurePerson projectId d event) s (fun _ s' => s'.Resolved) fun _ _ => True :=
    have happ : Applies projectId true (ensurePerson projectId d event) s _ := ensurePerson_applies d event
    (happ hs).mono (fun _ _ ⟨hc, _⟩ => hc.resolved hs) fun _ _ _ => trivial
  suffices hensured : Ends (ensurePerson projectId d event) s (Ensured projectId d event s) fun _ _ => True from
    (hresolved.both hensured).mono (fun _ _ h => h) fun _ _ _ => trivial
  refine .bind (.get ?_)
  cases hd : s.distinctIds.get (projectId, d) with
  | some row => exact .pure (.known (by rw [Tables.personOf, hd, Option.map_some]))
  | none =>
    refine .bind (.bind (.get ?_))
    cases hpersons : s.persons.insert (projectId, d) (newPerson event d) with
    | none =>
      rw [newPerson] at hpersons
      simp only [hpersons]
      exact .throw trivial
    | some persons =>
      have hthere : ({ s with persons } : Tables).person projectId d = some (newPerson event d) := by
        rw [Tables.person, Table.get_insert hpersons, if_pos rfl]
      obtain ⟨distinctIds, hids⟩ := Table.insert_isSome (⟨d, 0⟩ : DistinctIdRow) hd
      rw [newPerson] at hpersons
      simp only [hpersons]
      refine .modify (.bind (.bind (.get ?_)))
      simp only [hthere, Option.isNone_some, Bool.false_eq_true, if_false, hids]
      refine .modify (.pure (.created (by rw [Tables.personOf, hd, Option.map_none]) (fun pr => personOf_created hids pr persons)
        fun pr q => ?_))
      exact Table.get_insert hpersons _

private theorem person_united {w l : String} {winner : PersonRow} (hne : w ≠ l) (hw : s.person projectId w = some winner)
    (seq : Nat) (f : PersonRow → PersonRow) :
    (((s.bumpSeq.repoint projectId w l seq).setPerson projectId w f).deletePerson projectId l).person projectId w = some (f winner) := by
  rw [Tables.person_deletePerson, if_neg (fun h => hne h.2), Tables.person_setPerson, Tables.person_repoint,
    Tables.person_bumpSeq, hw, Option.map_some, if_pos rfl]

theorem foldPersons_ends {w l : String} {winner loser : PersonRow} (hne : w ≠ l) (hw : s.person projectId w = some winner)
    (hl : s.person projectId l = some loser) (hwr : winner.Readable K) (hlr : loser.Readable K) (hs : s.Resolved) :
    Ends (foldPersons K projectId w l) s (fun _ s' => s'.Resolved ∧ Folded K projectId w l winner loser s s') fun _ _ => True := by
  have hresolved : Ends (foldPersons K projectId w l) s (fun _ s' => s'.Resolved) fun _ _ => True :=
    have happ : Applies projectId true (foldPersons K projectId w l) s _ := foldPersons_applies hne hw hl (by simp)
    (happ hs).mono (fun _ _ ⟨hc, _⟩ => hc.resolved hs) fun _ _ _ => trivial
  suffices hfolded : Ends (foldPersons K projectId w l) s (fun _ s' => Folded K projectId w l winner loser s s') fun _ _ => True from
    (hresolved.both hfolded).mono (fun _ _ h => h) fun _ _ _ => trivial
  obtain ⟨winnerProperties, hwp, hww⟩ := hwr
  obtain ⟨loserProperties, hlp, hlw⟩ := hlr
  refine .bind ((personRow_ends hw).mono ?_ fun _ _ h => h)
  rintro winner _ ⟨rfl, rfl⟩
  refine .bind ((personRow_ends hl).mono ?_ fun _ _ h => h)
  rintro loser _ ⟨rfl, rfl⟩
  refine .bind ((decoded_ends hlp).mono ?_ fun _ _ h => h)
  rintro _ _ ⟨rfl, rfl⟩
  refine .bind ((decoded_ends hwp).mono ?_ fun _ _ h => h)
  rintro _ _ ⟨rfl, rfl⟩
  refine .bind (.bind (.modify (.bind (.get (.pure (.bind (.modify (.bind (.modify (.bind (.modify (.modify ?_))))))))))))
  rw [Tables.setPerson_setPerson]
  refine ⟨personOf_united w l _ hne _, ?_, fun pr q hq row hrow => ?_⟩
  · refine ⟨_, person_united hne hw _ _, rfl,
      ⟨_, decode_encode K (hlw.insertAll fun m hm => hww m hm), hlw.insertAll fun m hm => hww m hm⟩, ?_⟩
    exact apply_ite Prod.snd _ (loser.createdAt, loser.firstSeenKey) (winner.createdAt, winner.firstSeenKey)
  · rw [Tables.person_deletePerson] at hrow
    split at hrow
    · cases hrow
    rw [Tables.person_setPerson, Tables.person_repoint, Tables.person_bumpSeq] at hrow
    obtain ⟨r, hr, heq⟩ := Option.map_eq_some_iff.mp hrow
    rw [if_neg hq] at heq
    rw [hr, heq]

end effects

section orderly
variable {ν U : Type} {K : Crates ν U} {projectId : String} {s s' : Tables}

theorem orderly_empty : Tables.empty.Orderly K :=
  ⟨resolved_empty, fun _ _ _ h => (by cases h), fun _ _ _ h => (by cases h)⟩

theorem Ensured.orderly {d p : String} {event : CapturedEvent ν U} (h : Ensured projectId d event s p s') (hs : s.Orderly K)
    (hs' : s'.Resolved) : s'.Orderly K := by
  cases h with
  | known _ => exact hs
  | created hd hids hrows =>
    refine ⟨hs', fun pr q row hrow => ?_, fun pr q row hrow hun => ?_⟩
    · rw [hrows] at hrow
      split at hrow
      · rw [← Option.some.inj hrow]
        exact newPerson_readable K event d
      · exact hs.readable pr q row hrow
    · rw [hrows] at hrow
      rw [hids]
      split at hrow
      · rename_i hnew
        cases hnew
        rw [← Option.some.inj hrow]
        refine ⟨rfl, fun e he => ?_⟩
        rw [if_pos rfl] at he
        by_contra hne
        rw [Forest.create, Function.update_of_ne hne] at he
        rw [hs.resolved.rooted projectId e d he] at hd
        cases hd
      · rename_i hold
        obtain ⟨hkey, halone⟩ := hs.lone pr q row hrow hun
        refine ⟨hkey, fun e he => ?_⟩
        split at he
        · rename_i hpr
          subst hpr
          by_cases hne : e = d
          · subst hne
            rw [Forest.create, Function.update_self] at he
            cases he
            exact absurd rfl hold
          · rw [Forest.create, Function.update_of_ne hne] at he
            exact halone e he
        · exact halone e he

theorem Ensured.alone {d p x : String} {event : CapturedEvent ν U} (h : Ensured projectId d event s p s') (hne : x ≠ d)
    (hx : s.Alone projectId x) : s'.Alone projectId x := by
  cases h with
  | known _ => exact hx
  | created hd hids hrows =>
    rw [Tables.Alone, hids, if_pos rfl]
    refine ⟨fun p hp => ?_, fun e he => ?_⟩
    · rw [Forest.create, Function.update_of_ne hne] at hp
      exact hx.1 p hp
    · by_cases hed : e = d
      · subst hed
        rw [Forest.create, Function.update_self] at he
        exact Option.some.inj he
      · rw [Forest.create, Function.update_of_ne hed] at he
        exact hx.2 e he

theorem Folded.orderly {w l : String} {winner loser : PersonRow} (h : Folded K projectId w l winner loser s s') (hs : s.Orderly K)
    (hs' : s'.Resolved) : s'.Orderly K := by
  obtain ⟨row, hrow, hid, hread, -⟩ := h.survivor
  refine ⟨hs', fun pr q r hr => ?_, fun pr q r hr hun => ?_⟩
  · by_cases heq : (pr, q) = (projectId, w)
    · cases heq
      rw [hrow] at hr
      cases hr
      exact hread
    · exact hs.readable pr q r (h.others pr q heq r hr)
  · by_cases heq : (pr, q) = (projectId, w)
    · cases heq
      rw [hrow] at hr
      cases hr
      rw [hid] at hun
      cases hun
    · obtain ⟨hkey, halone⟩ := hs.lone pr q r (h.others pr q heq r hr) hun
      refine ⟨hkey, fun e he => ?_⟩
      rw [h.ids] at he
      split at he
      · rename_i hpr
        subst hpr
        unfold Forest.unite at he
        split at he
        · cases he
          exact absurd rfl heq
        · exact halone e he
      · exact halone e he

theorem Folded.alone {w l x : String} {winner loser : PersonRow} (h : Folded K projectId w l winner loser s s') (hw : x ≠ w)
    (hl : x ≠ l) (hx : s.Alone projectId x) : s'.Alone projectId x := by
  rw [Tables.Alone, h.ids, if_pos rfl]
  unfold Forest.unite
  refine ⟨fun p hp => ?_, fun e he => ?_⟩
  · split at hp
    · rename_i hloser
      exact absurd (hx.1 l hloser).symm hl
    · exact hx.1 p hp
  · split at he
    · cases he
      exact absurd rfl hw
    · exact hx.2 e he

theorem Tables.Orderly.setPerson {p : String} {f : PersonRow → PersonRow} (hs : s.Orderly K)
    (hf : ∀ r, r.Readable K → (f r).Readable K ∧ ((f r).isIdentified = false → r.isIdentified = false) ∧ (f r).firstSeenKey = r.firstSeenKey) :
    (s.setPerson projectId p f).Orderly K := by
  have hrow : ∀ pr q row, (s.setPerson projectId p f).person pr q = some row → ∃ r, s.person pr q = some r ∧ row.Readable K ∧
      (row.isIdentified = false → r.isIdentified = false) ∧ row.firstSeenKey = r.firstSeenKey := by
    intro pr q row hr
    rw [Tables.person_setPerson] at hr
    obtain ⟨r, hold, rfl⟩ := Option.map_eq_some_iff.mp hr
    have hread := hs.readable pr q r hold
    split
    · exact ⟨r, hold, hf r hread⟩
    · exact ⟨r, hold, hread, id, rfl⟩
  refine ⟨⟨hs.resolved.rooted, fun pr q => ?_⟩, fun pr q row hr => ?_, fun pr q row hr hun => ?_⟩
  · rw [Tables.person_setPerson, Option.isSome_map]
    exact hs.resolved.person pr q
  · obtain ⟨_, _, hread, _⟩ := hrow pr q row hr
    exact hread
  · obtain ⟨r, hr, _, hid, hkey⟩ := hrow pr q row hr
    rw [hkey]
    exact hs.lone pr q r hr (hid hun)

/-- Whoever is not identified, or is not known, is alone. -/
theorem Tables.Orderly.alone (hs : s.Orderly K) {d : String}
    (hun : ∀ p row, s.personOf projectId d = some p → s.person projectId p = some row → row.isIdentified = false) :
    s.Alone projectId d := by
  refine ⟨fun p hp => ?_, fun e he => ?_⟩
  · have hroot := hs.resolved.rooted projectId d p hp
    obtain ⟨row, hrow⟩ := Option.isSome_iff_exists.mp ((hs.resolved.person projectId p).mpr hroot)
    exact ((hs.lone projectId p row hrow (hun p row hp hrow)).2 d hp).symm
  · have hroot := hs.resolved.rooted projectId e d he
    obtain ⟨row, hrow⟩ := Option.isSome_iff_exists.mp ((hs.resolved.person projectId d).mpr hroot)
    exact (hs.lone projectId d row hrow (hun d row hroot hrow)).2 e he

end orderly
end Hoglet.Projections
