import Hoglet.Projections.Linked
import Hoglet.Rollup

/-! The rows a merge writes, and what an event's steps make of the row that a distinct id resolves to. -/
namespace Hoglet.Projections
open Json Capture

/-! Maps, key by key. -/
section maps
variable {ν : Type}

/-- The last value that some members give a key. -/
def lastOf (members : List (String × Value ν)) (k : String) : Option (Value ν) :=
  (members.reverse.lookup k).map normalize

theorem get_insertAll (properties : Map ν) (members : List (String × Value ν)) (k : String) :
    (insertAll properties members).get k = (lastOf members k).or (properties.get k) := by
  induction members using List.reverseRecOn with
  | nil => rfl
  | append_singleton members m ih =>
    have hinsert : insertAll properties (members ++ [m]) = (insertAll properties members).insert m.1 m.2 := by
      rw [insertAll, List.foldl_append]
      rfl
    have hlast : lastOf (members ++ [m]) k = if k = m.1 then some (normalize m.2) else lastOf members k := by
      rw [lastOf, lastOf, List.reverse_append, List.reverse_singleton, List.singleton_append, List.lookup_cons]
      by_cases hk : k = m.1
      · simp [hk]
      · simp [hk, beq_eq_false_iff_ne.mpr hk]
    rw [hinsert, Map.get_insert, ih, hlast]
    split <;> rfl

/-- The members of a map give its values. -/
theorem lastOf_members (m : Map ν) (k : String) : lastOf m.members k = m.get k := by
  have hunique : (m.members.map Prod.fst).Nodup := m.normal.1.imp fun hlt => hlt.ne
  have hreverse : m.members.reverse.lookup k = m.get k :=
    lookupRow_perm (b := ⟨m.members, hunique⟩) (List.reverse_perm m.members) k
  rw [lastOf, hreverse]
  cases hv : m.get k with
  | none => rfl
  | some v =>
    have hnormal : Normal v := (normalMembers_iff _).mp m.normal.2 _ (mem_of_getKey hv)
    rw [Option.map_some, normalize_of_normal v hnormal]

/-- The union of two maps, the values of the second one first. -/
theorem get_insertAll_members (properties other : Map ν) (k : String) :
    (insertAll properties other.members).get k = (other.get k).or (properties.get k) := by
  rw [get_insertAll, lastOf_members]

theorem insertAll_insertAll (properties : Map ν) (members : List (String × Value ν)) :
    insertAll (insertAll properties members) members = insertAll properties members := by
  refine Map.ext_get fun k => ?_
  rw [get_insertAll, get_insertAll, ← Option.or_assoc, Option.or_self]

/-- The first value that some members give a key. -/
def firstOf (members : List (String × Value ν)) (k : String) : Option (Value ν) := (members.lookup k).map normalize

theorem get_updateProperties (properties : Map ν) (setOnce set : List (String × Value ν)) (unset : List (Value ν)) (k : String) :
    (updateProperties properties setOnce set unset).get k =
      if k ∈ unset.filterMap Value.asStr then none else (lastOf set k).or ((properties.get k).or (firstOf setOnce k)) := by
  have honce : ∀ (setOnce : List (String × Value ν)) (properties : Map ν),
      (setOnce.foldl insertOnce properties).get k = (properties.get k).or (firstOf setOnce k) := by
    intro setOnce
    induction setOnce with
    | nil => exact fun properties => by simp [firstOf]
    | cons m setOnce ih =>
      intro properties
      rw [List.foldl_cons, ih, firstOf, firstOf, List.lookup_cons, insertOnce]
      split
      · rename_i hcontains
        obtain ⟨v, hv⟩ := Option.isSome_iff_exists.mp hcontains
        by_cases hk : k = m.1
        · rw [hk, hv]
          rfl
        · rw [beq_eq_false_iff_ne.mpr hk]
      · rename_i hcontains
        rw [Map.get_insert]
        by_cases hk : k = m.1
        · have hnone : properties.get m.1 = none := by simpa [Map.contains] using hcontains
          simp [hk, hnone]
        · rw [if_neg hk, beq_eq_false_iff_ne.mpr hk]
  have hremove : ∀ (keys : List String) (properties : Map ν),
      (keys.foldl Map.remove properties).get k = if k ∈ keys then none else properties.get k := by
    intro keys
    induction keys with
    | nil => exact fun properties => by simp
    | cons key keys ih =>
      intro properties
      rw [List.foldl_cons, ih, Map.get_remove]
      by_cases hk : k = key
      · simp [hk]
      · simp [hk]
  rw [updateProperties_eq, hremove, get_insertAll, honce]

theorem updateProperties_updateProperties (properties : Map ν) (setOnce set : List (String × Value ν)) (unset : List (Value ν)) :
    updateProperties (updateProperties properties setOnce set unset) setOnce set unset = updateProperties properties setOnce set unset := by
  refine Map.ext_get fun k => ?_
  rw [get_updateProperties, get_updateProperties]
  split
  · rfl
  · cases lastOf set k <;> cases properties.get k <;> cases firstOf setOnce k <;> rfl

/-- What reads back nests no deeper than the parser goes. -/
theorem within_of_decode {U : Type} {K : Crates ν U} {encoded : String} {properties : Map ν} (h : decodeProperties K encoded = .ok properties) :
    Within storedDepth properties := by
  unfold decodeProperties at h
  split at h
  · rename_i members hparse
    cases h
    rw [within_iff]
    exact (nesting_normalize (.object members)).trans (nesting_of_parse hparse)
  · cases h

end maps

/-! One person folded into another. -/
section joins
variable {ν U : Type}

/-- The row of a distinct id's person. -/
def Tables.rowOf (s : Tables) (projectId d : String) : Option PersonRow := (s.personOf projectId d).bind (s.person projectId)

/-- The row that a merge leaves. -/
def mergedRow (K : Crates ν U) (winner loser : PersonRow) (winnerProperties loserProperties : Map ν) : PersonRow where
  createdAt := if loser.createdAt < winner.createdAt then loser.createdAt else winner.createdAt
  isIdentified := true
  properties := encodeProperties K (insertAll loserProperties winnerProperties.members)
  firstSeenKey := if loser.createdAt < winner.createdAt then loser.firstSeenKey else winner.firstSeenKey
  lastSeen := Option.max winner.lastSeen loser.lastSeen

/-- The tables after a merge: the loser's distinct ids and row go to the winner. -/
def Tables.joined (s : Tables) (projectId w l : String) (row : PersonRow) : Tables :=
  ((s.bumpSeq.repoint projectId w l (s.identityState.seq + 1)).setPerson projectId w fun _ => row).deletePerson projectId l

/-- `l` is folded into `w`. -/
structure Joins (K : Crates ν U) (projectId w l : String) (winner loser : PersonRow) (s s' : Tables) : Prop where
  hwinner : s.person projectId w = some winner
  hloser : s.person projectId l = some loser
  tables : ∃ winnerProperties loserProperties, decodeProperties K winner.properties = .ok winnerProperties ∧
    decodeProperties K loser.properties = .ok loserProperties ∧
    s' = s.joined projectId w l (mergedRow K winner loser winnerProperties loserProperties)

variable {K : Crates ν U} {projectId : String} {s s' : Tables}

theorem personOf_joined {w l : String} (hne : w ≠ l) (row : PersonRow) (pr : String) :
    (s.joined projectId w l row).personOf pr = if pr = projectId then Forest.unite (s.personOf projectId) w l else s.personOf pr :=
  personOf_united w l _ hne _ pr

theorem person_joined (w l : String) (row : PersonRow) (pr q : String) : (s.joined projectId w l row).person pr q =
    if pr = projectId ∧ q = l then none else (s.person pr q).map fun r => if (pr, q) = (projectId, w) then row else r := by
  rw [Tables.joined, Tables.person_deletePerson, Tables.person_setPerson, Tables.person_repoint, Tables.person_bumpSeq]

theorem personRow_found (p : String) :
    Ends (personRow projectId p) s (fun r s' => s.person projectId p = some r ∧ s' = s) fun _ _ => True := by
  refine .bind (.get ?_)
  cases hrow : s.person projectId p with
  | none => exact .throw trivial
  | some row => exact .pure ⟨rfl, rfl⟩

theorem decoded_found (encoded : String) :
    Ends (decoded K encoded) s (fun a s' => decodeProperties K encoded = .ok a ∧ s' = s) fun _ _ => True := by
  unfold decoded
  cases h : decodeProperties K encoded with
  | ok properties => exact .pure ⟨rfl, rfl⟩
  | error e => exact .throw trivial

theorem foldPersons_joins (w l : String) :
    Ends (foldPersons K projectId w l) s (fun _ s' => ∃ winner loser, Joins K projectId w l winner loser s s') fun _ _ => True := by
  refine .bind ((personRow_found w).mono ?_ fun _ _ h => h)
  rintro winner _ ⟨hw, rfl⟩
  refine .bind ((personRow_found l).mono ?_ fun _ _ h => h)
  rintro loser _ ⟨hl, rfl⟩
  refine .bind ((decoded_found loser.properties).mono ?_ fun _ _ h => h)
  rintro loserProperties _ ⟨hlp, rfl⟩
  refine .bind ((decoded_found winner.properties).mono ?_ fun _ _ h => h)
  rintro winnerProperties _ ⟨hwp, rfl⟩
  refine .bind (.bind (.modify (.bind (.get (.pure (.bind (.modify (.bind (.modify (.bind (.modify (.modify ?_))))))))))))
  refine ⟨winner, loser, hw, hl, winnerProperties, loserProperties, hwp, hlp, ?_⟩
  rw [Tables.setPerson_setPerson, Tables.joined]
  have hcreated : (if loser.createdAt < winner.createdAt then loser.createdAt else winner.createdAt) =
      (if loser.createdAt < winner.createdAt then (loser.createdAt, loser.firstSeenKey) else (winner.createdAt, winner.firstSeenKey)).1 :=
    (apply_ite Prod.fst _ (loser.createdAt, loser.firstSeenKey) (winner.createdAt, winner.firstSeenKey)).symm
  have hkey : (if loser.createdAt < winner.createdAt then loser.firstSeenKey else winner.firstSeenKey) =
      (if loser.createdAt < winner.createdAt then (loser.createdAt, loser.firstSeenKey) else (winner.createdAt, winner.firstSeenKey)).2 :=
    (apply_ite Prod.snd _ (loser.createdAt, loser.firstSeenKey) (winner.createdAt, winner.firstSeenKey)).symm
  rw [mergedRow, hcreated, hkey]
  rfl

/-- The survivor's row, and the ids that have it. -/
theorem Joins.survivor {w l : String} {winner loser : PersonRow} (h : Joins K projectId w l winner loser s s') (hne : w ≠ l) :
    ∃ row, row.lastSeen = Option.max winner.lastSeen loser.lastSeen ∧ s'.person projectId w = some row ∧
      ∀ e, s.personOf projectId e = some w ∨ s.personOf projectId e = some l → s'.personOf projectId e = some w := by
  obtain ⟨winnerProperties, loserProperties, -, -, rfl⟩ := h.tables
  refine ⟨mergedRow K winner loser winnerProperties loserProperties, rfl, ?_, fun e he => ?_⟩
  · rw [person_joined, if_neg (fun hand => hne hand.2), h.hwinner, Option.map_some, if_pos rfl]
  · rw [personOf_joined hne, if_pos rfl, Forest.unite]
    split
    · rfl
    · rename_i hnot
      exact he.resolve_right hnot

/-- Whether the guard keeps two people apart. -/
def Refuses (guard : MergeGuard) (winner loser : Option PersonRow) : Prop :=
  loser.any PersonRow.isIdentified ∧ (guard = .refuseIdentifiedSource ∨ guard = .refuseBothIdentified ∧ winner.any PersonRow.isIdentified)

theorem guardedMerge_found (guard : MergeGuard) (w l : String) :
    Ends (guardedMerge projectId guard w l) s (fun r s' => s' = s ∧
      (r = none ∧ Refuses guard (s.person projectId w) (s.person projectId l) ∨ r = some (w, l) ∨ r = some (l, w))) fun _ _ => True := by
  refine .bind ((personRow_found l).mono ?_ fun _ _ h => h)
  rintro loser _ ⟨hl, rfl⟩
  cases guard <;> cases hi : loser.isIdentified <;> simp only
  case refuseIdentifiedSource.true => exact .pure ⟨rfl, .inl ⟨rfl, by rw [hl, Option.any_some, hi], .inl rfl⟩⟩
  case refuseBothIdentified.true =>
    refine .bind ((personRow_found w).mono ?_ fun _ _ h => h)
    rintro winner _ ⟨hw, rfl⟩
    split
    · rename_i hi'
      exact .pure ⟨rfl, .inl ⟨rfl, by rw [hl, Option.any_some, hi], .inr ⟨rfl, by rw [hw, Option.any_some, hi']⟩⟩⟩
    · exact .pure ⟨rfl, .inr (.inr rfl)⟩
  all_goals exact .pure ⟨rfl, .inr (.inl rfl)⟩

/-- What `merge_persons` does: the two people are one already, the guard refuses, or one of them is folded into the other. -/
inductive Merges (K : Crates ν U) (projectId losing winning : String) (event : CapturedEvent ν U) (guard : MergeGuard) (s : Tables) : Tables → Prop
  | same {w : String} {s₁ s₂ : Tables} (hw : Ensured projectId winning event s w s₁) (hl : Ensured projectId losing event s₁ w s₂) :
      Merges K projectId losing winning event guard s s₂
  | refused {w l : String} {s₁ s₂ : Tables} (hw : Ensured projectId winning event s w s₁) (hl : Ensured projectId losing event s₁ l s₂)
      (hrefuses : Refuses guard (s₂.person projectId w) (s₂.person projectId l)) : Merges K projectId losing winning event guard s s₂
  | joined {w l : String} {s₁ s₂ s' : Tables} (hw : Ensured projectId winning event s w s₁) (hl : Ensured projectId losing event s₁ l s₂)
      {kept gone : String} (hne : kept ≠ gone) (hsides : kept = w ∧ gone = l ∨ kept = l ∧ gone = w) {winner loser : PersonRow}
      (hjoins : Joins K projectId kept gone winner loser s₂ s') : Merges K projectId losing winning event guard s s'

theorem mergePersons_merges (hs : s.Resolved) (losing winning : String) (event : CapturedEvent ν U) (guard : MergeGuard) :
    Ends (mergePersons K projectId losing winning event guard) s
      (fun _ s' => Merges K projectId losing winning event guard s s') fun _ _ => True := by
  refine .bind ((ensurePerson_ends hs winning event).mono (fun w s₁ ⟨hs₁, hw⟩ => ?_) fun _ _ h => h)
  refine .bind ((ensurePerson_ends hs₁ losing event).mono (fun l s₂ ⟨hs₂, hl⟩ => ?_) fun _ _ h => h)
  split
  · rename_i heq
    subst heq
    exact .pure (.same hw hl)
  rename_i hne
  refine .bind ((guardedMerge_found guard w l).mono (fun r s₃ ⟨hs₃, hr⟩ => ?_) fun _ _ h => h)
  subst hs₃
  rcases hr with ⟨rfl, hrefuses⟩ | rfl | rfl
  · exact .pure (.refused hw hl hrefuses)
  · refine (foldPersons_joins w l).mono (fun _ s' ⟨winner, loser, hjoins⟩ => ?_) fun _ _ h => h
    exact .joined hw hl hne (.inl ⟨rfl, rfl⟩) hjoins
  · refine (foldPersons_joins l w).mono (fun _ s' ⟨winner, loser, hjoins⟩ => ?_) fun _ _ h => h
    exact .joined hw hl (Ne.symm hne) (.inr ⟨rfl, rfl⟩) hjoins

end joins
end Hoglet.Projections
