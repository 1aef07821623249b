import Hoglet.Projections.Orderly

/-! What an event that links two ids makes of orderly tables, and that no event or erasure makes them
disorderly. -/
namespace Hoglet.Projections
open Json Capture

section merge
variable {ν U : Type} {K : Crates ν U} {projectId : String} {s s' : Tables}

/-- What `merge_persons` leaves behind: the two people are one already, the guard refuses, or one of them
is folded into the other. -/
inductive Merged (K : Crates ν U) (projectId losing winning : String) (event : CapturedEvent ν U) (s : Tables) : Tables → Prop
  | same {w : String} {s₁ s₂ : Tables} (hw : Ensured projectId winning event s w s₁) (hl : Ensured projectId losing event s₁ w s₂) :
      Merged K projectId losing winning event s s₂
  | refused {w l : String} {s₁ s₂ : Tables} (hw : Ensured projectId winning event s w s₁) (hl : Ensured projectId losing event s₁ l s₂)
      {loser : PersonRow} (hloser : s₂.person projectId l = some loser) (hid : loser.isIdentified = true) :
      Merged K projectId losing winning event s s₂
  | folded {w l : String} {s₁ s₂ s' : Tables} (hw : Ensured projectId winning event s w s₁)
      (hl : Ensured projectId losing event s₁ l s₂) (hne : w ≠ l) {winner loser : PersonRow}
      (hwinner : s₂.person projectId w = some winner) (hloser : s₂.person projectId l = some loser)
      (hfolded : Folded K projectId w l winner loser s₂ s') : Merged K projectId losing winning event s s'
  | swapped {w l : String} {s₁ s₂ s' : Tables} (hw : Ensured projectId winning event s w s₁)
      (hl : Ensured projectId losing event s₁ l s₂) (hne : w ≠ l) {winner loser : PersonRow}
      (hwinner : s₂.person projectId w = some winner) (hloser : s₂.person projectId l = some loser)
      (hid : loser.isIdentified = true) (hfolded : Folded K projectId l w loser winner s₂ s') :
      Merged K projectId losing winning event s s'

theorem Ensured.points {d p : String} {event : CapturedEvent ν U} (h : Ensured projectId d event s p s') :
    s'.personOf projectId d = some p := by
  cases h with
  | known hd => exact hd
  | created _ hids _ => rw [hids, if_pos rfl, Forest.create, Function.update_self]

theorem Ensured.of_known {d p q : String} {event : CapturedEvent ν U} (h : Ensured projectId d event s p s')
    (hd : s.personOf projectId d = some q) : p = q ∧ s' = s := by
  cases h with
  | known hp => exact ⟨Option.some.inj (hp.symm.trans hd), rfl⟩
  | created hnone _ _ =>
    rw [hnone] at hd
    cases hd

theorem Ensured.keeps {d p : String} {event : CapturedEvent ν U} (h : Ensured projectId d event s p s') {e q : String}
    (he : s.personOf projectId e = some q) : s'.personOf projectId e = some q := by
  cases h with
  | known _ => exact he
  | created hd hids _ =>
    have hne : e ≠ d := by
      rintro rfl
      rw [hd] at he
      cases he
    rw [hids, if_pos rfl, Forest.create, Function.update_of_ne hne, he]

private theorem guardedMerge_ends {guard : MergeGuard} {w l : String} {winner loser : PersonRow}
    (hw : s.person projectId w = some winner) (hl : s.person projectId l = some loser) :
    Ends (guardedMerge projectId guard w l) s (fun r s' => s' = s ∧
      ((r = none ∨ r = some (l, w)) ∧ loser.isIdentified = true ∨ r = some (w, l))) fun _ _ => True := by
  refine .bind ((personRow_ends hl).mono ?_ fun _ _ h => h)
  rintro loser _ ⟨rfl, rfl⟩
  cases guard <;> cases hi : loser.isIdentified <;> simp only
  case refuseIdentifiedSource.true => exact .pure ⟨rfl, .inl ⟨.inl rfl, trivial⟩⟩
  case refuseBothIdentified.true =>
    refine .bind ((personRow_ends hw).mono ?_ fun _ _ h => h)
    rintro winner _ ⟨rfl, rfl⟩
    split
    · exact .pure ⟨rfl, .inl ⟨.inl rfl, trivial⟩⟩
    · exact .pure ⟨rfl, .inl ⟨.inr rfl, trivial⟩⟩
  all_goals exact .pure ⟨rfl, .inr rfl⟩

theorem mergePersons_ends (hs : s.Orderly K) (losing winning : String) (event : CapturedEvent ν U) (guard : MergeGuard) :
    Ends (mergePersons K projectId losing winning event guard) s
      (fun _ s' => s'.Orderly K ∧ Merged K projectId losing winning event s s') fun _ _ => True := by
  refine .bind ((ensurePerson_ends hs.resolved winning event).mono (fun w s₁ ⟨hs₁, hw⟩ => ?_) fun _ _ h => h)
  have ho₁ := hw.orderly hs hs₁
  refine .bind ((ensurePerson_ends hs₁ losing event).mono (fun l s₂ ⟨hs₂, hl⟩ => ?_) fun _ _ h => h)
  have ho₂ := hl.orderly ho₁ hs₂
  split
  · rename_i heq
    subst heq
    exact .pure ⟨ho₂, .same hw hl⟩
  rename_i hne
  have hrow : ∀ d p, s₂.personOf projectId d = some p → ∃ row, s₂.person projectId p = some row := fun d p hp =>
    Option.isSome_iff_exists.mp ((hs₂.person projectId p).mpr (hs₂.rooted projectId d p hp))
  obtain ⟨winner, hwinner⟩ := hrow winning w (hl.keeps hw.points)
  obtain ⟨loser, hloser⟩ := hrow losing l hl.points
  have hwr := ho₂.readable projectId w winner hwinner
  have hlr := ho₂.readable projectId l loser hloser
  refine .bind ((guardedMerge_ends hwinner hloser).mono (fun r s₃ ⟨hs₃, hr⟩ => ?_) fun _ _ h => h)
  subst hs₃
  rcases hr with ⟨rfl | rfl, hid⟩ | rfl
  · exact .pure ⟨ho₂, .refused hw hl hloser hid⟩
  · refine (foldPersons_ends (Ne.symm hne) hloser hwinner hlr hwr hs₂).mono (fun _ s' ⟨hs', hfolded⟩ => ?_) fun _ _ h => h
    exact ⟨hfolded.orderly ho₂ hs', .swapped hw hl hne hwinner hloser hid hfolded⟩
  · refine (foldPersons_ends hne hwinner hloser hwr hlr hs₂).mono (fun _ s' ⟨hs', hfolded⟩ => ?_) fun _ _ h => h
    exact ⟨hfolded.orderly ho₂ hs', .folded hw hl hne hwinner hloser hfolded⟩

/-- A third id that is alone stays so. -/
theorem Merged.alone {losing winning x : String} {event : CapturedEvent ν U} (h : Merged K projectId losing winning event s s')
    (hl : x ≠ losing) (hw : x ≠ winning) (hx : s.Alone projectId x) : s'.Alone projectId x := by
  have hensured : ∀ {w l s₁ s₂}, Ensured projectId winning event s w s₁ → Ensured projectId losing event s₁ l s₂ →
      s₂.Alone projectId x ∧ x ≠ w ∧ x ≠ l := by
    intro w l s₁ s₂ hwin hlose
    have hx₂ := hlose.alone hl (hwin.alone hw hx)
    refine ⟨hx₂, ?_, ?_⟩
    · rintro rfl
      exact hw (hx₂.2 winning (hlose.keeps hwin.points)).symm
    · rintro rfl
      exact hl (hx₂.2 losing hlose.points).symm
  cases h with
  | same hwin hlose => exact (hensured hwin hlose).1
  | refused hwin hlose _ _ => exact (hensured hwin hlose).1
  | folded hwin hlose hne _ _ hfolded =>
    obtain ⟨hx₂, hxw, hxl⟩ := hensured hwin hlose
    exact hfolded.alone hxw hxl hx₂
  | swapped hwin hlose hne _ _ _ hfolded =>
    obtain ⟨hx₂, hxw, hxl⟩ := hensured hwin hlose
    exact hfolded.alone hxl hxw hx₂

theorem Folded.known {w l d : String} {winner loser : PersonRow} (h : Folded K projectId w l winner loser s s')
    (hd : s.personOf projectId d ≠ none) : s'.personOf projectId d ≠ none := by
  rw [h.ids, if_pos rfl]
  unfold Forest.unite
  split
  · simp
  · exact hd

theorem Merged.known {losing winning : String} {event : CapturedEvent ν U} (h : Merged K projectId losing winning event s s') :
    s'.personOf projectId winning ≠ none := by
  have hensured : ∀ {w l s₁ s₂}, Ensured projectId winning event s w s₁ → Ensured projectId losing event s₁ l s₂ →
      s₂.personOf projectId winning ≠ none := by
    intro w l s₁ s₂ hwin hlose
    rw [hlose.keeps hwin.points]
    simp
  cases h with
  | same hwin hlose => exact hensured hwin hlose
  | refused hwin hlose _ _ => exact hensured hwin hlose
  | folded hwin hlose _ _ _ hfolded => exact hfolded.known (hensured hwin hlose)
  | swapped hwin hlose _ _ _ _ hfolded => exact hfolded.known (hensured hwin hlose)

theorem Ensured.unidentified {d p x : String} {event : CapturedEvent ν U} (h : Ensured projectId d event s p s')
    (hun : ∀ q row, s.personOf projectId x = some q → s.person projectId q = some row → row.isIdentified = false) :
    ∀ q row, s'.personOf projectId x = some q → s'.person projectId q = some row → row.isIdentified = false := by
  cases h with
  | known _ => exact hun
  | created hd hids hrows =>
    intro q row hq hrow
    rw [hrows] at hrow
    split at hrow
    · rw [← Option.some.inj hrow]
      rfl
    · rename_i hold
      rw [hids, if_pos rfl] at hq
      have hne : x ≠ d := by
        rintro rfl
        rw [Forest.create, Function.update_self] at hq
        cases hq
        exact hold rfl
      rw [Forest.create, Function.update_of_ne hne] at hq
      exact hun q row hq hrow

/-- A merge whose losing side is not identified makes one person of the two. -/
theorem Merged.unites {losing winning : String} {event : CapturedEvent ν U} (h : Merged K projectId losing winning event s s')
    (hun : ∀ q row, s.personOf projectId losing = some q → s.person projectId q = some row → row.isIdentified = false) :
    s'.personOf projectId losing = s'.personOf projectId winning := by
  have hloser : ∀ {w l s₁ s₂}, Ensured projectId winning event s w s₁ → Ensured projectId losing event s₁ l s₂ →
      ∀ row, s₂.person projectId l = some row → row.isIdentified = false := fun hw hl row hrow =>
    hl.unidentified (hw.unidentified hun) _ row hl.points hrow
  cases h with
  | same hw hl => rw [hl.points, hl.keeps hw.points]
  | refused hw hl hrow hid =>
    rw [hloser hw hl _ hrow] at hid
    cases hid
  | folded hw hl hne _ _ hfolded =>
    rw [hfolded.ids, if_pos rfl, Forest.unite, if_pos hl.points, Forest.unite, hl.keeps hw.points,
      if_neg (fun heq => hne (Option.some.inj heq))]
  | swapped hw hl _ _ hrow hid _ =>
    rw [hloser hw hl _ hrow] at hid
    cases hid

end merge

/-- No distinct id moves, and people keep their first-seen key. -/
structure Touched (s s' : Tables) : Prop where
  ids : s'.personOf = s.personOf
  keys : ∀ projectId p row, s.person projectId p = some row →
    ∃ row', s'.person projectId p = some row' ∧ row'.firstSeenKey = row.firstSeenKey

theorem Touched.refl (s : Tables) : Touched s s := ⟨rfl, fun _ _ row h => ⟨row, h, rfl⟩⟩

theorem Touched.trans {s s' s'' : Tables} (h : Touched s s') (h' : Touched s' s'') : Touched s s'' := by
  refine ⟨h'.ids.trans h.ids, fun pr p row hrow => ?_⟩
  obtain ⟨row', hrow', hkey⟩ := h.keys pr p row hrow
  obtain ⟨row'', hrow'', hkey'⟩ := h'.keys pr p row' hrow'
  exact ⟨row'', hrow'', hkey'.trans hkey⟩

theorem Touched.setPerson (s : Tables) (projectId p : String) {f : PersonRow → PersonRow}
    (hf : ∀ r, (f r).firstSeenKey = r.firstSeenKey) : Touched s (s.setPerson projectId p f) := by
  refine ⟨rfl, fun pr q row hrow => ⟨_, by rw [Tables.person_setPerson, hrow, Option.map_some], ?_⟩⟩
  split
  · exact hf row
  · rfl

/-- The other id an event links its own to, and the guard the link goes through. -/
def linkOf {ν U : Type} (event : CapturedEvent ν U) : Option (String × MergeGuard) :=
  match event.event with
  | "$identify" => (otherId event "$anon_distinct_id").map (·, .refuseIdentifiedSource)
  | "$create_alias" => (otherId event "alias").map (·, .refuseBothIdentified)
  | "$merge_dangerously" => (otherId event "alias").map (·, .always)
  | _ => none

section events
variable {ν U : Type} {K : Crates ν U} {projectId : String} {s s' : Tables}

def Linked (K : Crates ν U) (projectId : String) (event : CapturedEvent ν U) (s s' : Tables) : Prop :=
  match linkOf event with
  | some (other, _) => Merged K projectId other event.distinctId event s s'
  | none => s' = s

/-- The merge that the event's link asks for, if it has one. -/
def mergeLinked (K : Crates ν U) (projectId : String) (event : CapturedEvent ν U) : Effects Unit :=
  match linkOf event with
  | some (other, guard) => mergePersons K projectId other event.distinctId event guard
  | none => pure ()

/-- An event merges what it links, and then marks its person identified, writes its group or does no more. -/
theorem applyLink_eq (event : CapturedEvent ν U) : applyLink K projectId event = (do
    mergeLinked K projectId event
    if event.event = "$identify" ∨ event.event = "$create_alias" then markIdentified projectId event.distinctId
    else if event.event = "$groupidentify" then applyGroup K projectId event
    else pure ()) := by
  unfold applyLink mergeLinked linkOf
  simp only
  split
  · rename_i hname
    cases otherId event "$anon_distinct_id" <;> simp [hname]
  · rename_i hname
    cases otherId event "alias" <;> simp [hname]
  · rename_i hname
    cases otherId event "alias" <;> simp [hname]
  · rename_i hname
    simp [hname]
  · rename_i hidentify halias hmerge hgroup
    rw [if_neg (not_or.mpr ⟨hidentify, halias⟩), if_neg hgroup]
    simp

private theorem markIdentified_ends (hs : s.Orderly K) (d : String) :
    Ends (markIdentified projectId d) s (fun _ s' => s'.Orderly K ∧ Touched s s') fun _ _ => True := by
  refine .bind (.get ?_)
  cases s.personOf projectId d with
  | none => exact .pure ⟨hs, .refl s⟩
  | some p => exact .modify ⟨hs.setPerson fun r hr => ⟨hr, by simp, rfl⟩, .setPerson s projectId p fun _ => rfl⟩

private theorem applyGroup_ends (hs : s.Orderly K) (event : CapturedEvent ν U) :
    Ends (applyGroup K projectId event) s (fun _ s' => s'.Orderly K ∧ Touched s s') fun _ _ => True := by
  have hgroups : ∀ groups, ({ s with groups } : Tables).Orderly K ∧ Touched s { s with groups } := fun groups =>
    ⟨⟨⟨hs.resolved.rooted, hs.resolved.person⟩, hs.readable, hs.lone⟩, ⟨rfl, fun _ _ row h => ⟨row, h, rfl⟩⟩⟩
  unfold applyGroup
  split
  · refine .bind (.get ?_)
    split
    · refine .bind (Ends.mono (Q := fun _ s' => s' = s) (E := fun _ _ => True) ?_ ?_ fun _ _ h => h)
      · unfold decoded
        split
        · exact .pure rfl
        · exact .throw trivial
      · rintro properties _ rfl
        exact .modify (hgroups _)
    · exact .bind (.pure (.modify (hgroups _)))
  · exact .pure ⟨hs, .refl s⟩

theorem asObject_within {depth : Nat} {properties : Map ν} (h : Within depth properties) (key : String) :
    ∀ m ∈ ((properties.get key).bind asObject).getD [], nesting m.2 ≤ depth := by
  intro m hm
  cases hv : properties.get key with
  | none =>
    rw [hv] at hm
    cases hm
  | some v =>
    rw [hv, Option.bind_some] at hm
    cases v with
    | object members => exact h.member hv m hm
    | _ => cases hm

private theorem applyPersonProperties_ends (hs : s.Orderly K) {d : String} (hd : s.personOf projectId d ≠ none)
    {event : CapturedEvent ν U} (he : Within storedDepth event.properties) :
    Ends (applyPersonProperties K projectId d event) s (fun _ s' => s'.Orderly K ∧ Touched s s') fun _ _ => True := by
  unfold applyPersonProperties
  simp only
  split
  · exact .pure ⟨hs, .refl s⟩
  refine .bind ((ensurePerson_ends hs.resolved d event).mono (fun p s₁ ⟨_, hp⟩ => ?_) fun _ _ h => h)
  cases hp with
  | created hnone _ _ => exact absurd hnone hd
  | known hp =>
    obtain ⟨row, hrow⟩ := Option.isSome_iff_exists.mp ((hs.resolved.person projectId p).mpr (hs.resolved.rooted projectId d p hp))
    obtain ⟨properties, hdecoded, hwithin⟩ := hs.readable projectId p row hrow
    refine .bind ((personRow_ends hrow).mono ?_ fun _ _ h => h)
    rintro row _ ⟨rfl, rfl⟩
    refine .bind ((decoded_ends hdecoded).mono ?_ fun _ _ h => h)
    rintro properties _ ⟨rfl, rfl⟩
    refine .modify ⟨hs.setPerson fun r _ => ?_, .setPerson _ projectId p fun _ => rfl⟩
    have hnew : ∀ unset, Within storedDepth (updateProperties properties _ _ unset) := fun unset =>
      hwithin.updateProperties (asObject_within he "$set_once") (asObject_within he "$set")
    exact ⟨⟨_, decode_encode K (hnew _), hnew _⟩, id, rfl⟩

private theorem mergeLinked_ends (hs : s.Orderly K) (event : CapturedEvent ν U) :
    Ends (mergeLinked K projectId event) s (fun _ s' => s'.Orderly K ∧ Linked K projectId event s s') fun _ _ => True := by
  unfold mergeLinked Linked
  cases linkOf event with
  | none => exact .pure ⟨hs, rfl⟩
  | some link => exact mergePersons_ends hs link.1 event.distinctId event link.2

theorem applyLink_ends (hs : s.Orderly K) (event : CapturedEvent ν U) :
    Ends (applyLink K projectId event) s
      (fun _ s' => s'.Orderly K ∧ ∃ s₁, Linked K projectId event s s₁ ∧ Touched s₁ s') fun _ _ => True := by
  rw [applyLink_eq]
  refine .bind ((mergeLinked_ends hs event).mono ?_ fun _ _ h => h)
  rintro _ s₁ ⟨ho, hlink⟩
  have hlinked : ∀ s', s'.Orderly K ∧ Touched s₁ s' → s'.Orderly K ∧ ∃ s₁, Linked K projectId event s s₁ ∧ Touched s₁ s' :=
    fun s' h => ⟨h.1, s₁, hlink, h.2⟩
  split
  · exact (markIdentified_ends ho event.distinctId).mono (fun _ => hlinked) fun _ _ h => h
  split
  · exact (applyGroup_ends ho event).mono (fun _ => hlinked) fun _ _ h => h
  · exact .pure (hlinked s₁ ⟨ho, .refl s₁⟩)

/-- The person's row once the event is seen. -/
def markSeen (event : CapturedEvent ν U) (row : PersonRow) : PersonRow :=
  if row.lastSeen.all (· < event.timestamp.sortableTime) then { row with lastSeen := some event.timestamp.sortableTime } else row

theorem markSeen_keeps (event : CapturedEvent ν U) (row : PersonRow) : (markSeen event row).properties = row.properties ∧
    (markSeen event row).isIdentified = row.isIdentified ∧ (markSeen event row).firstSeenKey = row.firstSeenKey ∧
    (markSeen event row).createdAt = row.createdAt := by
  unfold markSeen
  split <;> exact ⟨rfl, rfl, rfl, rfl⟩

theorem Ensured.unidentified_seen {d p x : String} {event : CapturedEvent ν U} (h : Ensured projectId d event s p s')
    (hun : ∀ q row, s.personOf projectId x = some q → s.person projectId q = some row → row.isIdentified = false) :
    ∀ q row, (s'.setPerson projectId p (markSeen event)).personOf projectId x = some q →
      (s'.setPerson projectId p (markSeen event)).person projectId q = some row → row.isIdentified = false := by
  intro q row hq hrow
  rw [Tables.person_setPerson] at hrow
  obtain ⟨r, hr, rfl⟩ := Option.map_eq_some_iff.mp hrow
  have hrun := h.unidentified hun q r hq hr
  split
  · exact (markSeen_keeps event r).2.1.trans hrun
  · exact hrun

/-- An event ensures the person of its distinct id, marks it seen, links it, and then moves no id. -/
theorem event_ends (hs : s.Orderly K) {event : CapturedEvent ν U} (he : Within storedDepth event.properties) :
    Ends (applyIdentityEffects K projectId event) s (fun _ s' => s'.Orderly K ∧ ∃ p s₁ s₂,
      Ensured projectId event.distinctId event s p s₁ ∧ Linked K projectId event (s₁.setPerson projectId p (markSeen event)) s₂ ∧
        Touched s₂ s') fun _ _ => True := by
  unfold applyIdentityEffects
  split
  · exact .throw trivial
  refine .bind ((ensurePerson_ends hs.resolved event.distinctId event).mono (fun p s₁ ⟨hs₁, hp⟩ => ?_) fun _ _ h => h)
  refine .bind (.modify ?_)
  have hseen : (s₁.setPerson projectId p (markSeen event)).Orderly K := (hp.orderly hs hs₁).setPerson fun r hr => by
    obtain ⟨hproperties, hid, hkey, -⟩ := markSeen_keeps event r
    rw [PersonRow.Readable, hproperties, hid, hkey]
    exact ⟨hr, id, rfl⟩
  refine .bind ((applyLink_ends hseen event).mono (fun _ s₃ ⟨hs₃, s₂, hlink, htouched⟩ => ?_) fun _ _ h => h)
  have hknown : s₃.personOf projectId event.distinctId ≠ none := by
    rw [htouched.ids]
    unfold Linked at hlink
    split at hlink
    · exact hlink.known
    · rw [hlink, Tables.personOf_setPerson, hp.points]
      simp
  exact (applyPersonProperties_ends hs₃ hknown he).mono
    (fun _ s' ⟨hs', htouched'⟩ => ⟨hs', p, s₁, s₂, hp, hlink, htouched.trans htouched'⟩) fun _ _ h => h

theorem erase_orderly {p : String} {distinctIds : List String} (hs : s.Orderly K)
    (h : erasePerson projectId p s = .ok distinctIds s') : s'.Orderly K := by
  obtain ⟨ids, s₁, herase, hids, hpeople⟩ := erasePerson_ok projectId p s
  rw [herase] at h
  cases h
  have hold : ∀ pr q row, s'.person pr q = some row → s.person pr q = some row := by
    intro pr q row hrow
    rw [hpeople] at hrow
    split at hrow
    · cases hrow
    · exact hrow
  refine ⟨step_resolved (K := K) (a := .erase projectId p) hs.resolved ⟨distinctIds, herase⟩, fun pr q row hrow => hs.readable pr q row (hold pr q row hrow),
    fun pr q row hrow hun => ?_⟩
  obtain ⟨hkey, halone⟩ := hs.lone pr q row (hold pr q row hrow) hun
  refine ⟨hkey, fun d hd => halone d ?_⟩
  rw [hids] at hd
  split at hd
  · rename_i hpr
    subst hpr
    unfold Forest.remove at hd
    split at hd
    · cases hd
    · exact hd
  · exact hd

/-- Its event is one that the log holds. -/
def Act.Logged (K : Crates ν U) (a : Act ν U) (_ : Tables) : Prop :=
  match a with
  | .event _ e => Projections.Logged K e
  | .erase _ _ => True

theorem step_orderly {a : Act ν U} (hs : s.Orderly K) (ha : a.Logged K s) (h : Step K a s s') : s'.Orderly K := by
  cases a with
  | event projectId event => exact ((event_ends hs (ha : Logged K event).within).ok h).1
  | erase projectId p =>
    obtain ⟨distinctIds, herase⟩ := h
    exact erase_orderly hs herase

theorem orderly_reached (h : System.Reached .empty (Step K) (Act.Logged K) s) : s.Orderly K :=
  h.invariant orderly_empty fun _ _ _ => step_orderly

end events
end Hoglet.Projections
