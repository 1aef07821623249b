import Hoglet.Projections.Dated

/-! Who is left after a run of events and erasures: every person has the distinct id of an event that was sent under it, and the date of an
event. An id that an event only links to is a person's no longer than the event lasts. -/
namespace Hoglet.Projections
open Json Capture

section ids
variable {ν U : Type} {K : Crates ν U} {projectId : String} {event : CapturedEvent ν U} {P : String → Prop} {s s' : Tables}

/-- All ids of people have a property. -/
def Tables.Holders (P : String → Prop) (s : Tables) : Prop := ∀ pr d p, s.personOf pr d = some p → P p

/-- Only the person of the id can be new. -/
theorem Ensured.holder {d p pr e q : String} (h : Ensured projectId d event s p s') (hs : s.Holders P) (hq : s'.personOf pr e = some q) :
    P q ∨ pr = projectId ∧ q = p := by
  cases h with
  | known _ => exact .inl (hs pr e q hq)
  | created _ hids _ =>
    rw [hids] at hq
    split at hq
    · rename_i hpr
      by_cases he : e = d
      · rw [he, Forest.create, Function.update_self] at hq
        exact .inr ⟨hpr, (Option.some.inj hq).symm⟩
      · rw [Forest.create, Function.update_of_ne he] at hq
        exact .inl (hs projectId e q hq)
    · exact .inl (hs pr e q hq)

theorem Ensured.holders {d p : String} (h : Ensured projectId d event s p s') (hs : s.Holders P) (hd : P d) : s'.Holders P := by
  intro pr e q hq
  rcases h.holder hs hq with hold | ⟨-, rfl⟩
  · exact hold
  · cases h with
    | known hp => exact hs projectId d q hp
    | created _ _ _ => exact hd

/-- A person who is there before is not created. -/
theorem Ensured.of_root {d p : String} (h : Ensured projectId d event s p s') (hp : s.personOf projectId p ≠ none) : s' = s := by
  cases h with
  | known _ => rfl
  | created hnone _ _ => exact absurd hnone hp

/-- Nor is one who is identified. -/
theorem Ensured.of_identified {d p : String} {row : PersonRow} (h : Ensured projectId d event s p s') (hrow : s'.person projectId p = some row)
    (hid : row.isIdentified = true) : s' = s := by
  cases h with
  | known _ => rfl
  | created _ _ hrows =>
    rw [hrows, if_pos rfl] at hrow
    rw [← Option.some.inj hrow] at hid
    cases hid

/-- The loser's id goes, so that it does not matter what it is. -/
theorem Folded.holders {w l : String} {winner loser : PersonRow} (h : Folded K projectId w l winner loser s s') (hw : P w)
    (hs : ∀ pr d p, s.personOf pr d = some p → P p ∨ pr = projectId ∧ p = l) : s'.Holders P := by
  intro pr d p hp
  rw [h.ids] at hp
  split at hp
  · unfold Forest.unite at hp
    split at hp
    · exact Option.some.inj hp ▸ hw
    · rename_i hne
      rcases hs projectId d p hp with hold | ⟨-, rfl⟩
      · exact hold
      · exact absurd hp hne
  · rename_i hpr
    exact (hs pr d p hp).resolve_right fun h => hpr h.1

/-- A person created for the losing id of a merge is the one who is folded. -/
theorem Merged.holders {losing winning : String} (h : Merged K projectId losing winning event s s') (hrooted : Forest.Rooted (s.personOf projectId))
    (hwinning : s.personOf projectId winning ≠ none) (hs : s.Holders P) : s'.Holders P := by
  obtain ⟨q, hq⟩ := Option.ne_none_iff_exists'.mp hwinning
  cases h with
  | same hw hl =>
    obtain ⟨rfl, rfl⟩ := hw.of_known hq
    rw [hl.of_root (by rw [hrooted winning _ hq]; exact Option.some_ne_none _)]
    exact hs
  | refused hw hl hloser hid =>
    obtain ⟨rfl, rfl⟩ := hw.of_known hq
    rw [hl.of_identified hloser hid]
    exact hs
  | folded hw hl _ _ _ hfolded =>
    obtain ⟨rfl, rfl⟩ := hw.of_known hq
    exact hfolded.holders (hs projectId winning _ hq) fun _ _ _ => hl.holder hs
  | swapped hw hl _ _ hloser hid hfolded =>
    obtain ⟨rfl, rfl⟩ := hw.of_known hq
    obtain rfl := hl.of_identified hloser hid
    exact hfolded.holders (hs projectId losing _ hl.points) fun pr d p hp => .inl (hs pr d p hp)

theorem Ensured.rooted {d p : String} (h : Ensured projectId d event s p s') (hs : Forest.Rooted (s.personOf projectId)) :
    Forest.Rooted (s'.personOf projectId) := by
  cases h with
  | known _ => exact hs
  | created hnone hids _ =>
    rw [hids, if_pos rfl]
    exact hs.create hnone

/-- An event leaves its own distinct id among the ids of people, and none that it links to. -/
theorem event_holders (hs : s.Orderly K) (he : Within storedDepth event.properties) (hholders : s.Holders P) (hd : P event.distinctId)
    (h : applyIdentityEffects K projectId event s = .ok () s') : s'.Holders P := by
  obtain ⟨-, p, s₁, s₂, hp, hlink, htouched⟩ := (event_ends hs he).ok h
  have hseen : (s₁.setPerson projectId p (markSeen event)).Holders P := hp.holders hholders hd
  have hrooted := hp.rooted (hs.resolved.rooted projectId)
  suffices hlinked : s₂.Holders P by
    intro pr d q hq
    rw [htouched.ids] at hq
    exact hlinked pr d q hq
  unfold Linked at hlink
  split at hlink
  · refine hlink.holders hrooted ?_ hseen
    rw [Tables.personOf_setPerson, hp.points]
    exact Option.some_ne_none p
  · rw [hlink]
    exact hseen

theorem erase_holders {p : String} {distinctIds : List String} (hs : s.Holders P) (h : erasePerson projectId p s = .ok distinctIds s') :
    s'.Holders P := by
  obtain ⟨ids, s₁, herase, hids, -⟩ := erasePerson_ok projectId p s
  rw [herase] at h
  cases h
  intro pr d q hq
  rw [hids] at hq
  split at hq
  · unfold Forest.remove at hq
    split at hq
    · cases hq
    · exact hs projectId d q hq
  · exact hs pr d q hq

end ids

section dates
variable {ν U : Type} {K : Crates ν U} {projectId : String} {event : CapturedEvent ν U} {T : DateTime → Prop} {s s' : Tables}

/-- All people are dated by times that have a property. -/
def Tables.Stamped (T : DateTime → Prop) (s : Tables) : Prop :=
  ∀ pr p row, s.person pr p = some row → ∃ t, T t ∧ row.createdAt = t.toRfc3339

theorem Tables.Stamped.undated (hs : s.Stamped T) (hu : ∀ pr, Undated pr s s') : s'.Stamped T := by
  intro pr p row' hrow'
  obtain ⟨row, hrow, hcreated, -⟩ := (hu pr).rows p row' hrow'
  rw [hcreated]
  exact hs pr p row hrow

theorem Ensured.stamped {d p : String} (h : Ensured projectId d event s p s') (hs : s.Stamped T) (ht : T event.timestamp) : s'.Stamped T := by
  cases h with
  | known _ => exact hs
  | created _ _ hrows =>
    intro pr q row hrow
    rw [hrows] at hrow
    split at hrow
    · exact ⟨event.timestamp, ht, by rw [← Option.some.inj hrow, newPerson]⟩
    · exact hs pr q row hrow

theorem Joins.stamped {w l : String} {winner loser : PersonRow} (h : Joins K projectId w l winner loser s s') (hs : s.Stamped T) : s'.Stamped T := by
  obtain ⟨winnerProperties, loserProperties, -, -, rfl⟩ := h.tables
  intro pr q row' hrow'
  rw [person_joined] at hrow'
  split at hrow'
  · cases hrow'
  obtain ⟨row, hrow, rfl⟩ := Option.map_eq_some_iff.mp hrow'
  split
  · rw [mergedRow]
    split
    · exact hs projectId l loser h.hloser
    · exact hs projectId w winner h.hwinner
  · exact hs pr q row hrow

theorem event_stamped (hresolved : s.Resolved) (hs : s.Stamped T) (ht : T event.timestamp)
    (h : applyIdentityEffects K projectId event s = .ok () s') : s'.Stamped T := by
  obtain ⟨p, s₁, s₂, hp, hlink, hu⟩ := (event_steps hresolved event).ok h
  have hseen : (s₁.setPerson projectId p (markSeen event)).Stamped T := by
    intro pr q row' hrow'
    rw [Tables.person_setPerson] at hrow'
    obtain ⟨row, hrow, rfl⟩ := Option.map_eq_some_iff.mp hrow'
    obtain ⟨t, htime, htext⟩ := hp.stamped hs ht pr q row hrow
    refine ⟨t, htime, ?_⟩
    split
    · exact (markSeen_keeps event row).2.2.2.trans htext
    · exact htext
  refine Tables.Stamped.undated ?_ hu
  unfold LinkedBy at hlink
  split at hlink
  · cases hlink with
    | same hw hl => exact hl.stamped (hw.stamped hseen ht) ht
    | refused hw hl _ => exact hl.stamped (hw.stamped hseen ht) ht
    | joined hw hl _ _ hjoins => exact hjoins.stamped (hl.stamped (hw.stamped hseen ht) ht)
  · rw [hlink]
    exact hseen

theorem erase_stamped {p : String} {distinctIds : List String} (hs : s.Stamped T) (h : erasePerson projectId p s = .ok distinctIds s') :
    s'.Stamped T := by
  obtain ⟨ids, s₁, herase, -, hpeople⟩ := erasePerson_ok projectId p s
  rw [herase] at h
  cases h
  intro pr q row hrow
  rw [hpeople] at hrow
  split at hrow
  · cases hrow
  · exact hs pr q row hrow

end dates

/-! Runs. -/
section runs
variable {ν U : Type} {K : Crates ν U} {P : String → Prop} {T : DateTime → Prop} {s s' : Tables}

/-- Its event is one that the log holds, under a distinct id and at a time that have properties. -/
def Act.Sent (K : Crates ν U) (P : String → Prop) (T : DateTime → Prop) (a : Act ν U) (_ : Tables) : Prop :=
  match a with
  | .event _ e => Projections.Logged K e ∧ P e.distinctId ∧ T e.timestamp
  | .erase _ _ => True

/-- Every person has the distinct id of an event that was sent, and the date of an event. -/
theorem surviving (h : System.Reached .empty (Step K) (Act.Sent K P T) s) : s.Orderly K ∧ s.Holders P ∧ s.Stamped T := by
  refine h.invariant (P := fun s => s.Orderly K ∧ s.Holders P ∧ s.Stamped T) ⟨orderly_empty, ?_, ?_⟩ ?_
  · rintro pr d p hp
    cases hp
  · rintro pr p row hrow
    cases hrow
  · rintro a s s' ⟨hs, hholders, hstamped⟩ hsent hstep
    cases a with
    | event projectId event =>
      obtain ⟨hlogged, hd, ht⟩ := hsent
      have hevent : applyIdentityEffects K projectId event s = .ok () s' := hstep
      exact ⟨((event_ends hs hlogged.within).ok hevent).1, event_holders hs hlogged.within hholders hd hevent,
        event_stamped hs.resolved hstamped ht hevent⟩
    | erase projectId p =>
      obtain ⟨distinctIds, herase⟩ := hstep
      exact ⟨erase_orderly hs herase, erase_holders hholders herase, erase_stamped hstamped herase⟩

end runs
end Hoglet.Projections
