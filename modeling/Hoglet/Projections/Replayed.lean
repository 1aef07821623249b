import Hoglet.Projections.Dated

/-! The dates and properties of people after any sequence of events. -/
namespace Hoglet.Projections
open Json Capture

section replay
variable {ν U : Type}

/-- Events of projects that have been applied one after another, from empty tables. -/
inductive Replayed (K : Crates ν U) : List (String × CapturedEvent ν U) → Tables → Prop
  | start : Replayed K [] .empty
  | event {events : List (String × CapturedEvent ν U)} {s s' : Tables} (h : Replayed K events s) {projectId : String}
      {event : CapturedEvent ν U} (happlied : applyIdentityEffects K projectId event s = .ok () s') : Replayed K (events ++ [(projectId, event)]) s'

/-- Whether an event needs the person of a distinct id: its own, and the one it links to it. -/
def mentions (event : CapturedEvent ν U) (d : String) : Bool := d = event.distinctId || (linkOf event).any fun link => link.1 = d

/-- When a distinct id got a person of its own: at the first event that needs it. -/
def createdOf (events : List (String × CapturedEvent ν U)) (projectId d : String) : Option DateTime :=
  (events.find? fun e => e.1 = projectId && mentions e.2 d).map fun e => e.2.timestamp

/-- A distinct id has an event at a time. -/
def SeenIn (events : List (String × CapturedEvent ν U)) (projectId d : String) (t : DateTime) : Prop :=
  ∃ e ∈ events, e.1 = projectId ∧ e.2.distinctId = d ∧ e.2.timestamp = t

variable {K : Crates ν U} {events : List (String × CapturedEvent ν U)} {projectId pr d : String} {event : CapturedEvent ν U} {t : DateTime}
  {s s' : Tables}

theorem createdOf_append : createdOf (events ++ [(projectId, event)]) pr d = (createdOf events pr d).or
    (if projectId = pr && mentions event d then some event.timestamp else none) := by
  rw [createdOf, createdOf, List.find?_append]
  cases events.find? fun e => e.1 = pr && mentions e.2 d with
  | some e => rfl
  | none =>
    rw [Option.none_or, Option.map_none, Option.none_or, List.find?_singleton]
    split <;> rfl

theorem seenIn_append : SeenIn (events ++ [(projectId, event)]) pr d t ↔
    SeenIn events pr d t ∨ projectId = pr ∧ d = event.distinctId ∧ event.timestamp = t := by
  unfold SeenIn
  simp only [List.mem_append, List.mem_singleton, or_and_right, exists_or, exists_eq_left]
  exact or_congr_right (and_congr_right fun _ => and_congr_left' eq_comm)

/-- Dates are the times of events. -/
theorem fourDigit_of_created (hyears : ∀ e ∈ events, e.2.timestamp.FourDigit) (h : createdOf events pr d = some t) : t.FourDigit := by
  obtain ⟨e, he, rfl⟩ := Option.map_eq_some_iff.mp h
  exact hyears e (List.mem_of_find?_eq_some he)

theorem fourDigit_of_seen (hyears : ∀ e ∈ events, e.2.timestamp.FourDigit) (h : SeenIn events pr d t) : t.FourDigit := by
  obtain ⟨e, he, -, -, rfl⟩ := h
  exact hyears e he

/-- Dates may change for ids that are not known. -/
theorem Dated.congr {created created' seen : String → DateTime → Prop} (h : Dated created seen projectId s)
    (hsame : ∀ d, s.personOf projectId d ≠ none → ∀ t, created d t ↔ created' d t) : Dated created' seen projectId s := by
  refine ⟨h.rooted, fun d hd => ?_, h.owned, fun p row hrow => ?_⟩
  · obtain ⟨t, ht⟩ := h.known d hd
    exact ⟨t, (hsame d hd t).mp ht⟩
  · obtain ⟨⟨t, hleast, htext, hkey, hfirst⟩, hlatest⟩ := h.rows p row hrow
    have hknown : ∀ {d}, s.personOf projectId d = some p → s.personOf projectId d ≠ none := fun hd => hd ▸ Option.some_ne_none p
    have hgathered : Forest.gathered (s.personOf projectId) created p = Forest.gathered (s.personOf projectId) created' p := by
      ext u
      exact exists_congr fun d => and_congr_right fun hd => hsame d (hknown hd) u
    exact ⟨⟨t, hgathered ▸ hleast, htext, hkey, (hsame _ (hknown hkey) t).mp hfirst⟩, hlatest⟩

/-- People have the dates of the events so far, and the ids that these need are known. -/
structure Tracked (events : List (String × CapturedEvent ν U)) (projectId : String) (s : Tables) : Prop where
  dated : Dated (fun d t => createdOf events projectId d = some t) (SeenIn events projectId) projectId s
  known : ∀ d, createdOf events projectId d ≠ none → s.personOf projectId d ≠ none

/-- An id that is new to an event gets the event's time. -/
theorem Tracked.fresh (h : Tracked events projectId s) (hmentions : mentions event d = true) (hnone : s.personOf projectId d = none) (t : DateTime) :
    createdOf (events ++ [(projectId, event)]) projectId d = some t ↔ event.timestamp = t := by
  have hnever : createdOf events projectId d = none := by
    by_contra hever
    exact h.known d hever hnone
  have hthis : (decide (projectId = projectId) && mentions event d) = true := by rw [hmentions, Bool.and_true, decide_eq_true_iff]
  rw [createdOf_append, hnever, Option.none_or, if_pos hthis, Option.some.injEq]

theorem mentions_iff : mentions event d = true ↔ d = event.distinctId ∨ ∃ guard, linkOf event = some (d, guard) := by
  rw [mentions, Bool.or_eq_true, decide_eq_true_eq, Option.any_eq_true]
  refine or_congr_right ⟨?_, ?_⟩
  · rintro ⟨⟨other, guard⟩, hlink, heq⟩
    exact ⟨guard, of_decide_eq_true heq ▸ hlink⟩
  · rintro ⟨guard, hlink⟩
    exact ⟨_, hlink, decide_eq_true rfl⟩

/-- An event makes the ids known that it needs. -/
theorem known_of_mentions (hs : s.Resolved) (happlied : applyIdentityEffects K projectId event s = .ok () s') (hd : mentions event d = true) :
    s'.personOf projectId d ≠ none := by
  rcases mentions_iff.mp hd with rfl | ⟨guard, hother⟩
  · exact ((event_applies event hs).ok happlied).2
  · obtain ⟨p, s₁, s₂, hp, hlink, hu⟩ := (event_steps hs event).ok happlied
    rw [LinkedBy, hother] at hlink
    rw [(hu projectId).ids]
    exact hlink.known.2

theorem Tracked.own_dated (h : Tracked events projectId s) (hs : s.Resolved) (hyears : ∀ e ∈ events ++ [(projectId, event)], e.2.timestamp.FourDigit)
    (happlied : applyIdentityEffects K projectId event s = .ok () s') :
    Dated (fun d t => createdOf (events ++ [(projectId, event)]) projectId d = some t) (SeenIn (events ++ [(projectId, event)]) projectId) projectId s' := by
  obtain ⟨p, s₁, s₂, hp, hlink, hu⟩ := (event_steps hs event).ok happlied
  have hyear : event.timestamp.FourDigit := hyears (projectId, event) (List.mem_append_right _ (List.mem_singleton_self _))
  have hstart : Dated (fun d t => createdOf (events ++ [(projectId, event)]) projectId d = some t) (SeenIn events projectId) projectId s := by
    refine h.dated.congr fun d hd t => ?_
    obtain ⟨u, hu⟩ : ∃ u, createdOf events projectId d = some u := h.dated.known d hd
    rw [createdOf_append, hu, Option.some_or]
  have hensured := hstart.ensured hp (h.fresh (mentions_iff.mpr (.inl rfl)))
  have hmarked := hensured.markSeen hp.points
    (fun d t ht => fourDigit_of_seen (fun e he => hyears e (List.mem_append_left _ he)) ht) hyear
  have hseen : (fun d t => SeenIn events projectId d t ∨ d = event.distinctId ∧ event.timestamp = t) =
      SeenIn (events ++ [(projectId, event)]) projectId := by
    funext d t
    rw [seenIn_append, eq_self, true_and]
  rw [hseen] at hmarked
  refine Dated.undated ?_ (hu projectId)
  cases hother : linkOf event with
  | none =>
    rw [LinkedBy, hother] at hlink
    exact hlink ▸ hmarked
  | some link =>
    rw [LinkedBy, hother] at hlink
    refine hmarked.merged hlink (fun d hd hnone => h.fresh (mentions_iff.mpr (hd.imp_right ?_)) ?_)
      (fun d t ht => fourDigit_of_created hyears ht) fun d t ht => fourDigit_of_seen hyears ht
    · rintro rfl
      exact ⟨link.2, hother⟩
    · refine Option.eq_none_iff_forall_ne_some.mpr fun q hq => ?_
      rw [Tables.personOf_setPerson, hp.keeps hq] at hnone
      cases hnone

/-- An event's own project. -/
theorem Tracked.own (h : Tracked events projectId s) (hs : s.Resolved) (hyears : ∀ e ∈ events ++ [(projectId, event)], e.2.timestamp.FourDigit)
    (happlied : applyIdentityEffects K projectId event s = .ok () s') : Tracked (events ++ [(projectId, event)]) projectId s' := by
  refine ⟨h.own_dated hs hyears happlied, fun d hd => ?_⟩
  rw [createdOf_append] at hd
  by_cases hever : createdOf events projectId d = none
  · refine known_of_mentions hs happlied ?_
    by_contra hnot
    simp [hever, hnot] at hd
  · exact Forest.known_run ((event_runs hs happlied).grows hs projectId).1 (h.known d hever)

/-- Another project. -/
theorem Tracked.other (h : Tracked events pr s) (hs : s.Resolved) (hpr : pr ≠ projectId)
    (happlied : applyIdentityEffects K projectId event s = .ok () s') : Tracked (events ++ [(projectId, event)]) pr s' := by
  obtain ⟨p, s₁, s₂, hp, hlink, hu⟩ := (event_steps hs event).ok happlied
  have hlinked : Undated pr (s₁.setPerson projectId p (markSeen event)) s₂ := by
    unfold LinkedBy at hlink
    split at hlink
    · exact hlink.elsewhere hpr
    · exact hlink ▸ .refl _
  have hundated : Undated pr s s' := (((hp.elsewhere hpr).trans (.elsewhere s₁ hpr p _)).trans hlinked).trans (hu pr)
  have hcreated : createdOf (events ++ [(projectId, event)]) pr = createdOf events pr := by
    funext d
    rw [createdOf_append, decide_eq_false (Ne.symm hpr), Bool.false_and, if_neg Bool.false_ne_true, Option.or_none]
  have hseen : SeenIn (events ++ [(projectId, event)]) pr = SeenIn events pr := by
    funext d t
    rw [seenIn_append, eq_iff_iff]
    exact or_iff_left fun hand => hpr hand.1.symm
  refine ⟨?_, fun d hd => ?_⟩
  · rw [hcreated, hseen]
    exact h.dated.undated hundated
  · rw [hundated.ids]
    rw [hcreated] at hd
    exact h.known d hd

theorem Replayed.reached (h : Replayed K events s) : System.Reached .empty (Step K) System.anyStep s := by
  induction h with
  | start => exact .start
  | @event events s s' _ projectId event happlied ih =>
    have hstep : Step K (.event projectId event) s s' := happlied
    exact .step ih trivial hstep

theorem Replayed.tracked (h : Replayed K events s) (hyears : ∀ e ∈ events, e.2.timestamp.FourDigit) (pr : String) : Tracked events pr s := by
  induction h with
  | start =>
    refine ⟨⟨resolved_empty.rooted pr, fun d hd => absurd rfl hd, ?_, ?_⟩, fun d hd => absurd rfl hd⟩
    · rintro d t ⟨e, he, -⟩
      cases he
    · intro p row hrow
      cases hrow
  | @event events s s' hrun projectId event happlied ih =>
    have htracked := ih fun e he => hyears e (List.mem_append_left _ he)
    have hs := reached_resolved hrun.reached
    by_cases hpr : pr = projectId
    · subst hpr
      exact htracked.own hs hyears happlied
    · exact htracked.other hs hpr happlied

theorem Replayed.last {e : String × CapturedEvent ν U} (h : Replayed K (events ++ [e]) s) :
    ∃ s₀, Replayed K events s₀ ∧ applyIdentityEffects K e.1 e.2 s₀ = .ok () s := by
  generalize hall : events ++ [e] = all at h
  cases h with
  | start => simp at hall
  | event h happlied =>
    obtain ⟨rfl, heq⟩ := List.append_inj' hall rfl
    cases heq
    exact ⟨_, h, happlied⟩

theorem Replayed.unique (h : Replayed K events s) (h' : Replayed K events s') : s = s' := by
  induction events using List.reverseRecOn generalizing s s' with
  | nil =>
    generalize hnil : ([] : List (String × CapturedEvent ν U)) = events at h h'
    have hempty : ∀ {t}, Replayed K events t → t = .empty := by
      intro t ht
      cases ht with
      | start => rfl
      | event _ _ => simp at hnil
    rw [hempty h, hempty h']
  | append_singleton events e ih =>
    obtain ⟨s₀, h₀, happlied⟩ := h.last
    obtain ⟨s₀', h₀', happlied'⟩ := h'.last
    rw [ih h₀ h₀', happlied'] at happlied
    cases happlied
    rfl

/-- An id belongs to whoever its person has been merged into. -/
theorem Replayed.follows {before after : List (String × CapturedEvent ν U)} {s₀ : Tables} (h₀ : Replayed K before s₀)
    (h : Replayed K (before ++ after) s) {d q : String} (hd : s₀.personOf pr d = some q) : s.personOf pr d = s.personOf pr q := by
  have hroot := (reached_resolved h₀.reached).rooted pr d q hd
  suffices hrun : Relation.ReflTransGen Forest.Grows (s₀.personOf pr) (s.personOf pr) from Forest.same_run hrun hd hroot
  induction after using List.reverseRecOn generalizing s with
  | nil =>
    rw [List.append_nil] at h
    rw [h₀.unique h]
  | append_singleton after e ih =>
    rw [← List.append_assoc] at h
    obtain ⟨s₁, h₁, happlied⟩ := h.last
    exact (ih h₁).trans ((event_runs (reached_resolved h₁.reached) happlied).grows (reached_resolved h₁.reached) pr).1

end replay

/-! One merge. -/
section merge
variable {ν U : Type} {K : Crates ν U} {projectId : String} {s s' : Tables}

/-- `kept` takes the properties of both people, its own values first, and `gone` goes. -/
def United (K : Crates ν U) (projectId kept gone : String) (s s' : Tables) : Prop :=
  ∃ winner loser row winnerProperties loserProperties properties, s.person projectId kept = some winner ∧ s.person projectId gone = some loser ∧
    s'.person projectId kept = some row ∧ s'.person projectId gone = none ∧ decodeProperties K winner.properties = .ok winnerProperties ∧
    decodeProperties K loser.properties = .ok loserProperties ∧ decodeProperties K row.properties = .ok properties ∧
    ∀ k, properties.get k = (winnerProperties.get k).or (loserProperties.get k)

theorem Joins.united {w l : String} {winner loser : PersonRow} (h : Joins K projectId w l winner loser s s') (hne : w ≠ l) :
    United K projectId w l s s' := by
  obtain ⟨hwinner, hloser, winnerProperties, loserProperties, hw, hl, rfl⟩ := h
  have hwithin : Within storedDepth (insertAll loserProperties winnerProperties.members) := (within_of_decode hl).insertAll (within_of_decode hw)
  refine ⟨winner, loser, mergedRow K winner loser winnerProperties loserProperties, winnerProperties, loserProperties, _, hwinner, hloser, ?_, ?_,
    hw, hl, decode_encode K hwithin, get_insertAll_members loserProperties winnerProperties⟩
  · rw [person_joined, if_neg (fun h => hne h.2), hwinner, Option.map_some, if_pos rfl]
  · rw [person_joined, if_pos ⟨rfl, rfl⟩]

/-- From any tables: the two ids get their people, and unless they stay apart one of the two is merged into the other. -/
theorem mergePersons_unites (losing winning : String) (event : CapturedEvent ν U) (guard : MergeGuard)
    (h : mergePersons K projectId losing winning event guard s = .ok () s') :
    ∃ w s₁ l s₂, ensurePerson projectId winning event s = .ok w s₁ ∧ ensurePerson projectId losing event s₁ = .ok l s₂ ∧
      (s' = s₂ ∨ ∃ kept gone, kept ≠ gone ∧ (kept = w ∧ gone = l ∨ kept = l ∧ gone = w) ∧ United K projectId kept gone s₂ s') := by
  suffices hends : Ends (mergePersons K projectId losing winning event guard) s (fun _ s' => ∃ w s₁ l s₂,
      ensurePerson projectId winning event s = .ok w s₁ ∧ ensurePerson projectId losing event s₁ = .ok l s₂ ∧
        (s' = s₂ ∨ ∃ kept gone, kept ≠ gone ∧ (kept = w ∧ gone = l ∨ kept = l ∧ gone = w) ∧ United K projectId kept gone s₂ s')) fun _ _ => True from
    hends.ok h
  refine .bind ((Ends.ran _ s).mono (fun w s₁ hw => ?_) fun _ _ h => h)
  refine .bind ((Ends.ran _ s₁).mono (fun l s₂ hl => ?_) fun _ _ h => h)
  split
  · exact .pure ⟨w, s₁, l, s₂, hw, hl, .inl rfl⟩
  rename_i hne
  refine .bind ((guardedMerge_found guard w l).mono (fun r s₃ ⟨hs₃, hr⟩ => ?_) fun _ _ h => h)
  subst hs₃
  rcases hr with ⟨rfl, -⟩ | rfl | rfl
  · exact .pure ⟨w, s₁, l, _, hw, hl, .inl rfl⟩
  · refine (foldPersons_joins w l).mono (fun _ s' ⟨winner, loser, hjoins⟩ => ?_) fun _ _ h => h
    exact ⟨w, s₁, l, _, hw, hl, .inr ⟨w, l, hne, .inl ⟨rfl, rfl⟩, hjoins.united hne⟩⟩
  · refine (foldPersons_joins l w).mono (fun _ s' ⟨winner, loser, hjoins⟩ => ?_) fun _ _ h => h
    exact ⟨w, s₁, l, _, hw, hl, .inr ⟨l, w, Ne.symm hne, .inr ⟨rfl, rfl⟩, hjoins.united (Ne.symm hne)⟩⟩

end merge

section metadata
variable {ν U : Type} {K : Crates ν U} {events : List (String × CapturedEvent ν U)} {s : Tables}

/-- After any events of the years 0 to 9999 each person's row is dated by the people merged into it, which are those its ids once belonged to; a merge
unites the properties of its two people with the winner's values first; and the texts that are compared are in the order of the times. -/
theorem merge_metadata (h : Replayed K events s) (hyears : ∀ e ∈ events, e.2.timestamp.FourDigit) :
    (∀ projectId p row, s.person projectId p = some row →
      DatedRow (fun d t => createdOf events projectId d = some t) (SeenIn events projectId) (s.personOf projectId) p row) ∧
    (∀ before after s₀ projectId d q, events = before ++ after → Replayed K before s₀ → s₀.personOf projectId d = some q →
      s.personOf projectId d = s.personOf projectId q) ∧
    (∀ projectId losing winning event guard s₀ s', mergePersons K projectId losing winning event guard s₀ = .ok () s' →
      ∃ w s₁ l s₂, ensurePerson projectId winning event s₀ = .ok w s₁ ∧ ensurePerson projectId losing event s₁ = .ok l s₂ ∧
        (s' = s₂ ∨ ∃ kept gone, kept ≠ gone ∧ (kept = w ∧ gone = l ∨ kept = l ∧ gone = w) ∧ United K projectId kept gone s₂ s')) ∧
    ∀ t t' : DateTime, t.FourDigit → t'.FourDigit → (t.toRfc3339 < t'.toRfc3339 ↔ t < t') :=
  ⟨fun projectId => (h.tracked hyears projectId).dated.rows, fun _ _ _ _ _ _ hall h₀ => h₀.follows (hall ▸ h), fun _ losing winning event guard _ _ => mergePersons_unites losing winning event guard,
    fun _ _ => toRfc3339_lt⟩

/-- A login that links an anonymous id. -/
theorem linked_metadata : ∃ row, linkedTables.person "p" "u" = some row ∧ row.createdAt = Small.noon.toRfc3339 := by
  have hrun : Replayed Crates.small [("p", linkEvent)] linkedTables := .event .start linkEvent_applied
  have hroot := (reached_resolved hrun.reached).rooted "p" "a" "u" linkedTables_person
  obtain ⟨row, hrow⟩ := Option.isSome_iff_exists.mp (((reached_resolved hrun.reached).person "p" "u").mpr hroot)
  have hyears : ∀ e ∈ [("p", linkEvent)], e.2.timestamp.FourDigit := by
    intro e he
    rw [List.mem_singleton.mp he]
    exact ⟨by decide, by decide⟩
  obtain ⟨⟨t, ⟨⟨d, -, hd⟩, -⟩, htext, -⟩, -⟩ := (merge_metadata hrun hyears).1 "p" "u" row hrow
  obtain ⟨e, he, rfl⟩ := Option.map_eq_some_iff.mp hd
  rw [List.mem_singleton.mp (List.mem_of_find?_eq_some he)] at htext
  exact ⟨row, hrow, htext⟩

end metadata
end Hoglet.Projections
