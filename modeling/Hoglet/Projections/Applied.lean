import Hoglet.Projections.Changes

/-! Every function of the identity projection is a run of changes and hits no constraint. -/
namespace Hoglet.Projections
open Json Capture

/-- From resolved tables the function makes changes only, ends as `Q` says, and no statement of it fails. -/
def Applies {α : Type} (projectId : String) (dangerous : Bool) (x : Effects α) (s : Tables) (Q : α → Tables → Prop) : Prop :=
  s.Resolved → Ends x s (fun a s' => Changes projectId dangerous s s' ∧ Q a s') fun e _ => e ≠ .database

section rules
variable {α γ : Type} {projectId : String} {dangerous : Bool} {s : Tables}

theorem Applies.bind {x : Effects α} {f : α → Effects γ} {P : α → Tables → Prop} {Q : γ → Tables → Prop}
    (h : Applies projectId dangerous x s P) (hf : ∀ a s', P a s' → s'.Resolved → Applies projectId dangerous (f a) s' Q) :
    Applies projectId dangerous (x >>= f) s Q := fun hs => .bind <| (h hs).mono
  (fun a s' ⟨hc, hp⟩ => (hf a s' hp (hc.resolved hs) (hc.resolved hs)).mono (fun _ _ ⟨hc', hq⟩ => ⟨hc.trans hc', hq⟩)
    fun _ _ he => he)
  fun _ _ he => he

theorem Applies.pure {a : α} {Q : α → Tables → Prop} (h : Q a s) : Applies projectId dangerous (Pure.pure a) s Q :=
  fun _ => .pure ⟨.refl, h⟩

theorem Applies.change {f : Tables → Tables} {Q : PUnit → Tables → Prop} (h : Change projectId dangerous s (f s))
    (hq : Q ⟨⟩ (f s)) : Applies projectId dangerous (modifyGet fun s => (⟨⟩, f s)) s Q :=
  fun _ => .modify ⟨.single h, hq⟩

theorem Applies.mono {x : Effects α} {P Q : α → Tables → Prop} (h : Applies projectId dangerous x s P)
    (hq : ∀ a s', P a s' → Q a s') : Applies projectId dangerous x s Q :=
  fun hs => (h hs).mono (fun _ _ ⟨hc, hp⟩ => ⟨hc, hq _ _ hp⟩) fun _ _ he => he

/-- A known distinct id stays known. -/
theorem Applies.known {x : Effects α} {Q : α → Tables → Prop} {d : String} (h : Applies projectId dangerous x s Q)
    (hd : s.personOf projectId d ≠ none) :
    Applies projectId dangerous x s fun a s' => Q a s' ∧ s'.personOf projectId d ≠ none :=
  fun hs => (h hs).mono (fun _ _ ⟨hc, hq⟩ => ⟨hc, hq, Forest.known_run (hc.grows hs projectId).1 hd⟩) fun _ _ he => he

end rules

section functions
variable {ν U : Type} {K : Crates ν U} {projectId : String} {dangerous : Bool} {s : Tables}

/-- A stored text that does not decode is the one error there is. -/
theorem decoded_applies (encoded : String) : Applies projectId dangerous (decoded K encoded) s fun _ s' => s' = s := by
  intro _
  unfold decoded
  cases h : decodeProperties K encoded with
  | ok properties => exact .pure ⟨.refl, rfl⟩
  | error e =>
    refine .throw ?_
    unfold decodeProperties at h
    split at h <;> cases h
    simp

theorem personRow_applies {p : String} {row : PersonRow} (h : s.person projectId p = some row) :
    Applies projectId dangerous (personRow projectId p) s fun r s' => r = row ∧ s' = s := by
  refine fun _ => .bind (.get ?_)
  simp only [h]
  exact .pure ⟨.refl, rfl, rfl⟩

/-- The id points to the returned person, and every id that was known still points where it did. -/
theorem ensurePerson_applies (d : String) (event : CapturedEvent ν U) :
    Applies projectId dangerous (ensurePerson projectId d event) s fun p s' =>
      s'.personOf projectId d = some p ∧ ∀ e q, s.personOf projectId e = some q → s'.personOf projectId e = some q := by
  refine fun hs => .bind (.get ?_)
  cases hd : s.distinctIds.get (projectId, d) with
  | some row => exact .pure ⟨.refl, by rw [Tables.personOf, hd, Option.map_some], fun _ _ => id⟩
  | none =>
    have hnew : s.personOf projectId d = none := by rw [Tables.personOf, hd, Option.map_none]
    have hnone : s.persons.get (projectId, d) = none := by
      by_contra hp
      have := (hs.person projectId d).mp (Option.isSome_iff_ne_none.mpr hp)
      rw [hnew] at this
      cases this
    obtain ⟨persons, hpersons⟩ := Table.insert_isSome
      (⟨event.timestamp.toRfc3339, false, "\x7b\x7d", d, none⟩ : PersonRow) hnone
    obtain ⟨distinctIds, hids⟩ := Table.insert_isSome (⟨d, 0⟩ : DistinctIdRow) hd
    refine .bind (.bind (.get ?_))
    simp only [hpersons]
    refine .modify (.bind (.bind (.get ?_)))
    have hthere : ({ s with persons } : Tables).person projectId d =
        some ⟨event.timestamp.toRfc3339, false, "\x7b\x7d", d, none⟩ := by
      rw [Tables.person, Table.get_insert hpersons, if_pos rfl]
    simp only [hthere, Option.isNone_some, Bool.false_eq_true, if_false, hids]
    refine .modify (.pure ⟨.single (.created d _ rfl hpersons hids), ?_, fun e q he => ?_⟩)
    · rw [Tables.personOf, Table.get_insert hids, if_pos rfl, Option.map_some]
    · have hne : e ≠ d := by
        rintro rfl
        rw [hnew] at he
        cases he
      rw [Tables.personOf, Table.get_insert hids, if_neg (by simpa using hne)]
      exact he

/-- What the guard admits is the two people, in either order, and the one that goes is not identified
unless the guard is none. -/
theorem guardedMerge_applies {guard : MergeGuard} {w l : String} {winner loser : PersonRow} (hw : s.person projectId w = some winner)
    (hl : s.person projectId l = some loser) :
    Applies projectId dangerous (guardedMerge projectId guard w l) s fun r s' => s' = s ∧ ∀ w' l', r = some (w', l') →
      (guard ≠ .always → ∀ lost, s.person projectId l' = some lost → lost.isIdentified = false) ∧
      (w' = w ∧ l' = l ∨ w' = l ∧ l' = w) := by
  have hrow : Applies projectId dangerous (personRow projectId l) s _ := personRow_applies hl
  refine fun _ => .bind ((hrow ‹_›).mono (fun r s' => ?_) fun _ _ => id)
  rintro ⟨-, rfl, rfl⟩
  have hself : ∀ b, r.isIdentified = b → b = false → ∀ lost, s'.person projectId l = some lost → lost.isIdentified = false := by
    rintro b rfl hb lost hlost
    rw [hl] at hlost
    cases hlost
    exact hb
  cases hg : guard <;> cases hi : r.isIdentified <;> simp only
  case refuseIdentifiedSource.true => exact .pure ⟨.refl, rfl, by simp⟩
  case refuseBothIdentified.true =>
    have hrow : Applies projectId dangerous (personRow projectId w) s' _ := personRow_applies hw
    refine .bind ((hrow ‹_›).mono (fun r' s'' => ?_) fun _ _ => id)
    rintro ⟨-, rfl, rfl⟩
    cases hi' : r'.isIdentified with
    | true => exact .pure ⟨.refl, rfl, by simp⟩
    | false =>
      refine .pure ⟨.refl, rfl, fun w' l' h => ?_⟩
      cases h
      refine ⟨fun _ lost hlost => ?_, .inr ⟨rfl, rfl⟩⟩
      rw [hw] at hlost
      cases hlost
      exact hi'
  all_goals
    refine .pure ⟨.refl, rfl, fun w' l' h => ?_⟩
    cases h
    exact ⟨fun hne => by first | exact hself _ hi rfl | exact absurd rfl hne, .inl ⟨rfl, rfl⟩⟩

theorem foldPersons_applies {w l : String} {winner loser : PersonRow} (hne : w ≠ l)
    (hw : s.person projectId w = some winner) (hl : s.person projectId l = some loser)
    (hguard : dangerous = false → loser.isIdentified = false) :
    Applies projectId dangerous (foldPersons K projectId w l) s fun _ _ => True := by
  refine (personRow_applies hw).bind fun winnerRow s' ⟨hrow, hs'⟩ _ => ?_
  subst hrow hs'
  refine (personRow_applies hl).bind fun loserRow s' ⟨hrow, hs'⟩ _ => ?_
  subst hrow hs'
  refine (decoded_applies _).bind fun loserProperties s' hs' _ => ?_
  subst hs'
  refine (decoded_applies _).bind fun winnerProperties s' hs' _ => ?_
  subst hs'
  intro _
  refine .bind (.bind (.modify (.bind (.get (.pure (.bind (.modify (.bind (.modify (.bind (.modify (.modify ?_))))))))))))
  refine ⟨.single ?_, trivial⟩
  rw [Tables.setPerson_setPerson]
  exact .united w l hne (by rw [hw]; rfl) loserRow hl hguard _ fun _ _ => rfl

theorem mergePersons_applies (losing winning : String) (event : CapturedEvent ν U) {guard : MergeGuard}
    (hguard : dangerous = false → guard ≠ .always) :
    Applies projectId dangerous (mergePersons K projectId losing winning event guard) s fun _ _ => True := by
  refine (ensurePerson_applies winning event).bind fun w s₁ ⟨hw, _⟩ _ => ?_
  refine (ensurePerson_applies losing event).bind fun l s₂ ⟨hl, hkept⟩ hs₂ => ?_
  split
  · exact .pure trivial
  rename_i hne
  have hroot : ∀ d p, s₂.personOf projectId d = some p → ∃ row, s₂.person projectId p = some row := fun d p hp =>
    Option.isSome_iff_exists.mp ((hs₂.person projectId p).mpr (hs₂.rooted projectId d p hp))
  obtain ⟨winner, hwinner⟩ := hroot winning w (hkept _ _ hw)
  obtain ⟨loser, hloser⟩ := hroot losing l hl
  refine (guardedMerge_applies hwinner hloser).bind fun r s₃ ⟨hs₃, hr⟩ _ => ?_
  subst hs₃
  cases r with
  | none => exact .pure trivial
  | some pair =>
    obtain ⟨w', l'⟩ := pair
    obtain ⟨hun, hpair⟩ := hr w' l' rfl
    rcases hpair with ⟨rfl, rfl⟩ | ⟨rfl, rfl⟩
    · exact foldPersons_applies hne hwinner hloser fun hd => hun (hguard hd) loser hloser
    · exact foldPersons_applies (Ne.symm hne) hloser hwinner fun hd => hun (hguard hd) winner hwinner

theorem markIdentified_applies (d : String) :
    Applies projectId dangerous (markIdentified projectId d) s fun _ _ => True := by
  refine fun _ => .bind (.get ?_)
  cases s.personOf projectId d with
  | none => exact .pure ⟨.refl, trivial⟩
  | some p => exact .modify ⟨.single (.touched p _ fun _ _ => rfl), trivial⟩

theorem applyGroup_applies (event : CapturedEvent ν U) :
    Applies projectId dangerous (applyGroup K projectId event) s fun _ _ => True := by
  unfold applyGroup
  split
  · refine Applies.bind (P := fun _ _ => True) (fun _ => .get ⟨.refl, trivial⟩) fun tables s₁ _ _ => ?_
    split
    · exact (decoded_applies _).bind fun properties s₂ _ _ => .change (.grouped _) trivial
    · exact .change (.grouped _) trivial
  · exact .pure trivial

theorem applyPersonProperties_applies (d : String) (event : CapturedEvent ν U) :
    Applies projectId dangerous (applyPersonProperties K projectId d event) s fun _ _ => True := by
  unfold applyPersonProperties
  simp only
  split
  · exact .pure trivial
  refine (ensurePerson_applies d event).bind fun p s₁ ⟨hp, _⟩ hs₁ => ?_
  obtain ⟨row, hrow⟩ := Option.isSome_iff_exists.mp ((hs₁.person projectId p).mpr (hs₁.rooted projectId d p hp))
  refine (personRow_applies hrow).bind fun r s' ⟨_, hs'⟩ _ => ?_
  subst hs'
  refine (decoded_applies _).bind fun properties s' hs' _ => ?_
  subst hs'
  exact .change (.touched p _ fun _ h => h) trivial

theorem applyLink_applies (event : CapturedEvent ν U) (hd : dangerous = false → event.event ≠ "$merge_dangerously") :
    Applies projectId dangerous (applyLink K projectId event) s fun _ _ => True := by
  unfold applyLink
  simp only
  split
  · refine Applies.bind (P := fun _ _ => True) ?_ fun _ _ _ _ => markIdentified_applies _
    split
    · exact mergePersons_applies _ event.distinctId event (by simp)
    · exact .pure trivial
  · refine Applies.bind (P := fun _ _ => True) ?_ fun _ _ _ _ => markIdentified_applies _
    split
    · exact mergePersons_applies _ event.distinctId event (by simp)
    · exact .pure trivial
  · rename_i hname
    split
    · exact mergePersons_applies _ event.distinctId event fun h => absurd hname (hd h)
    · exact .pure trivial
  · exact applyGroup_applies event
  · exact .pure trivial

/-- Applying an event is a run of changes, after which its distinct id is known; only a blank project id
and an undecodable text stop it. -/
theorem applyIdentityEffects_applies (event : CapturedEvent ν U)
    (hd : dangerous = false → event.event ≠ "$merge_dangerously") :
    Applies projectId dangerous (applyIdentityEffects K projectId event) s fun _ s' =>
      s'.personOf projectId event.distinctId ≠ none := by
  unfold applyIdentityEffects
  split
  · exact fun _ => .throw (by simp)
  refine (ensurePerson_applies event.distinctId event).bind fun p s₁ ⟨hp, _⟩ _ => ?_
  have hknown : s₁.personOf projectId event.distinctId ≠ none := by simp [hp]
  refine Applies.bind (P := fun _ s' => s'.personOf projectId event.distinctId ≠ none) ?_ fun _ s₂ hs₂ _ => ?_
  · refine .change (.touched p _ fun r h => ?_) hknown
    split <;> exact h
  refine ((applyLink_applies event hd).known hs₂).bind fun _ s₃ hs₃ _ => ?_
  exact ((applyPersonProperties_applies _ event).known hs₃.2).mono fun _ _ h => h.2

/-- With no guard asked for. -/
theorem event_applies (event : CapturedEvent ν U) : Applies projectId true (applyIdentityEffects K projectId event) s
    fun _ s' => s'.personOf projectId event.distinctId ≠ none :=
  applyIdentityEffects_applies event (by simp)

end functions
end Hoglet.Projections
