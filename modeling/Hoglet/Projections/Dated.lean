import Hoglet.Capture.TextOrder
import Hoglet.Projections.Twice

/-! When the people of the identity tables were created and seen, whatever has been merged into them. -/
namespace Hoglet.Projections
open Json Capture

section latest

/-- The text of the latest time, to the microsecond; none when there is no time. -/
def Latest : Option String → Set DateTime → Prop
  | none, times => times = ∅
  | some text, times => ∃ t ∈ times, text = t.sortableTime ∧ ∀ t' ∈ times, t'.ns / 1000 ≤ t.ns / 1000

variable {a b : Option String} {A B : Set DateTime}

private theorem sortableTime_le {t t' : DateTime} (h : t.FourDigit) (h' : t'.FourDigit) :
    t.sortableTime ≤ t'.sortableTime ↔ t.ns / 1000 ≤ t'.ns / 1000 := by
  rw [← not_lt, sortableTime_lt h' h, not_lt]

theorem Latest.max (ha : Latest a A) (hb : Latest b B) (hA : ∀ t ∈ A, t.FourDigit) (hB : ∀ t ∈ B, t.FourDigit) :
    Latest (Option.max a b) (A ∪ B) := by
  cases a with
  | none =>
    rw [show A = ∅ from ha, Set.empty_union]
    cases b <;> exact hb
  | some x =>
    cases b with
    | none =>
      rw [show B = ∅ from hb, Set.union_empty]
      exact ha
    | some y =>
      obtain ⟨t, ht, rfl, hlate⟩ := ha
      obtain ⟨u, hu, rfl, hlate'⟩ := hb
      have horder := sortableTime_le (hA t ht) (hB u hu)
      rcases le_total t.sortableTime u.sortableTime with hle | hle
      · refine ⟨u, .inr hu, max_eq_right hle, ?_⟩
        rintro t' (ht' | ht')
        · exact (hlate t' ht').trans (horder.mp hle)
        · exact hlate' t' ht'
      · refine ⟨t, .inl ht, max_eq_left hle, ?_⟩
        rintro t' (ht' | ht')
        · exact hlate t' ht'
        · exact (hlate' t' ht').trans ((sortableTime_le (hB u hu) (hA t ht)).mp hle)

end latest

section rows

/-- The row of a person: created when the first of the people merged into it was, and seen when any of their ids last was. -/
structure DatedRow (created seen : String → DateTime → Prop) (of : String → Option String) (p : String) (row : PersonRow) : Prop where
  earliest : ∃ t, IsLeast (Forest.gathered of created p) t ∧ row.createdAt = t.toRfc3339 ∧
    of row.firstSeenKey = some p ∧ created row.firstSeenKey t
  latest : Latest row.lastSeen (Forest.gathered of seen p)

/-- Every person of a project has such a row. -/
structure Dated (created seen : String → DateTime → Prop) (projectId : String) (s : Tables) : Prop where
  rooted : Forest.Rooted (s.personOf projectId)
  known : ∀ d, s.personOf projectId d ≠ none → ∃ t, created d t
  owned : ∀ d t, seen d t → s.personOf projectId d ≠ none
  rows : ∀ p row, s.person projectId p = some row → DatedRow created seen (s.personOf projectId) p row

/-- The ids of a project stay where they are, and its people keep their dates. -/
structure Undated (projectId : String) (s s' : Tables) : Prop where
  ids : s'.personOf projectId = s.personOf projectId
  rows : ∀ p row', s'.person projectId p = some row' → ∃ row, s.person projectId p = some row ∧ row'.createdAt = row.createdAt ∧
    row'.firstSeenKey = row.firstSeenKey ∧ row'.lastSeen = row.lastSeen

variable {created seen : String → DateTime → Prop} {projectId : String} {s s' s'' : Tables}

theorem Undated.refl (s : Tables) : Undated projectId s s := ⟨rfl, fun _ row hrow => ⟨row, hrow, rfl, rfl, rfl⟩⟩

theorem Undated.trans (h : Undated projectId s s') (h' : Undated projectId s' s'') : Undated projectId s s'' := by
  refine ⟨h'.ids.trans h.ids, fun p row'' hrow'' => ?_⟩
  obtain ⟨row', hrow', hcreated', hkey', hseen'⟩ := h'.rows p row'' hrow''
  obtain ⟨row, hrow, hcreated, hkey, hseen⟩ := h.rows p row' hrow'
  exact ⟨row, hrow, hcreated'.trans hcreated, hkey'.trans hkey, hseen'.trans hseen⟩

/-- Tables with the same ids and rows. -/
theorem Undated.of_eq (hids : s'.personOf projectId = s.personOf projectId) (hrows : s'.person projectId = s.person projectId) :
    Undated projectId s s' := ⟨hids, fun _ row hrow => ⟨row, hrows ▸ hrow, rfl, rfl, rfl⟩⟩

theorem Undated.setPerson (s : Tables) (pr p : String) {f : PersonRow → PersonRow}
    (hf : ∀ row, (f row).createdAt = row.createdAt ∧ (f row).firstSeenKey = row.firstSeenKey ∧ (f row).lastSeen = row.lastSeen) :
    Undated projectId s (s.setPerson pr p f) := by
  refine ⟨rfl, fun q row' hrow' => ?_⟩
  rw [Tables.person_setPerson] at hrow'
  obtain ⟨row, hrow, rfl⟩ := Option.map_eq_some_iff.mp hrow'
  refine ⟨row, hrow, ?_⟩
  split
  · exact hf row
  · exact ⟨rfl, rfl, rfl⟩

theorem Dated.undated (h : Dated created seen projectId s) (hu : Undated projectId s s') : Dated created seen projectId s' := by
  obtain ⟨hids, hrows⟩ := hu
  refine ⟨hids ▸ h.rooted, hids ▸ h.known, hids ▸ h.owned, fun p row' hrow' => ?_⟩
  obtain ⟨row, hrow, hcreated, hkey, hseen⟩ := hrows p row' hrow'
  obtain ⟨hearliest, hlatest⟩ := h.rows p row hrow
  rw [hids]
  exact ⟨hcreated ▸ hkey ▸ hearliest, hseen ▸ hlatest⟩

/-- A new person has the time of its event. -/
theorem Dated.ensured {ν U : Type} {d p : String} {event : CapturedEvent ν U} (h : Dated created seen projectId s)
    (he : Ensured projectId d event s p s') (hnew : s.personOf projectId d = none → ∀ t, created d t ↔ event.timestamp = t) :
    Dated created seen projectId s' := by
  cases he with
  | known _ => exact h
  | created hd hids hrows =>
    have hof : s'.personOf projectId = Forest.create (s.personOf projectId) d := (hids projectId).trans (if_pos rfl)
    have hroot : ∀ e, s.personOf projectId e ≠ some d := by
      intro e he
      have hd' := h.rooted e d he
      rw [hd] at hd'
      cases hd'
    refine ⟨hof ▸ h.rooted.create hd, fun e he => ?_, fun e t ht => ?_, fun q row hrow => ?_⟩
    · by_cases heq : e = d
      · exact ⟨event.timestamp, heq ▸ (hnew hd _).mpr rfl⟩
      · rw [hof, Forest.create, Function.update_of_ne heq] at he
        exact h.known e he
    · have hknown := h.owned e t ht
      have hne : e ≠ d := by
        rintro rfl
        exact hknown hd
      rwa [hof, Forest.create, Function.update_of_ne hne]
    · rw [hof]
      rw [hrows] at hrow
      by_cases hq : q = d
      · subst hq
        rw [if_pos rfl] at hrow
        have hfirst : created q event.timestamp := (hnew hd _).mpr rfl
        rw [← Option.some.inj hrow, newPerson]
        refine ⟨⟨event.timestamp, ?_, rfl, Function.update_self .., hfirst⟩, ?_⟩
        · rw [Forest.gathered_create_self hroot]
          exact ⟨hfirst, fun t ht => ((hnew hd t).mp ht).le⟩
        · rw [Forest.gathered_create_self hroot]
          exact Set.eq_empty_of_forall_notMem fun t ht => h.owned q t ht hd
      · rw [if_neg (by simp [hq])] at hrow
        obtain ⟨⟨t, hleast, htext, hkey, hfirst⟩, hlatest⟩ := h.rows q row hrow
        have hne : row.firstSeenKey ≠ d := by
          intro heq
          rw [heq, hd] at hkey
          cases hkey
        constructor
        · refine ⟨t, by rwa [Forest.gathered_create hd hq], htext, ?_, hfirst⟩
          rw [Forest.create, Function.update_of_ne hne, hkey]
        · rwa [Forest.gathered_create hd hq]

theorem lastSeen_markSeen {ν U : Type} (event : CapturedEvent ν U) (row : PersonRow) :
    (markSeen event row).lastSeen = Option.max row.lastSeen (some event.timestamp.sortableTime) := by
  unfold markSeen
  cases hseen : row.lastSeen with
  | none => rfl
  | some seen =>
    rw [Option.all_some]
    split
    · rename_i hlt
      exact congrArg some (max_eq_right (of_decide_eq_true hlt).le).symm
    · rename_i hnot
      exact hseen.trans (congrArg some (max_eq_left (not_lt.mp fun hlt => hnot (decide_eq_true hlt))).symm)

/-- The person of the event's distinct id is seen. -/
theorem Dated.markSeen {ν U : Type} {p : String} {event : CapturedEvent ν U} (h : Dated created seen projectId s)
    (hp : s.personOf projectId event.distinctId = some p) (hseen : ∀ d t, seen d t → t.FourDigit) (hevent : event.timestamp.FourDigit) :
    Dated created (fun d t => seen d t ∨ d = event.distinctId ∧ event.timestamp = t) projectId (s.setPerson projectId p (Projections.markSeen event)) := by
  refine ⟨h.rooted, h.known, fun d t ht => ?_, fun q row' hrow' => ?_⟩
  · rcases ht with ht | ⟨rfl, -⟩
    · exact h.owned d t ht
    · rw [Tables.personOf_setPerson, hp]
      exact Option.some_ne_none p
  rw [Tables.person_setPerson] at hrow'
  obtain ⟨row, hrow, rfl⟩ := Option.map_eq_some_iff.mp hrow'
  obtain ⟨hearliest, hlatest⟩ := h.rows q row hrow
  by_cases hq : q = p
  · subst hq
    have hgathered : Forest.gathered (s.personOf projectId) (fun d t => seen d t ∨ d = event.distinctId ∧ event.timestamp = t) q =
        Forest.gathered (s.personOf projectId) seen q ∪ {event.timestamp} := by
      ext t
      constructor
      · rintro ⟨d, hd, ht | ⟨-, rfl⟩⟩
        · exact .inl ⟨d, hd, ht⟩
        · exact .inr rfl
      · rintro (⟨d, hd, ht⟩ | rfl)
        · exact ⟨d, hd, .inl ht⟩
        · exact ⟨_, hp, .inr ⟨rfl, rfl⟩⟩
    rw [if_pos rfl]
    obtain ⟨-, -, hkey, hcreated⟩ := markSeen_keeps event row
    refine ⟨by rwa [hcreated, hkey], ?_⟩
    rw [Tables.personOf_setPerson, hgathered, lastSeen_markSeen]
    refine hlatest.max ⟨_, rfl, rfl, fun t ht => ?_⟩ (fun t ⟨d, _, ht⟩ => hseen d t ht) fun t ht => ht ▸ hevent
    rw [Set.mem_singleton_iff.mp ht]
  · rw [if_neg (by simp [hq])]
    refine ⟨hearliest, ?_⟩
    have hgathered : Forest.gathered (s.personOf projectId) (fun d t => seen d t ∨ d = event.distinctId ∧ event.timestamp = t) q =
        Forest.gathered (s.personOf projectId) seen q := by
      ext t
      refine exists_congr fun d => and_congr_right fun hd => or_iff_left ?_
      rintro ⟨rfl, -⟩
      exact hq (Option.some.inj (hd.symm.trans hp))
    rw [Tables.personOf_setPerson, hgathered]
    exact hlatest

/-- The survivor of a merge has the earlier date of the two, its key, and the later sight. -/
theorem Dated.joined {ν U : Type} {K : Crates ν U} {w l : String} {winner loser : PersonRow} (h : Dated created seen projectId s)
    (hj : Joins K projectId w l winner loser s s') (hne : w ≠ l) (hcreated : ∀ d t, created d t → t.FourDigit)
    (hseen : ∀ d t, seen d t → t.FourDigit) : Dated created seen projectId s' := by
  obtain ⟨winnerProperties, loserProperties, -, -, rfl⟩ := hj.tables
  obtain ⟨⟨t, hleast, htext, hkey, hfirst⟩, hlatest⟩ := h.rows w winner hj.hwinner
  obtain ⟨⟨u, hleast', htext', hkey', hfirst'⟩, hlatest'⟩ := h.rows l loser hj.hloser
  have hids : (s.joined projectId w l (mergedRow K winner loser winnerProperties loserProperties)).personOf projectId =
      Forest.unite (s.personOf projectId) w l := (personOf_joined hne _ projectId).trans (if_pos rfl)
  have hknown : ∀ d, s.personOf projectId d ≠ none ↔ Forest.unite (s.personOf projectId) w l d ≠ none := by
    intro d
    unfold Forest.unite
    split
    · rename_i hd
      simp [hd]
    · rfl
  refine ⟨?_, fun d hd => ?_, fun d t ht => ?_, fun p row' hrow' => ?_⟩
  · rw [hids]
    exact h.rooted.unite hne (h.rooted _ _ hkey)
  · rw [hids, ← hknown] at hd
    exact h.known d hd
  · rw [hids, ← hknown]
    exact h.owned d t ht
  rw [hids]
  rw [person_joined] at hrow'
  split at hrow'
  · cases hrow'
  rename_i hpl
  have hl : p ≠ l := fun heq => hpl ⟨rfl, heq⟩
  obtain ⟨row, hrow, rfl⟩ := Option.map_eq_some_iff.mp hrow'
  by_cases hw : p = w
  · subst hw
    rw [if_pos rfl]
    have hwinnerKey : Forest.unite (s.personOf projectId) p l winner.firstSeenKey = some p := by
      rw [Forest.unite, if_neg (by simpa [hkey] using hl), hkey]
    have hloserKey : Forest.unite (s.personOf projectId) p l loser.firstSeenKey = some p := by
      rw [Forest.unite, if_pos hkey']
    constructor
    · rw [Forest.gathered_unite_winner]
      by_cases hlt : loser.createdAt < winner.createdAt
      · refine ⟨u, ?_, ?_, ?_⟩
        · rw [htext, htext', toRfc3339_lt (hcreated _ u hfirst') (hcreated _ t hfirst)] at hlt
          exact min_eq_right hlt.le ▸ hleast.union hleast'
        · exact (if_pos hlt).trans htext'
        · simp only [mergedRow, if_pos hlt]
          exact ⟨hloserKey, hfirst'⟩
      · refine ⟨t, ?_, ?_, ?_⟩
        · rw [htext, htext', toRfc3339_lt (hcreated _ u hfirst') (hcreated _ t hfirst), not_lt] at hlt
          exact min_eq_left hlt ▸ hleast.union hleast'
        · exact (if_neg hlt).trans htext
        · simp only [mergedRow, if_neg hlt]
          exact ⟨hwinnerKey, hfirst⟩
    · rw [Forest.gathered_unite_winner, mergedRow]
      have hdated : ∀ q, ∀ t ∈ Forest.gathered (s.personOf projectId) seen q, t.FourDigit := by
        rintro q t ⟨d, -, ht⟩
        exact hseen d t ht
      exact hlatest.max hlatest' (hdated p) (hdated l)
  · rw [if_neg (by simp [hw])]
    obtain ⟨⟨v, hleast, htext, hkey, hfirst⟩, hlatest⟩ := h.rows p row hrow
    constructor
    · refine ⟨v, by rwa [Forest.gathered_unite hw hl], htext, ?_, hfirst⟩
      rw [Forest.unite, if_neg (by simpa [hkey] using hl), hkey]
    · rwa [Forest.gathered_unite hw hl]

end rows

/-! The steps of one event. -/
section events
variable {ν U : Type} {K : Crates ν U} {created seen : String → DateTime → Prop} {projectId : String} {event : CapturedEvent ν U} {s s' : Tables}

theorem Ensured.elsewhere {d p pr : String} (h : Ensured projectId d event s p s') (hpr : pr ≠ projectId) : Undated pr s s' := by
  cases h with
  | known _ => exact .refl s
  | created _ hids hrows =>
    refine .of_eq ((hids pr).trans (if_neg hpr)) (funext fun q => ?_)
    rw [hrows, if_neg (by simp [hpr])]

theorem Undated.elsewhere (s : Tables) {pr : String} (hpr : pr ≠ projectId) (p : String) (f : PersonRow → PersonRow) :
    Undated pr s (s.setPerson projectId p f) := by
  refine .of_eq rfl (funext fun q => ?_)
  rw [Tables.person_setPerson]
  simp [hpr]

theorem Joins.elsewhere {w l pr : String} {winner loser : PersonRow} (h : Joins K projectId w l winner loser s s') (hne : w ≠ l)
    (hpr : pr ≠ projectId) : Undated pr s s' := by
  obtain ⟨winnerProperties, loserProperties, -, -, rfl⟩ := h.tables
  refine .of_eq ((personOf_joined hne _ pr).trans (if_neg hpr)) (funext fun q => ?_)
  rw [person_joined, if_neg (fun h => hpr h.1)]
  simp [hpr]

theorem Merges.elsewhere {losing winning pr : String} {guard : MergeGuard} (h : Merges K projectId losing winning event guard s s')
    (hpr : pr ≠ projectId) : Undated pr s s' := by
  cases h with
  | same hw hl => exact (hw.elsewhere hpr).trans (hl.elsewhere hpr)
  | refused hw hl _ => exact (hw.elsewhere hpr).trans (hl.elsewhere hpr)
  | joined hw hl hne _ hjoins => exact ((hw.elsewhere hpr).trans (hl.elsewhere hpr)).trans (hjoins.elsewhere hne hpr)

theorem Joins.known {w l d : String} {winner loser : PersonRow} (h : Joins K projectId w l winner loser s s') (hne : w ≠ l)
    (hd : s.personOf projectId d ≠ none) : s'.personOf projectId d ≠ none := by
  obtain ⟨winnerProperties, loserProperties, -, -, rfl⟩ := h.tables
  rw [personOf_joined hne, if_pos rfl, Forest.unite]
  split
  · exact Option.some_ne_none w
  · exact hd

/-- Both ids are known after a merge. -/
theorem Merges.known {losing winning : String} {guard : MergeGuard} (h : Merges K projectId losing winning event guard s s') :
    s'.personOf projectId winning ≠ none ∧ s'.personOf projectId losing ≠ none := by
  have hensured : ∀ {w l s₁ s₂}, Ensured projectId winning event s w s₁ → Ensured projectId losing event s₁ l s₂ →
      s₂.personOf projectId winning ≠ none ∧ s₂.personOf projectId losing ≠ none := by
    intro w l s₁ s₂ hw hl
    rw [hl.keeps hw.points, hl.points]
    exact ⟨Option.some_ne_none w, Option.some_ne_none l⟩
  cases h with
  | same hw hl => exact hensured hw hl
  | refused hw hl _ => exact hensured hw hl
  | joined hw hl hne _ hjoins =>
    obtain ⟨hwinning, hlosing⟩ := hensured hw hl
    exact ⟨hjoins.known hne hwinning, hjoins.known hne hlosing⟩

theorem Dated.merged {losing winning : String} {guard : MergeGuard} (h : Dated created seen projectId s)
    (hm : Merges K projectId losing winning event guard s s')
    (hnew : ∀ d, d = winning ∨ d = losing → s.personOf projectId d = none → ∀ t, created d t ↔ event.timestamp = t)
    (hcreated : ∀ d t, created d t → t.FourDigit) (hseen : ∀ d t, seen d t → t.FourDigit) : Dated created seen projectId s' := by
  have hensured : ∀ {w l s₁ s₂}, Ensured projectId winning event s w s₁ → Ensured projectId losing event s₁ l s₂ →
      Dated created seen projectId s₂ := by
    intro w l s₁ s₂ hw hl
    refine (h.ensured hw (hnew winning (.inl rfl))).ensured hl fun hnone => hnew losing (.inr rfl) ?_
    refine Option.eq_none_iff_forall_ne_some.mpr fun q hq => ?_
    rw [hw.keeps hq] at hnone
    cases hnone
  cases hm with
  | same hw hl => exact hensured hw hl
  | refused hw hl _ => exact hensured hw hl
  | joined hw hl hne _ hjoins => exact (hensured hw hl).joined hjoins hne hcreated hseen

/-- What the event's link does. -/
def LinkedBy (K : Crates ν U) (projectId : String) (event : CapturedEvent ν U) (s s' : Tables) : Prop :=
  match linkOf event with
  | some (other, guard) => Merges K projectId other event.distinctId event guard s s'
  | none => s' = s

private theorem markIdentified_undated (d : String) :
    Ends (markIdentified projectId d) s (fun _ s' => ∀ pr, Undated pr s s') fun _ _ => True := by
  refine .bind (.get ?_)
  cases s.personOf projectId d with
  | none => exact .pure fun _ => .refl s
  | some p => exact .modify fun _ => .setPerson s projectId p fun _ => ⟨rfl, rfl, rfl⟩

private theorem applyGroup_undated (event : CapturedEvent ν U) :
    Ends (applyGroup K projectId event) s (fun _ s' => ∀ pr, Undated pr s s') fun _ _ => True := by
  unfold applyGroup
  split
  · refine .bind (.get ?_)
    split
    · refine .bind ((decoded_found _).mono ?_ fun _ _ h => h)
      rintro properties _ ⟨-, rfl⟩
      exact .modify fun _ => .of_eq rfl rfl
    · exact .bind (.pure (.modify fun _ => .of_eq rfl rfl))
  · exact .pure fun _ => .refl s

private theorem applyPersonProperties_undated {d : String} (hd : s.personOf projectId d ≠ none) (event : CapturedEvent ν U) :
    Ends (applyPersonProperties K projectId d event) s (fun _ s' => ∀ pr, Undated pr s s') fun _ _ => True := by
  obtain ⟨p, hp⟩ := Option.ne_none_iff_exists'.mp hd
  have hensure : Ends (ensurePerson projectId d event) s (fun q s' => q = p ∧ s' = s) fun _ _ => True := by
    rw [Ends, ensurePerson_stays hp event]
    exact ⟨rfl, rfl⟩
  unfold applyPersonProperties
  simp only
  split
  · exact .pure fun _ => .refl s
  refine .bind (hensure.mono ?_ fun _ _ h => h)
  rintro _ _ ⟨rfl, rfl⟩
  refine .bind ((personRow_found _).mono ?_ fun _ _ h => h)
  rintro row _ ⟨-, rfl⟩
  refine .bind ((decoded_found _).mono ?_ fun _ _ h => h)
  rintro properties _ ⟨-, rfl⟩
  exact .modify fun _ => .setPerson _ _ _ fun _ => ⟨rfl, rfl, rfl⟩

private theorem mergeLinked_steps (hs : s.Resolved) (event : CapturedEvent ν U) :
    Ends (mergeLinked K projectId event) s (fun _ s' => LinkedBy K projectId event s s') fun _ _ => True := by
  unfold mergeLinked LinkedBy
  cases linkOf event with
  | none => exact .pure rfl
  | some link => exact mergePersons_merges hs link.1 event.distinctId event link.2

private theorem applyLink_steps (hs : s.Resolved) (event : CapturedEvent ν U) : Ends (applyLink K projectId event) s
    (fun _ s' => ∃ s₁, LinkedBy K projectId event s s₁ ∧ ∀ pr, Undated pr s₁ s') fun _ _ => True := by
  rw [applyLink_eq]
  refine .bind ((mergeLinked_steps hs event).mono (fun _ s₁ hlink => ?_) fun _ _ h => h)
  split
  · exact (markIdentified_undated event.distinctId).mono (fun _ s' hu => ⟨s₁, hlink, hu⟩) fun _ _ h => h
  split
  · exact (applyGroup_undated event).mono (fun _ s' hu => ⟨s₁, hlink, hu⟩) fun _ _ h => h
  · exact .pure ⟨s₁, hlink, fun _ => .refl s₁⟩

/-- An event ensures the person of its distinct id, marks it seen, links it, and leaves all dates from there on. -/
theorem event_steps (hs : s.Resolved) (event : CapturedEvent ν U) : Ends (applyIdentityEffects K projectId event) s (fun _ s' => ∃ p s₁ s₂,
    Ensured projectId event.distinctId event s p s₁ ∧ LinkedBy K projectId event (s₁.setPerson projectId p (markSeen event)) s₂ ∧
      ∀ pr, Undated pr s₂ s') fun _ _ => True := by
  unfold applyIdentityEffects
  split
  · exact .throw trivial
  refine .bind ((ensurePerson_ends hs event.distinctId event).mono (fun p s₁ ⟨hs₁, hp⟩ => ?_) fun _ _ h => h)
  have hchange : Change projectId true s₁ (s₁.setPerson projectId p (markSeen event)) :=
    .touched p _ fun r hr => (markSeen_keeps event r).2.1.trans hr
  refine .bind (.modify (.bind ((applyLink_steps (hchange.resolved hs₁) event).mono (fun _ s₃ ⟨s₂, hlink, hu⟩ => ?_) fun _ _ h => h)))
  have hknown : s₃.personOf projectId event.distinctId ≠ none := by
    rw [(hu projectId).ids]
    unfold LinkedBy at hlink
    split at hlink
    · exact hlink.known.1
    · rw [hlink, Tables.personOf_setPerson, hp.points]
      exact Option.some_ne_none p
  exact (applyPersonProperties_undated hknown event).mono
    (fun _ s' hu' => ⟨p, s₁, s₂, hp, hlink, fun pr => (hu pr).trans (hu' pr)⟩) fun _ _ h => h

end events
end Hoglet.Projections
