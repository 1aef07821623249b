import Hoglet.Projections.Linked

/-! Capture rewrites the distinct id it is sent, and a link names the id as it was sent. -/
namespace Hoglet.Projections
open Json Capture

section sent
variable {ν U : Type} {K : Crates ν U} {projectId : String} {s s' : Tables}

/-- What is stored for a value that is sent as a distinct id. -/
def storedId (K : Crates ν U) : Value ν → Except CaptureError String
  | .null => .error (.malformed "null distinct_id")
  | .string s => finish s.toList
  | other => finish (print K.numbers other)
where
  finish (s : List Char) : Except CaptureError String :=
    let s := s.map fun c => if c = '\x00' then '\uFFFD' else c
    if s.all isTrimmed then .error (.malformed "empty distinct_id")
    else .ok (String.ofList (s.take maxDistinctIdChars))

theorem resolveDistinctId_eq (obj properties : Map ν) : resolveDistinctId K obj properties =
    match (obj.get "distinct_id").or <| (obj.get "$distinct_id").or <| properties.get "distinct_id" with
    | none => .error (.malformed "missing distinct_id")
    | some raw => storedId K raw := by
  rw [resolveDistinctId]
  cases (obj.get "distinct_id").or <| (obj.get "$distinct_id").or <| properties.get "distinct_id" with
  | none => rfl
  | some raw => cases raw <;> rfl

private theorem finish_ne {cs : List Char} {d : String} (h : storedId.finish cs = .ok d) : d ≠ "" := by
  rintro rfl
  unfold storedId.finish at h
  cases cs with
  | nil => cases h
  | cons c cs =>
    simp only at h
    split at h
    · cases h
    · simp [maxDistinctIdChars] at h

/-- A text is stored as it is when it is short enough and holds no NUL. -/
theorem finish_same {text d : String} (h : storedId.finish text.toList = .ok d) :
    text = d ↔ '\x00' ∉ text.toList ∧ text.toList.length ≤ maxDistinctIdChars := by
  have hd : d = String.ofList ((text.toList.map fun c => if c = '\x00' then '\uFFFD' else c).take maxDistinctIdChars) := by
    unfold storedId.finish at h
    simp only at h
    split at h
    · cases h
    · exact (Except.ok.inj h).symm
  constructor
  · rintro rfl
    have hcs := congrArg String.toList hd
    rw [String.toList_ofList] at hcs
    refine ⟨fun hnul => ?_, ?_⟩
    · rw [hcs] at hnul
      obtain ⟨c, _, hc⟩ := List.mem_map.mp (List.mem_of_mem_take hnul)
      split at hc
      · cases hc
      · rename_i hne
        exact hne hc
    · rw [hcs, List.length_take]
      exact min_le_left _ _
  · rintro ⟨hnul, hlength⟩
    have hsame : (text.toList.map fun c => if c = '\x00' then '\uFFFD' else c) = text.toList := by
      conv_rhs => rw [← List.map_id text.toList]
      refine List.map_congr_left fun c hc => if_neg ?_
      rintro rfl
      exact hnul hc
    rw [hd, hsame, List.take_of_length_le hlength, String.ofList_toList]

private theorem asStr_eq_some {v : Value ν} {text : String} : v.asStr = some text ↔ v = .string text := by
  cases v <;> simp [Value.asStr]

/-- After a link to the value that events were sent with, the id stored for it belongs to the linking
event's person exactly when the value is a text that is stored as it is, or the event's own id is that id. -/
theorem link_reaches_stored_id (h : System.Reached .empty (Step K) (Act.Logged K) s) {raw : Value ν} {d : String}
    (hd : storedId K raw = .ok d)
    (hun : ∀ p row, s.personOf projectId d = some p → s.person projectId p = some row → row.isIdentified = false)
    {event : CapturedEvent ν U} (hlogged : Logged K event)
    (hlink : event.event = "$identify" ∧ event.properties.get "$anon_distinct_id" = some raw ∨
      event.event = "$create_alias" ∧ event.properties.get "alias" = some raw)
    (happlied : applyIdentityEffects K projectId event s = .ok () s') :
    s'.personOf projectId d = s'.personOf projectId event.distinctId ↔
      (∃ text, raw = .string text ∧ '\x00' ∉ text.toList ∧ text.toList.length ≤ maxDistinctIdChars) ∨ event.distinctId = d := by
  have hs := orderly_reached h
  obtain ⟨-, p, s₁, s₂, hensured, hlinked, htouched⟩ := (event_ends hs hlogged.within).ok happlied
  obtain ⟨key, guard, hlinkOf, hvalue⟩ : ∃ key guard, linkOf event = (otherId event key).map (·, guard) ∧
      event.properties.get key = some raw := by
    rcases hlink with ⟨hname, hvalue⟩ | ⟨hname, hvalue⟩
    · exact ⟨_, .refuseIdentifiedSource, by simp [linkOf, hname], hvalue⟩
    · exact ⟨_, .refuseBothIdentified, by simp [linkOf, hname], hvalue⟩
  rw [otherId, hvalue, Option.bind_some] at hlinkOf
  have hsame : (∃ text, raw = .string text ∧ '\x00' ∉ text.toList ∧ text.toList.length ≤ maxDistinctIdChars) ↔ raw = .string d := by
    constructor
    · rintro ⟨text, rfl, htext⟩
      rw [(finish_same hd).mpr htext]
    · rintro rfl
      exact ⟨d, rfl, (finish_same hd).mp rfl⟩
  rw [hsame, htouched.ids]
  constructor
  · intro heq
    by_contra hno
    obtain ⟨hraw, hne⟩ := not_or.mp hno
    have hseen : (s₁.setPerson projectId p (markSeen event)).Alone projectId d := hensured.alone (Ne.symm hne) (hs.alone hun)
    have halone : s₂.Alone projectId d := by
      unfold Linked at hlinked
      split at hlinked
      · rename_i other _ hother
        refine hlinked.alone ?_ (Ne.symm hne) hseen
        rintro rfl
        obtain ⟨text, htext, hpair⟩ := Option.map_eq_some_iff.mp (hlinkOf.symm.trans hother)
        cases hpair
        exact hraw (asStr_eq_some.mp (Option.filter_eq_some_iff.mp htext).1)
      · rw [hlinked]
        exact hseen
    have hknown : s'.personOf projectId event.distinctId ≠ none := ((event_applies event hs.resolved).ok happlied).2
    rw [htouched.ids] at hknown
    obtain ⟨q, hq⟩ := Option.ne_none_iff_exists'.mp hknown
    obtain rfl := halone.1 q (heq.trans hq)
    exact hne (halone.2 _ hq)
  · rintro (rfl | rfl)
    · by_cases hne : event.distinctId = d
      · rw [hne]
      have hfilter : ((Value.string d : Value ν).asStr.filter fun value => decide (value ≠ "" ∧ value ≠ event.distinctId)) = some d :=
        Option.filter_some_pos (by simpa using ⟨finish_ne hd, Ne.symm hne⟩)
      rw [hfilter, Option.map_some] at hlinkOf
      rw [Linked, hlinkOf] at hlinked
      exact hlinked.unites (hensured.unidentified_seen hun)
    · rfl

end sent

theorem logged_small {event : CapturedEvent Int Small.Uuid}
    (h : nesting (CapturedBatch.toValue Crates.small ⟨[event], ⟨[], by simp [Sorted]⟩, false, 0⟩) ≤ recursionBudget) :
    Logged Crates.small event :=
  ⟨_, _, (decodeBatch_encodeBatch Crates.small _).trans (if_pos h), List.mem_singleton_self event⟩

theorem linkEvent_logged : Logged Crates.small linkEvent := logged_small (by decide)

/-- An id without anything to rewrite is linked. -/
theorem plain_id_linked : linkedTables.personOf "p" "a" = linkedTables.personOf "p" "u" := by
  have hun : ∀ p row, Tables.empty.personOf "p" "a" = some p → Tables.empty.person "p" p = some row → row.isIdentified = false :=
    fun _ _ h => by cases h
  have hlink : linkEvent.event = "$identify" ∧ linkEvent.properties.get "$anon_distinct_id" = some (.string "a") := ⟨rfl, rfl⟩
  exact (link_reaches_stored_id .start (show storedId Crates.small (.string "a") = .ok "a" by decide) hun linkEvent_logged (.inl hlink)
    linkEvent_applied).mpr (.inl ⟨"a", rfl, by decide, by decide⟩)

def numberEvent : CapturedEvent Int Small.Uuid := ⟨Small.nilUuid, "$pageview", "5", "phc_t", Small.noon, Map.empty⟩

def numberLink : CapturedEvent Int Small.Uuid :=
  ⟨Small.nilUuid, "$identify", "u", "phc_t", Small.noon, .ofWritten [("$anon_distinct_id", .number 5)]⟩

/-- The tables after an event that goes through. -/
def tablesAfter (event : CapturedEvent Int Small.Uuid) (s : Tables) : Tables :=
  match applyIdentityEffects Crates.small "p" event s with
  | .ok _ s' => s'
  | .error _ s' => s'

theorem tablesAfter_applied {event : CapturedEvent Int Small.Uuid} {s : Tables}
    (h : (match applyIdentityEffects Crates.small "p" event s with
      | .ok _ _ => true
      | .error _ _ => false) = true) : applyIdentityEffects Crates.small "p" event s = .ok () (tablesAfter event s) := by
  unfold tablesAfter
  split at h
  · rename_i hs
    rw [hs]
  · cases h

def numberTables : Tables := tablesAfter numberEvent .empty

/-- The number 5 is stored as the id "5", which the link from 5 misses: the ids stay with two people. -/
theorem number_id_split : storedId Crates.small (.number 5) = .ok "5" ∧
    System.Reached .empty (Step Crates.small) (Act.Logged Crates.small) numberTables ∧
    (∃ row, numberTables.personOf "p" numberEvent.distinctId = some "5" ∧ numberTables.person "p" "5" = some row ∧
      row.isIdentified = false) ∧
    numberLink.event = "$identify" ∧ numberLink.properties.get "$anon_distinct_id" = some (.number 5) ∧
    applyIdentityEffects Crates.small "p" numberLink numberTables = .ok () (tablesAfter numberLink numberTables) ∧
    (tablesAfter numberLink numberTables).personOf "p" "5" = some "5" ∧
    (tablesAfter numberLink numberTables).personOf "p" "u" = some "u" := by
  have hsent : applyIdentityEffects Crates.small "p" numberEvent .empty = .ok () numberTables := tablesAfter_applied (by decide +kernel)
  have hlogged : (Act.event "p" numberEvent).Logged Crates.small .empty := show Logged Crates.small numberEvent from logged_small (by decide)
  refine ⟨by decide, .step .start hlogged hsent, ?_, rfl, rfl, tablesAfter_applied (by decide +kernel), by decide +kernel,
    by decide +kernel⟩
  have hrow : (numberTables.person "p" "5").any (fun row => !row.isIdentified) = true := by decide +kernel
  obtain ⟨row, hrow, hun⟩ := (Option.any_eq_true _ _).mp hrow
  exact ⟨row, by decide +kernel, hrow, by simpa using hun⟩

end Hoglet.Projections
