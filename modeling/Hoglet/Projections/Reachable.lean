import Hoglet.Projections.Applied

/-! The identity tables over whole runs of events and erasures: a forest of distinct ids whose roots are
the people. -/
namespace Hoglet.Projections
open Capture

inductive Act (ν U : Type) where
  | event (projectId : String) (event : CapturedEvent ν U)
  | erase (projectId personId : String)

/-- A committed transaction: one event's identity effects, or the erasure of one person. -/
def Step {ν U : Type} (K : Crates ν U) (a : Act ν U) (s s' : Tables) : Prop :=
  match a with
  | .event projectId event => applyIdentityEffects K projectId event s = .ok () s'
  | .erase projectId personId => ∃ distinctIds, erasePerson projectId personId s = .ok distinctIds s'

/-- The step does not erase the person that the distinct id then resolves to. -/
def Act.Spares {ν U : Type} (projectId distinctId : String) (a : Act ν U) (s : Tables) : Prop :=
  ∀ p, a = .erase projectId p → s.personOf projectId distinctId ≠ some p

section steps
variable {ν U : Type} {K : Crates ν U} {s s' : Tables}

theorem event_changes {projectId : String} {event : CapturedEvent ν U} {dangerous : Bool}
    (hd : dangerous = false → event.event ≠ "$merge_dangerously") (hs : s.Resolved)
    (h : applyIdentityEffects K projectId event s = .ok () s') : Changes projectId dangerous s s' :=
  ((applyIdentityEffects_applies event hd hs).ok h).1

theorem event_runs {projectId : String} {event : CapturedEvent ν U} (hs : s.Resolved)
    (h : applyIdentityEffects K projectId event s = .ok () s') : Changes projectId true s s' :=
  ((event_applies event hs).ok h).1

theorem erasePerson_ok (projectId p : String) (s : Tables) :
    ∃ distinctIds s', erasePerson projectId p s = .ok distinctIds s' ∧
      (∀ pr, s'.personOf pr = if pr = projectId then Forest.remove (s.personOf projectId) p else s.personOf pr) ∧
      ∀ pr q, s'.person pr q = if pr = projectId ∧ q = p then none else s.person pr q := by
  refine ⟨_, _, rfl, fun pr => ?_, fun pr q => ?_⟩
  · funext d
    change (((_ : Tables).unmap projectId p).deletePerson projectId p).personOf pr d = _
    rw [Tables.personOf_deletePerson, Tables.personOf_unmap, Tables.personOf_unmap]
    change (if pr = projectId ∧ (if pr = projectId ∧ s.personOf pr d = some p then none else s.personOf pr d) = some p then
      none else if pr = projectId ∧ s.personOf pr d = some p then none else s.personOf pr d) = _
    by_cases hpr : pr = projectId
    · by_cases hd : s.personOf projectId d = some p <;> simp [hpr, hd, Forest.remove]
    · simp [hpr]
  · change (((_ : Tables).unmap projectId p).deletePerson projectId p).person pr q = _
    rw [Tables.person_deletePerson, Tables.person_unmap]
    rfl

private theorem erase_resolved {projectId p : String} {distinctIds : List String} (hs : s.Resolved)
    (h : erasePerson projectId p s = .ok distinctIds s') : s'.Resolved := by
  obtain ⟨ids, s₁, herase, hids, hpeople⟩ := erasePerson_ok projectId p s
  rw [herase] at h
  cases h
  refine ⟨fun pr => ?_, fun pr q => ?_⟩
  · rw [hids]
    split
    · exact (hs.rooted projectId).remove p
    · exact hs.rooted pr
  · rw [hids, hpeople]
    by_cases hpr : pr = projectId
    · subst hpr
      have hq := hs.person pr q
      by_cases hqp : q = p
      · simp [hqp, Forest.remove]
      · by_cases hd : s.personOf pr q = some p
        · have hne : p ≠ q := Ne.symm hqp
          simpa [hqp, Forest.remove, hd, hne] using hq
        · simpa [hqp, Forest.remove, hd] using hq
    · simpa [hpr] using hs.person pr q

theorem step_resolved {a : Act ν U} (hs : s.Resolved) (h : Step K a s s') : s'.Resolved := by
  cases a with
  | event projectId event => exact (event_runs hs h).resolved hs
  | erase projectId p =>
    obtain ⟨distinctIds, herase⟩ := h
    exact erase_resolved hs herase

theorem reached_resolved {ok : Act ν U → Tables → Prop} (h : System.Reached .empty (Step K) ok s) : s.Resolved :=
  h.invariant resolved_empty fun _ _ _ hs _ => step_resolved hs

/-- A step that spares the distinct id's person keeps the distinct id. -/
private theorem step_known {a : Act ν U} {projectId d : String} (hs : s.Resolved) (hok : a.Spares projectId d s)
    (h : Step K a s s') (hd : s.personOf projectId d ≠ none) : s'.personOf projectId d ≠ none := by
  cases a with
  | event pr event =>
    exact Forest.known_run ((event_runs hs h).grows hs projectId).1 hd
  | erase pr p =>
    obtain ⟨distinctIds, herase⟩ := h
    obtain ⟨ids, s₁, herase', hids, -⟩ := erasePerson_ok pr p s
    rw [herase'] at herase
    cases herase
    rw [hids]
    split
    · rename_i hpr
      subst hpr
      rw [Forest.remove_other (hok p rfl)]
      exact hd
    · exact hd

end steps

/-- In every reachable state distinct ids point to people, people are their own root, no statement of an
event fails, an event makes its distinct id known and otherwise only creates singleton classes and unites
two classes, an erasure removes one class, and a known id stays with some person until that person is
erased. -/
theorem identity_forest {ν U : Type} {K : Crates ν U} {s : Tables} (h : System.Reached .empty (Step K) System.anyStep s) :
    (∀ projectId d p, s.personOf projectId d = some p → (s.person projectId p).isSome ∧ s.personOf projectId p = some p) ∧
    (∀ projectId p, (s.person projectId p).isSome → s.personOf projectId p = some p) ∧
    (∀ projectId event e s', applyIdentityEffects K projectId event s = .error e s' → e ≠ .database) ∧
    (∀ projectId event s', applyIdentityEffects K projectId event s = .ok () s' →
      s'.personOf projectId event.distinctId ≠ none ∧ ∀ pr,
        Relation.ReflTransGen Forest.Grows (s.personOf pr) (s'.personOf pr) ∧
          (pr ≠ projectId → s'.personOf pr = s.personOf pr)) ∧
    (∀ projectId p, ∃ distinctIds s', erasePerson projectId p s = .ok distinctIds s' ∧ ∀ pr,
      s'.personOf pr = if pr = projectId then Forest.remove (s.personOf projectId) p else s.personOf pr) ∧
    ∀ projectId d s', s.personOf projectId d ≠ none → System.Reached s (Step K) (Act.Spares projectId d) s' →
      ∃ p, s'.personOf projectId d = some p ∧ (s'.person projectId p).isSome := by
  have hs := reached_resolved h
  refine ⟨fun pr d p hp => ?_, fun pr p => (hs.person pr p).mp, fun pr event e s' => ?_, fun pr event s' hev => ?_,
    fun pr p => ?_, fun pr d s' hd hrun => ?_⟩
  · have hroot := hs.rooted pr d p hp
    exact ⟨(hs.person pr p).mpr hroot, hroot⟩
  · exact (event_applies event hs).error
  · exact ⟨((event_applies event hs).ok hev).2,
      (event_runs hs hev).grows hs⟩
  · obtain ⟨distinctIds, s', herase, hids, -⟩ := erasePerson_ok pr p s
    exact ⟨distinctIds, s', herase, hids⟩
  · have hinv : s'.Resolved ∧ s'.personOf pr d ≠ none := hrun.invariant (P := fun t => t.Resolved ∧ t.personOf pr d ≠ none)
      ⟨hs, hd⟩ fun a t t' ⟨ht, hk⟩ hok hstep => ⟨step_resolved ht hstep, step_known ht hok hstep hk⟩
    obtain ⟨p, hp⟩ := Option.ne_none_iff_exists'.mp hinv.2
    exact ⟨p, hp, (hinv.1.person pr p).mpr (hinv.1.rooted pr d p hp)⟩

/-- A first event that links an anonymous id to a user. -/
def linkEvent : CapturedEvent Int Small.Uuid :=
  ⟨Small.nilUuid, "$identify", "u", "phc_t", Small.noon, .ofWritten [("$anon_distinct_id", .string "a")]⟩

def linkedTables : Tables :=
  match applyIdentityEffects Crates.small "p" linkEvent .empty with
  | .ok _ s => s
  | .error _ s => s

theorem linkEvent_applied : applyIdentityEffects Crates.small "p" linkEvent .empty = .ok () linkedTables := by
  have h : (match applyIdentityEffects Crates.small "p" linkEvent .empty with
    | .ok _ _ => true
    | .error _ _ => false) = true := by decide +kernel
  unfold linkedTables
  split at h
  · rename_i s hs
    rw [hs]
  · cases h

theorem linkedTables_person : linkedTables.personOf "p" "a" = some "u" := by decide +kernel

/-- The linked id stays with an existing person while nobody is erased. -/
theorem linked_id_stays : (linkedTables.person "p" "u").isSome ∧
    ∀ s', System.Reached linkedTables (Step Crates.small) (Act.Spares "p" "a") s' →
      ∃ p, s'.personOf "p" "a" = some p ∧ (s'.person "p" p).isSome := by
  have hstep : Step Crates.small (.event "p" linkEvent) .empty linkedTables := linkEvent_applied
  obtain ⟨hpoints, _, _, _, _, hstays⟩ := identity_forest (.step .start trivial hstep)
  exact ⟨(hpoints "p" "a" "u" linkedTables_person).1, fun s' => hstays "p" "a" s' (by simp [linkedTables_person])⟩

end Hoglet.Projections
