import Hoglet.Feed
import Hoglet.Projections.Reachable

/-! The distinct ids as a feed of identity overrides: merges stamp the rows they repoint, erasures move the
epoch. -/
namespace Hoglet.Projections
open Capture

/-- The feed's rows, keyed by project and distinct id. -/
def Tables.source (s : Tables) : Feed.Source (String × String) String :=
  ⟨fun k => (s.distinctIds.get k).map fun r => (r.seq, r.personId), s.identityState.seq, s.identityState.epoch⟩

/-- Only an id that points to another person is an override. -/
def overrideOf (k : String × String) (personId : String) : Option String := if personId = k.2 then none else some personId

section feed
variable {projectId : String} {dangerous : Bool} {s s' : Tables}

private theorem source_created {d : String} {persons : Table (String × String) PersonRow}
    {distinctIds : Table (String × String) DistinctIdRow} (hd : s.distinctIds.insert (projectId, d) ⟨d, 0⟩ = some distinctIds)
    (k : String × String) : ({ s with persons, distinctIds } : Tables).source.row k =
      if k = (projectId, d) then some (0, d) else s.source.row k := by
  simp only [Tables.source, Table.get_insert hd]
  split <;> rfl

private theorem source_united (w l : String) (n : Nat) (hne : w ≠ l) (f : PersonRow → PersonRow) (k : String × String) :
    (((s.bumpSeq.repoint projectId w l n).setPerson projectId w f).deletePerson projectId l).source.row k =
      (s.source.row k).map fun r => if k.1 = projectId ∧ r.2 = l then (n, w) else r := by
  change Option.map _ (((s.distinctIds.update fun k r => if k.1 = projectId ∧ r.personId = l then ⟨w, n⟩ else r).delete
    fun k r => k.1 = projectId && r.personId = l).get k) = _
  rw [Table.get_delete, Table.get_update]
  simp only [Tables.source]
  cases s.distinctIds.get k with
  | none => rfl
  | some r =>
    by_cases h : k.1 = projectId ∧ r.personId = l
    · simp [h, hne]
    · rw [Option.map_some, if_neg h, Option.filter_some_pos (by simpa using not_and_or.mp h)]
      simp only [Option.map_some, if_neg h]

theorem Change.advances (h : Change projectId dangerous s s') : s.source.Advances s'.source := by
  cases h with
  | @created d row _ persons distinctIds hp hd =>
    have hnew : s.source.row (projectId, d) = none := by simp [Tables.source, (Table.insert_eq_some hd).1]
    refine ⟨le_refl _, le_refl _, fun k n r hk _ => ?_, fun _ k n r hk => .inl ?_⟩
    · rw [source_created hd] at hk
      split at hk
      · cases hk
        exact .inl rfl
      · exact .inr hk
    · rw [source_created hd, if_neg (by rintro rfl; rw [hnew] at hk; cases hk), hk]
  | touched => exact .refl _
  | united w l hne hw lost hl hguard f hf =>
    refine ⟨le_refl _, Nat.le_succ _, fun k n r hk hn => .inr ?_, fun _ k n r hk => ?_⟩
    · rw [source_united w l _ hne f] at hk
      obtain ⟨row, hrow, hr⟩ := Option.map_eq_some_iff.mp hk
      split at hr
      · cases hr
        exact absurd hn (Nat.not_succ_le_self _)
      · rw [hrow, hr]
    · rw [source_united w l _ hne f, hk, Option.map_some]
      split
      · exact .inr ⟨_, _, rfl, Nat.lt_succ_self _⟩
      · exact .inl rfl
  | grouped => exact .refl _

theorem Change.stamped (h : Change projectId dangerous s s') (hs : s.source.Stamped overrideOf) :
    s'.source.Stamped overrideOf := by
  cases h with
  | @created d row _ persons distinctIds hp hd =>
    refine ⟨fun k n r hk => ?_, fun k r hk => ?_⟩ <;> rw [source_created hd] at hk <;> split at hk
    · cases hk
      exact Nat.zero_le _
    · exact hs.le k n r hk
    · rename_i heq
      cases hk
      simp [overrideOf, heq]
    · exact hs.unstamped k r hk
  | touched => exact hs
  | united w l hne hw lost hl hguard f hf =>
    refine ⟨fun k n r hk => ?_, fun k r hk => ?_⟩ <;> rw [source_united w l _ hne f] at hk <;>
      obtain ⟨⟨n₀, r₀⟩, hrow, hr⟩ := Option.map_eq_some_iff.mp hk <;> split at hr <;> cases hr
    · exact le_refl _
    · exact (hs.le k n r hrow).trans (Nat.le_succ _)
    · exact hs.unstamped k r hrow
  | grouped => exact hs

theorem Changes.advances (h : Changes projectId dangerous s s') : s.source.Advances s'.source := by
  induction h with
  | refl => exact .refl _
  | tail _ hc ih => exact ih.trans hc.advances

theorem Changes.stamped (h : Changes projectId dangerous s s') (hs : s.source.Stamped overrideOf) :
    s'.source.Stamped overrideOf := by
  induction h with
  | refl => exact hs
  | tail _ hc ih => exact hc.stamped ih

end feed

section steps
variable {ν U : Type} {K : Crates ν U} {a : Act ν U} {s s' : Tables}

/-- An erasure only takes rows away. -/
private theorem erased_row {projectId p : String} {distinctIds : List String} {k : String × String} {r : Nat × String}
    (h : erasePerson projectId p s = .ok distinctIds s') (hk : s'.source.row k = some r) : s.source.row k = some r := by
  cases h
  obtain ⟨row, hrow, hr⟩ := Option.map_eq_some_iff.mp hk
  have hget := (Table.get_delete_eq_some.mp (Table.get_delete_eq_some.mp hrow).1).1
  simp [Tables.source, hget, hr]

theorem step_advances (hs : s.Resolved) (h : Step K a s s') : s.source.Advances s'.source := by
  cases a with
  | event projectId event => exact (event_runs hs h).advances
  | erase projectId p =>
    obtain ⟨distinctIds, herase⟩ := h
    have hrow := fun k r => erased_row (k := k) (r := r) herase
    cases herase
    exact ⟨Nat.le_succ _, Nat.le_succ _, fun k n r hk _ => .inr (hrow k (n, r) hk), fun heq => absurd heq (Nat.succ_ne_self _)⟩

theorem step_stamped (hs : s.Resolved) (hst : s.source.Stamped overrideOf) (h : Step K a s s') :
    s'.source.Stamped overrideOf := by
  cases a with
  | event projectId event => exact (event_runs hs h).stamped hst
  | erase projectId p =>
    obtain ⟨distinctIds, herase⟩ := h
    have hrow := fun k r => erased_row (k := k) (r := r) herase
    cases herase
    exact ⟨fun k n r hk => (hst.le k n r (hrow k (n, r) hk)).trans (Nat.le_succ _), fun k r hk =>
      hst.unstamped k r (hrow k (0, r) hk)⟩

/-- Tables that a run of transactions can leave: resolved, with their overrides stamped. -/
structure Tables.Sound (s : Tables) : Prop where
  resolved : s.Resolved
  stamped : s.source.Stamped overrideOf

theorem sound_empty : Tables.empty.Sound := ⟨resolved_empty, fun _ _ _ h => (by cases h), fun _ _ h => (by cases h)⟩

/-- One transaction: any number of steps that become visible together. -/
def Commits {ν U : Type} (K : Crates ν U) : Tables → Tables → Prop := Relation.ReflTransGen fun s s' => ∃ a, Step K a s s'

theorem Commits.sound (h : Commits K s s') (hs : s.Sound) : s'.Sound ∧ s.source.Advances s'.source := by
  induction h with
  | refl => exact ⟨hs, .refl _⟩
  | tail _ hstep ih =>
    obtain ⟨a, hstep⟩ := hstep
    exact ⟨⟨step_resolved ih.1.resolved hstep, step_stamped ih.1.resolved ih.1.stamped hstep⟩,
      ih.2.trans (step_advances ih.1.resolved hstep)⟩

end steps
end Hoglet.Projections
