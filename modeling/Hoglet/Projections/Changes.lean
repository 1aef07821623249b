import Hoglet.Forest
import Hoglet.Projections.Identity
import Hoglet.System

/-! What applying an event can do to the identity tables, one change at a time, and the invariant that
lets every statement go through. -/
namespace Hoglet.Projections
open Json Capture

/-- One change of the tables within a project. Unless the merge is dangerous, the person that goes is not
identified. -/
inductive Change (projectId : String) (dangerous : Bool) (s : Tables) : Tables → Prop
  | created (d : String) (row : PersonRow) (hrow : row.isIdentified = false)
      {persons : Table (String × String) PersonRow} {distinctIds : Table (String × String) DistinctIdRow}
      (hp : s.persons.insert (projectId, d) row = some persons)
      (hd : s.distinctIds.insert (projectId, d) ⟨d, 0⟩ = some distinctIds) :
      Change projectId dangerous s { s with persons, distinctIds }
  | touched (p : String) (f : PersonRow → PersonRow) (hf : ∀ r, r.isIdentified = true → (f r).isIdentified = true) :
      Change projectId dangerous s (s.setPerson projectId p f)
  | united (w l : String) (hne : w ≠ l) (hw : (s.person projectId w).isSome) (lost : PersonRow)
      (hl : s.person projectId l = some lost) (hguard : dangerous = false → lost.isIdentified = false)
      (f : PersonRow → PersonRow) (hf : ∀ r, r.isIdentified = true → (f r).isIdentified = true) :
      Change projectId dangerous s
        (((s.bumpSeq.repoint projectId w l (s.identityState.seq + 1)).setPerson projectId w f).deletePerson projectId l)
  | grouped (groups : Table (String × String × String) GroupRow) : Change projectId dangerous s { s with groups }

/-- Any number of changes. -/
abbrev Changes (projectId : String) (dangerous : Bool) : Tables → Tables → Prop :=
  Relation.ReflTransGen (Change projectId dangerous)

/-- Distinct ids point to roots, and the roots are the people there are. -/
structure Tables.Resolved (s : Tables) : Prop where
  rooted : ∀ projectId, Forest.Rooted (s.personOf projectId)
  person : ∀ projectId p, (s.person projectId p).isSome ↔ s.personOf projectId p = some p

theorem resolved_empty : Tables.empty.Resolved :=
  ⟨fun _ _ _ h => (by cases h), fun _ _ => ⟨fun h => (by cases h), fun h => (by cases h)⟩⟩

section changes
variable {projectId : String} {dangerous : Bool} {s s' : Tables}

theorem personOf_created {d : String} {distinctIds : Table (String × String) DistinctIdRow}
    (hd : s.distinctIds.insert (projectId, d) ⟨d, 0⟩ = some distinctIds) (pr : String)
    (persons : Table (String × String) PersonRow) :
    ({ s with persons, distinctIds } : Tables).personOf pr =
      if pr = projectId then Forest.create (s.personOf projectId) d else s.personOf pr := by
  funext e
  simp only [Tables.personOf, Table.get_insert hd, Prod.mk.injEq]
  by_cases hpr : pr = projectId
  · by_cases he : e = d
    · simp [hpr, he, Forest.create]
    · simp [hpr, he, Forest.create, Tables.personOf]
  · simp [hpr, Tables.personOf]

theorem personOf_united (w l : String) (seq : Nat) (hne : w ≠ l) (f : PersonRow → PersonRow) (pr : String) :
    (((s.bumpSeq.repoint projectId w l seq).setPerson projectId w f).deletePerson projectId l).personOf pr =
      if pr = projectId then Forest.unite (s.personOf projectId) w l else s.personOf pr := by
  funext e
  simp only [Tables.personOf_deletePerson, Tables.personOf_unmap, Tables.personOf_setPerson, Tables.personOf_repoint,
    Tables.personOf_bumpSeq]
  by_cases hpr : pr = projectId
  · by_cases he : s.personOf projectId e = some l
    · simp [hpr, he, Forest.unite, hne]
    · simp [hpr, he, Forest.unite]
  · simp [hpr]

/-- A change creates classes of distinct ids or unites two of them, in its own project only. -/
theorem Change.grows (h : Change projectId dangerous s s') (hs : s.Resolved) (pr : String) :
    s'.personOf pr = s.personOf pr ∨ pr = projectId ∧ Forest.Grows (s.personOf pr) (s'.personOf pr) := by
  cases h with
  | created d row _ hp hd =>
    rw [personOf_created hd]
    split
    · rename_i hpr
      subst hpr
      have hnew : s.personOf pr d = none := by rw [Tables.personOf, (Table.insert_eq_some hd).1, Option.map_none]
      refine .inr ⟨rfl, .created _ d hnew fun e he => ?_⟩
      rw [hs.rooted pr e d he] at hnew
      cases hnew
    · exact .inl rfl
  | touched => exact .inl rfl
  | united w l hne hw lost hl _ f _ =>
    rw [personOf_united w l _ hne f]
    split
    · rename_i hpr
      subst hpr
      exact .inr ⟨rfl, .united _ w l hne ((hs.person pr w).mp hw) ((hs.person pr l).mp (by rw [hl]; rfl))⟩
    · exact .inl rfl
  | grouped => exact .inl rfl

theorem Change.resolved (h : Change projectId dangerous s s') (hs : s.Resolved) : s'.Resolved := by
  constructor
  · intro pr
    rcases h.grows hs pr with heq | ⟨-, hgrow⟩
    · rw [heq]
      exact hs.rooted pr
    · exact hgrow.rooted (hs.rooted pr)
  intro pr p
  cases h with
  | @created d row _ persons distinctIds hp hd =>
    rw [personOf_created hd]
    have hperson : ({ s with persons, distinctIds } : Tables).person pr p =
        if (pr, p) = (projectId, d) then some row else s.person pr p := Table.get_insert hp _
    rw [hperson]
    by_cases hpr : pr = projectId
    · by_cases he : p = d
      · simp [hpr, he, Forest.create]
      · simpa [hpr, he, Forest.create] using hs.person projectId p
    · simpa [hpr] using hs.person pr p
  | touched q f _ => simpa using hs.person pr p
  | united w l hne hw lost hl _ f _ =>
    rw [personOf_united w l _ hne f, Tables.person_deletePerson]
    by_cases hpr : pr = projectId
    · subst hpr
      by_cases hp : p = l
      · have hlost : s.personOf pr l = some l := (hs.person pr l).mp (by rw [hl]; rfl)
        simp [hp, Forest.unite, hlost, hne]
      · by_cases he : s.personOf pr p = some l
        · have hnone : (s.person pr p).isSome = false := by
            rw [Bool.eq_false_iff]
            intro hsome
            rw [(hs.person pr p).mp hsome] at he
            exact hp (Option.some.inj he)
          have hwp : w ≠ p := by
            rintro rfl
            rw [hw] at hnone
            cases hnone
          simpa [hp, Forest.unite, he, hwp] using hnone
        · simpa [hp, Forest.unite, he] using hs.person pr p
    · simpa [hpr] using hs.person pr p
  | grouped => exact hs.person pr p

theorem Changes.resolved (h : Changes projectId dangerous s s') (hs : s.Resolved) : s'.Resolved := by
  induction h with
  | refl => exact hs
  | tail _ hc ih => exact hc.resolved ih

theorem Changes.grows (h : Changes projectId dangerous s s') (hs : s.Resolved) (pr : String) :
    Relation.ReflTransGen Forest.Grows (s.personOf pr) (s'.personOf pr) ∧ (pr ≠ projectId → s'.personOf pr = s.personOf pr) := by
  induction h with
  | refl => exact ⟨.refl, fun _ => rfl⟩
  | tail hab hc ih =>
    obtain ⟨hgrow, hother⟩ := ih
    rcases hc.grows (Changes.resolved hab hs) pr with heq | ⟨rfl, hg⟩
    · rw [heq]
      exact ⟨hgrow, hother⟩
    · exact ⟨hgrow.tail hg, fun hne => absurd rfl hne⟩

end changes
end Hoglet.Projections
