import Hoglet.Projections.Reachable

/-! Identified people: in runs without dangerous merges and erasures they keep their id and every one of
their distinct ids. -/
namespace Hoglet.Projections
open Capture

def Tables.Identified (s : Tables) (projectId p : String) : Prop := ∃ row, s.person projectId p = some row ∧ row.isIdentified = true

/-- An event, and not a dangerous merge. -/
def Act.Plain {ν U : Type} (a : Act ν U) (_ : Tables) : Prop :=
  match a with
  | .event _ e => e.event ≠ "$merge_dangerously"
  | .erase _ _ => False

/-- Identified people stay, and so do their distinct ids. -/
private def Protects (s s' : Tables) : Prop :=
  ∀ projectId p, s.Identified projectId p →
    s'.Identified projectId p ∧ ∀ d, s.personOf projectId d = some p → s'.personOf projectId d = some p

private theorem Protects.refl (s : Tables) : Protects s s := fun _ _ h => ⟨h, fun _ => id⟩

private theorem Protects.trans {s s' s'' : Tables} (h : Protects s s') (h' : Protects s' s'') : Protects s s'' :=
  fun pr p hp => ⟨(h' pr p (h pr p hp).1).1, fun d hd => (h' pr p (h pr p hp).1).2 d ((h pr p hp).2 d hd)⟩

private theorem Identified.touched {s : Tables} {projectId pr p q : String} {f : PersonRow → PersonRow}
    (hf : ∀ r, r.isIdentified = true → (f r).isIdentified = true) (h : s.Identified pr p) :
    (s.setPerson projectId q f).Identified pr p := by
  obtain ⟨row, hrow, hid⟩ := h
  refine ⟨_, by rw [Tables.person_setPerson, hrow, Option.map_some], ?_⟩
  split
  · exact hf row hid
  · exact hid

private theorem change_protects {projectId : String} {s s' : Tables} (h : Change projectId false s s') : Protects s s' := by
  intro pr p hp
  obtain ⟨row, hrow, hid⟩ := hp
  cases h with
  | @created d new _ persons distinctIds hins hd =>
    refine ⟨⟨row, ?_, hid⟩, fun e he => ?_⟩
    · have hne : (pr, p) ≠ (projectId, d) := fun heq => by
        have := (Table.insert_eq_some hins).1
        rw [← heq] at this
        rw [Tables.person, this] at hrow
        cases hrow
      rw [Tables.person, Table.get_insert hins, if_neg hne]
      exact hrow
    · have hne : (pr, e) ≠ (projectId, d) := fun heq => by
        have := (Table.insert_eq_some hd).1
        rw [← heq] at this
        rw [Tables.personOf, this] at he
        cases he
      rw [Tables.personOf, Table.get_insert hd, if_neg hne]
      exact he
  | touched q f hf => exact ⟨Identified.touched hf ⟨row, hrow, hid⟩, fun _ => id⟩
  | united w l hne hw lost hl hguard f hf =>
    have hgone : ¬ (pr = projectId ∧ p = l) := by
      rintro ⟨rfl, rfl⟩
      rw [hrow] at hl
      cases hl
      rw [hguard rfl] at hid
      cases hid
    refine ⟨?_, fun e he => ?_⟩
    · have hthere : (s.bumpSeq.repoint projectId w l (s.identityState.seq + 1)).Identified pr p := ⟨row, hrow, hid⟩
      obtain ⟨row', hrow', hid'⟩ := Identified.touched hf hthere
      exact ⟨row', by rw [Tables.person_deletePerson, if_neg hgone]; exact hrow', hid'⟩
    · have hkeep : ¬ (pr = projectId ∧ s.personOf pr e = some l) := fun h =>
        hgone ⟨h.1, Option.some.inj (he.symm.trans h.2)⟩
      rw [Tables.personOf_deletePerson, Tables.personOf_unmap, Tables.personOf_setPerson, Tables.personOf_repoint,
        Tables.personOf_bumpSeq, if_neg hkeep, if_neg hkeep, he]
  | grouped => exact ⟨⟨row, hrow, hid⟩, fun _ => id⟩

private theorem changes_protect {projectId : String} {s s' : Tables} (h : Changes projectId false s s') : Protects s s' := by
  induction h with
  | refl => exact .refl _
  | tail _ hc ih => exact ih.trans (change_protects hc)

private theorem step_protects {ν U : Type} {K : Crates ν U} {a : Act ν U} {s s' : Tables} (hs : s.Resolved) (hok : a.Plain s)
    (h : Step K a s s') : Protects s s' := by
  cases a with
  | event projectId event => exact changes_protect (event_changes (fun _ => hok) hs h)
  | erase => exact hok.elim

/-- From any state of a run without dangerous merges and erasures, on any such continuation: an identified
person stays an identified person and keeps every distinct id; two identified people are never joined;
and where an identified person is joined with another one, the identified one's id survives. -/
theorem identified_people_protected {ν U : Type} {K : Crates ν U} {s s' : Tables}
    (h : System.Reached .empty (Step K) Act.Plain s) (h' : System.Reached s (Step K) Act.Plain s') (projectId : String) :
    (∀ p, s.Identified projectId p →
      s'.Identified projectId p ∧ ∀ d, s.personOf projectId d = some p → s'.personOf projectId d = some p) ∧
    (∀ d₁ d₂ p q, s.personOf projectId d₁ = some p → s.personOf projectId d₂ = some q → p ≠ q → s.Identified projectId p →
      s.Identified projectId q → s'.personOf projectId d₁ ≠ s'.personOf projectId d₂) ∧
    ∀ d₁ d₂ p, s.personOf projectId d₁ = some p → s.Identified projectId p →
      s'.personOf projectId d₁ = s'.personOf projectId d₂ → s'.personOf projectId d₂ = some p := by
  have hprot : Protects s s' := (h'.invariant (P := fun t => t.Resolved ∧ Protects s t) ⟨reached_resolved h, .refl s⟩
    fun _ _ _ ⟨ht, hp⟩ hok hstep => ⟨step_resolved ht hstep, hp.trans (step_protects ht hok hstep)⟩).2
  refine ⟨hprot projectId, fun d₁ d₂ p q h₁ h₂ hne hp hq heq => hne ?_, fun d₁ d₂ p h₁ hp heq => ?_⟩
  · rw [(hprot projectId p hp).2 d₁ h₁, (hprot projectId q hq).2 d₂ h₂] at heq
    exact Option.some.inj heq
  · rw [← heq, (hprot projectId p hp).2 d₁ h₁]

/-- After a login the user keeps both ids whatever links follow. -/
theorem logged_in_user_protected : linkedTables.Identified "p" "u" ∧
    ∀ s', System.Reached linkedTables (Step Crates.small) Act.Plain s' →
      s'.Identified "p" "u" ∧ s'.personOf "p" "a" = some "u" := by
  have hstep : Step Crates.small (.event "p" linkEvent) .empty linkedTables := linkEvent_applied
  have hplain : (Act.event "p" linkEvent).Plain Tables.empty := show linkEvent.event ≠ "$merge_dangerously" by decide
  have hu : linkedTables.Identified "p" "u" :=
    (Option.any_eq_true _ _).mp (show (linkedTables.person "p" "u").any PersonRow.isIdentified = true by decide +kernel)
  refine ⟨hu, fun s' hrun => ?_⟩
  obtain ⟨hkept, -, -⟩ := identified_people_protected (.step .start hplain hstep) hrun "p"
  exact ⟨(hkept "u" hu).1, (hkept "u" hu).2 "a" linkedTables_person⟩

end Hoglet.Projections
