import Hoglet.Query.Batch
import Hoglet.System

/-! The mirror follows the feed of overrides through any interleaving, and a sync that no commit disturbs
leaves exactly the overrides of the projections. -/
namespace Hoglet.Query
open Projections Capture

namespace Engine

/-- A batch of this epoch is used: it is the mirror's own, or it was read from the start. -/
def Usable (s : Engine) (epoch : Nat) : Prop := s.epoch = some epoch ∨ s.seq = 0

/-- What the call of `sync` has read, at any point of it, whatever has been committed since. -/
def Reading (s : Engine) : Prop :=
  match s.phase with
  | .idle | .fetching _ => True
  | .counted _ before => before.Sound ∧ before.source.Advances s.tables.source ∧
      (∀ e, s.epoch = some e → e ≤ before.identityState.epoch) ∧ (s.quiet = true → s.tables = before) ∧
      (s.Usable before.identityState.epoch → s.seq ≤ before.identityState.seq)
  | .splitting _ epoch last => epoch ≤ s.tables.identityState.epoch ∧ (∀ e, s.epoch = some e → e ≤ epoch) ∧
      (s.Usable epoch → epoch = s.tables.identityState.epoch → s.seq < last ∧ last ≤ s.tables.identityState.seq ∧
        ∀ k n p, s.tables.source.row k = some (n, p) → s.seq < n → n ≤ last → n = last)
  | .fetched _ before batch => batch.epoch ≤ s.tables.identityState.epoch ∧ (∀ e, s.epoch = some e → e ≤ batch.epoch) ∧
      (batch.changes.map Prod.fst).Nodup ∧
      (s.Usable batch.epoch → Feed.Carries s.tables.source batch.epoch s.seq batch.maxSeq (lookupRow batch.changes)) ∧
      (batch.truncated = false → (s.quiet = true → s.tables = before) ∧ batch.epoch = before.identityState.epoch ∧
        (s.Usable batch.epoch → batch.maxSeq = before.identityState.seq))

structure Inv (s : Engine) : Prop where
  sound : s.tables.Sound
  behind : ∀ e, s.epoch = some e → e ≤ s.tables.identityState.epoch
  unique : (s.overrides.map Prod.fst).Nodup
  tracks : Feed.Tracks overrideOf s.tables.source s.epoch s.seq (lookupRow s.overrides)
  reading : s.Reading

end Engine

open Engine

theorem inv_fresh : Engine.fresh.Inv :=
  ⟨sound_empty, fun _ h => (by cases h), List.nodup_nil, fun h => (by cases h), trivial⟩

section steps
variable {ν U : Type} {K : Crates ν U} {s s' : Engine}

private theorem commit_inv {tables : Tables} (h : s.Inv) (hc : Commits K s.tables tables) :
    Inv { s with tables, history := s.history ++ [tables], quiet := false } := by
  obtain ⟨hsound, hadv⟩ := hc.sound h.sound
  have hepoch : s.tables.identityState.epoch ≤ tables.identityState.epoch := hadv.epoch_le
  refine ⟨hsound, fun e he => (h.behind e he).trans hepoch, h.unique, h.tracks.advances hsound.stamped h.behind hadv, ?_⟩
  have hr := h.reading
  unfold Reading at hr ⊢
  cases hp : s.phase with
  | idle | fetching => trivial
  | counted left before =>
    simp only [hp] at hr ⊢
    obtain ⟨hb, ha, he, -, hseq⟩ := hr
    exact ⟨hb, ha.trans hadv, he, by simp, hseq⟩
  | splitting left epoch last =>
    simp only [hp] at hr ⊢
    obtain ⟨hle, he, honly⟩ := hr
    refine ⟨hle.trans hepoch, he, fun hu heq => ?_⟩
    have hsame : tables.identityState.epoch = s.tables.identityState.epoch := by omega
    obtain ⟨hlt, hlast, hrows⟩ := honly hu (heq.trans hsame)
    have hcounter : s.tables.identityState.seq ≤ tables.identityState.seq := hadv.counter_le
    refine ⟨hlt, hlast.trans hcounter, fun k n p hk hn hle' => ?_⟩
    cases hold : s.tables.source.row k with
    | none =>
      have : n = 0 ∨ s.tables.identityState.seq < n := hadv.appeared hold hk
      omega
    | some row =>
      rcases hadv.kept hsame k row.1 row.2 hold with hkept | ⟨n', p', hnew, hfresh⟩
      · rw [hk] at hkept
        cases hkept
        exact hrows k _ _ hold hn hle'
      · rw [hk] at hnew
        cases hnew
        have : s.tables.identityState.seq < n := hfresh
        omega
  | fetched left before batch =>
    simp only [hp] at hr ⊢
    obtain ⟨hle, he, hu, hcarries, hlast⟩ := hr
    exact ⟨hle.trans hepoch, he, hu, fun hus => (hcarries hus).advances hle hadv,
      fun ht => ⟨by simp, (hlast ht).2⟩⟩

private theorem count_inv {left : Nat} (h : s.Inv) : Inv { s with phase := .counted left s.tables } := by
  refine ⟨h.sound, h.behind, h.unique, h.tracks, h.sound, .refl _, h.behind, fun _ => rfl, fun hu => ?_⟩
  rcases hu with he | h0
  · exact (h.tracks he).1
  · exact h0 ▸ Nat.zero_le _

private theorem read_inv {left : Nat} {before : Tables} {rows : List (Key × DistinctIdRow)} (h : s.Inv)
    (hp : s.phase = .counted left before) (hrows : rows.Perm (changedRows s.tables s.seq before.identityState.seq))
    (hsorted : rows.Pairwise fun a b => a.2.seq ≤ b.2.seq) : Inv { s with phase := cutPhase left before s.seq rows } := by
  refine ⟨h.sound, h.behind, h.unique, h.tracks, ?_⟩
  have hr := h.reading
  simp only [Reading, hp] at hr
  obtain ⟨hb, ha, he, hquiet, hseq⟩ := hr
  have hepoch : before.identityState.epoch ≤ s.tables.identityState.epoch := ha.epoch_le
  have hcounter : before.identityState.seq ≤ s.tables.identityState.seq := ha.counter_le
  unfold cutPhase Reading
  cases hc : cutBatch s.seq before.identityState.seq before.identityState.epoch rows with
  | inl batch =>
    obtain ⟨hbe, hbu, hbm, hcovers⟩ := cutBatch_covers hrows hsorted hc
    simp only
    rw [hbe]
    refine ⟨hepoch, he, hbu, fun hu => ?_, fun ht => ⟨hquiet, rfl, fun hu => ?_⟩⟩
    · obtain ⟨hcov, hle, hmax⟩ := hcovers (hseq hu)
      exact hcov.carries hle fun _ => hmax.trans hcounter
    · rw [hbm ht, max_eq_left (hseq hu)]
  | inr last =>
    obtain ⟨hlt, hle, honly⟩ := cutBatch_last hrows hsorted hc
    exact ⟨hepoch, he, fun _ _ => ⟨hlt, hle.trans hcounter, fun k n p hk hn hle' =>
      honly _ (row_eq_some.mp hk) hn hle'⟩⟩

private theorem rest_inv {left epoch last : Nat} {rows : List (Key × DistinctIdRow)} (h : s.Inv)
    (hp : s.phase = .splitting left epoch last) (hrows : rows.Perm (stampedRows s.tables last)) :
    Inv { s with phase := .fetched left s.tables ⟨epoch, last, rows.map change, true⟩ } := by
  refine ⟨h.sound, h.behind, h.unique, h.tracks, ?_⟩
  have hr := h.reading
  simp only [Reading, hp] at hr
  obtain ⟨hle, he, honly⟩ := hr
  refine ⟨hle, he, ?_, fun hu => ?_, by simp⟩
  · have hnodup : (rows.map Prod.fst).Nodup :=
      (hrows.map Prod.fst).nodup_iff.mpr (s.tables.distinctIds.unique.sublist (List.filter_sublist.map _))
    simpa [Function.comp_def, change] using hnodup
  · intro heq
    obtain ⟨hlt, hlast, hall⟩ := honly hu heq
    exact (stampedRows_covers hrows hlt fun row hin => hall row.1 row.2.seq row.2.personId (row_eq_some.mpr hin)).carries
      hlt.le (fun _ => hlast) heq

private theorem clear_inv {left : Nat} {before : Tables} {batch : OverrideBatch} (h : s.Inv)
    (hp : s.phase = .fetched left before batch) : (s.cleared left before batch).Inv := by
  have hr := h.reading
  simp only [Reading, hp] at hr
  obtain ⟨hle, he, hu, hcarries, hlast⟩ := hr
  refine ⟨h.sound, fun e heq => by cases heq; exact hle, List.nodup_nil, Feed.tracks_empty h.sound.stamped _, ?_⟩
  unfold Reading cleared
  by_cases h0 : s.seq = 0
  · simp only [h0, if_true]
    have hcar := hcarries (.inr h0)
    rw [h0] at hcar
    exact ⟨hle, fun e heq => by cases heq; exact le_refl _, hu, fun _ => hcar, fun ht =>
      ⟨(hlast ht).1, (hlast ht).2.1, fun _ => (hlast ht).2.2 (.inr h0)⟩⟩
  · simp only [h0, if_false]

private theorem apply_tracks {left : Nat} {before : Tables} {batch : OverrideBatch} (h : s.Inv)
    (hp : s.phase = .fetched left before batch) (hepoch : s.epoch = some batch.epoch) :
    ((applyChanges s.overrides batch.changes).map Prod.fst).Nodup ∧
      Feed.Tracks overrideOf s.tables.source s.epoch batch.maxSeq (lookupRow (applyChanges s.overrides batch.changes)) := by
  have hr := h.reading
  simp only [Reading, hp] at hr
  obtain ⟨-, -, hu, hcarries, -⟩ := hr
  have hlookup : lookupRow (applyChanges s.overrides batch.changes) =
      Feed.patch overrideOf (lookupRow s.overrides) (lookupRow batch.changes) := funext (applyChanges_lookup h.unique hu)
  have ht := h.tracks
  rw [hepoch] at ht
  rw [hlookup, hepoch]
  exact ⟨applyChanges_unique h.unique hu, ht.patch (hcarries (.inl hepoch))⟩

theorem inv_step {a : Act} (h : s.Inv) (hs : Step K a s s') : s'.Inv := by
  cases hs with
  | commit _ tables hc => exact commit_inv h hc
  | call => exact ⟨h.sound, h.behind, h.unique, h.tracks, trivial⟩
  | count => exact count_inv h
  | read _ left before hp rows hrows hsorted => exact read_inv h hp hrows hsorted
  | rest _ left epoch last hp rows hrows => exact rest_inv h hp hrows
  | clear _ left before batch hp _ => exact clear_inv h hp
  | apply _ left before batch hp hepoch =>
    obtain ⟨hu, ht⟩ := apply_tracks h hp hepoch
    unfold reply
    simp only
    split
    · exact ⟨h.sound, h.behind, hu, ht, trivial⟩
    · exact ⟨h.sound, h.behind, hu, ht, trivial⟩
  | fail => exact ⟨h.sound, h.behind, h.unique, h.tracks, trivial⟩
  | failClear _ left before batch hp hepoch =>
    refine ⟨h.sound, h.behind, List.nodup_nil, fun heq => ?_, trivial⟩
    have hr := h.reading
    simp only [Reading, hp] at hr
    obtain ⟨hle, he, -⟩ := hr
    have : s.tables.identityState.epoch ≤ batch.epoch := he _ heq
    exact absurd heq (fun hcon => hepoch (by rw [hcon]; exact congrArg some (le_antisymm this hle)))
  | failApply _ left before batch hp hepoch =>
    obtain ⟨hu, ht⟩ := apply_tracks h hp hepoch
    refine ⟨h.sound, h.behind, hu, fun heq => ?_, trivial⟩
    have hr := h.reading
    simp only [Reading, hp] at hr
    obtain ⟨-, -, -, hcarries, -⟩ := hr
    obtain ⟨hle, -⟩ := hcarries (.inl hepoch) (Option.some.inj (hepoch.symm.trans heq))
    obtain ⟨-, hnone, hrow⟩ := ht heq
    exact ⟨(h.tracks heq).1, hnone, fun k n r hk hn => hrow k n r hk (hn.trans hle)⟩
  | finish => exact ⟨h.sound, h.behind, h.unique, h.tracks, h.reading⟩

end steps

/-- A run of commits, syncs and queries in any order. -/
abbrev Runs {ν U : Type} (K : Crates ν U) : Engine → Prop := System.Reached .fresh (Step K) System.anyStep

theorem runs_inv {ν U : Type} {K : Crates ν U} {s : Engine} (h : Runs K s) : s.Inv :=
  h.invariant inv_fresh fun _ _ _ hs _ => inv_step hs

/-- Whatever happened before, a sync that returns with no commit since it began leaves exactly the rows of
the projections that point elsewhere, and every distinct id resolves through them to its person. -/
theorem sync_converges {ν U : Type} {K : Crates ν U} {s : Engine} (h : Runs K s) {left : Nat} {before : Tables}
    {batch : OverrideBatch} (hphase : s.phase = .fetched left before batch) (hepoch : s.epoch = some batch.epoch)
    (hlast : batch.truncated = false) (hquiet : s.quiet = true) :
    (s.reply left batch).phase = .idle ∧ (s.reply left batch).tables = s.tables ∧
      (s.reply left batch).overrides.Perm (overrideRows s.tables) ∧
      ∀ projectId d p, s.tables.personOf projectId d = some p → resolve (s.reply left batch).overrides (projectId, d) = p := by
  have hinv := runs_inv h
  obtain ⟨hu, ht⟩ := apply_tracks hinv hphase hepoch
  have hr := hinv.reading
  simp only [Reading, hphase] at hr
  obtain ⟨-, -, -, -, hbefore⟩ := hr
  obtain ⟨hsame, hbe, hseq⟩ := hbefore hlast
  have hview : lookupRow (applyChanges s.overrides batch.changes) = s.tables.source.view overrideOf := by
    rw [hepoch, hbe, hseq (.inl hepoch), ← hsame hquiet] at ht
    exact ht.exact hinv.sound.stamped
  unfold reply
  simp only [hlast, Bool.false_eq_true, if_false, true_and]
  exact ⟨perm_of_view hu hview, fun projectId d p hp => resolve_of_view hview hp⟩

/-- An engine that syncs after one link was committed. -/
def linkedAt (epoch : Option Nat) (phase : Phase) : Engine :=
  ⟨linkedTables, [.empty, linkedTables], [], epoch, 0, phase, true, []⟩

def linkedBatch : OverrideBatch := ⟨0, 1, [(("p", "a"), "u")], false⟩

/-- The run up to the counter read, under any condition that lets a lone sync through. -/
theorem linkedAt_counted {ok : Act → Engine → Prop} (hok : ∀ a s, s.running = [] →
    (∀ left before, s.phase = .counted left before → s.tables = before) → ok a s) :
    System.Reached .fresh (Step Crates.small) ok (linkedAt none (.counted (maxSyncBatches - 1) linkedTables)) := by
  have hcommit : Commits Crates.small .empty linkedTables := .single ⟨.event "p" linkEvent, linkEvent_applied⟩
  have h₁ : System.Reached .fresh (Step Crates.small) ok ⟨linkedTables, [.empty, linkedTables], [], none, 0, .idle, false, []⟩ :=
    .step .start (hok _ _ rfl (by simp [Engine.fresh])) (.commit _ linkedTables hcommit)
  have h₂ : System.Reached .fresh (Step Crates.small) ok (linkedAt none (.fetching maxSyncBatches)) :=
    .step h₁ (hok _ _ rfl (by simp)) (.call _ rfl)
  exact .step h₂ (hok _ _ rfl (by simp [linkedAt])) (.count _ (maxSyncBatches - 1) rfl)

/-- The run up to the batch. -/
theorem linkedAt_fetched {ok : Act → Engine → Prop} (hok : ∀ a s, s.running = [] →
    (∀ left before, s.phase = .counted left before → s.tables = before) → ok a s) :
    System.Reached .fresh (Step Crates.small) ok (linkedAt (some 0) (.fetched (maxSyncBatches - 1) linkedTables linkedBatch)) := by
  have hrows : [(("p", "a"), ⟨"u", 1⟩)].Perm (changedRows linkedTables 0 linkedTables.identityState.seq) := by
    rw [show changedRows linkedTables 0 linkedTables.identityState.seq = [(("p", "a"), ⟨"u", 1⟩)] by decide +kernel]
  have hcut : cutPhase (maxSyncBatches - 1) linkedTables 0 [(("p", "a"), ⟨"u", 1⟩)] =
      .fetched (maxSyncBatches - 1) linkedTables linkedBatch := by
    rw [cutPhase, show linkedTables.identityState = ⟨1, 0⟩ by decide +kernel]
    rfl
  have hread := Step.read (K := Crates.small) (linkedAt none (.counted (maxSyncBatches - 1) linkedTables)) _ linkedTables rfl
    [(("p", "a"), ⟨"u", 1⟩)] hrows (List.pairwise_singleton _ _)
  rw [show (linkedAt none (.counted (maxSyncBatches - 1) linkedTables)).seq = 0 from rfl, hcut] at hread
  have hclear := Step.clear (K := Crates.small) (linkedAt none (.fetched (maxSyncBatches - 1) linkedTables linkedBatch)) _ _ _
    rfl (by simp [linkedAt])
  refine .step (.step (linkedAt_counted hok) (hok _ _ rfl fun _ _ h => ?_) hread) (hok _ _ rfl (by simp [linkedAt])) hclear
  cases h
  rfl

/-- The link's override is mirrored, and the linked id resolves to the user. -/
theorem linked_id_mirrored : ∃ s : Engine, s.overrides.Perm (overrideRows linkedTables) ∧ resolve s.overrides ("p", "a") = "u" := by
  obtain ⟨-, -, hperm, hresolve⟩ := sync_converges (linkedAt_fetched fun _ _ _ _ => trivial) rfl rfl rfl rfl
  exact ⟨_, hperm, hresolve "p" "a" "u" linkedTables_person⟩

end Hoglet.Query
