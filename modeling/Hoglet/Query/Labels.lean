import Hoglet.Query.Mirror

/-! What the label of a query says about the overrides it is evaluated against. -/
namespace Hoglet.Query
open Projections Capture

/-- Every running query sees the overrides of one committed state, and its label is that state's. -/
def Engine.Labelled (s : Engine) : Prop :=
  ∀ label ∈ s.running, ∃ t ∈ s.history,
    label = (t.identityState.epoch, t.identityState.seq) ∧ s.overrides.Perm (overrideRows t)

/-- The rows of a batch that ends a sync are read as they were when the counter was read, and the table is
changed only while no query runs. -/
def Act.Undisturbed (a : Act) (s : Engine) : Prop :=
  match a with
  | .read => ∀ left before, s.phase = .counted left before → s.Usable before.identityState.epoch →
      (changedRows s.tables s.seq before.identityState.seq).length ≤ maxOverrideBatch →
      ∀ k n p, before.source.row k = some (n, p) → s.seq < n → n ≤ before.identityState.seq →
        s.tables.source.row k = some (n, p)
  | .clear => s.running = [] ∨ s.overrides = []
  | .apply => s.running = [] ∨ ∀ left before batch, s.phase = .fetched left before batch →
      (applyChanges s.overrides batch.changes).Perm s.overrides
  | _ => True

namespace Engine

/-- What undisturbed runs keep: the projections at the counter read are committed ones, tracked by the
mirror, and the batch that ends the sync carries their rows. -/
private structure Told (s : Engine) : Prop where
  inv : s.Inv
  current : s.tables ∈ s.history
  labelled : s.Labelled
  reading : match s.phase with
    | .counted _ before => before ∈ s.history ∧ Feed.Tracks overrideOf before.source s.epoch s.seq (lookupRow s.overrides)
    | .fetched _ before batch => batch.truncated = false → before ∈ s.history ∧ before.Sound ∧
        Feed.Tracks overrideOf before.source s.epoch s.seq (lookupRow s.overrides) ∧
        (s.Usable batch.epoch → Feed.Carries before.source batch.epoch s.seq batch.maxSeq (lookupRow batch.changes))
    | _ => True

end Engine

open Engine

private theorem told_fresh : Engine.fresh.Told :=
  ⟨inv_fresh, List.mem_singleton_self _, fun _ h => (by cases h), trivial⟩

section steps
variable {ν U : Type} {K : Crates ν U} {s s' : Engine}

private theorem commit_told {tables : Tables} (h : s.Told) (hc : Commits K s.tables tables) :
    Told { s with tables, history := s.history ++ [tables], quiet := false } := by
  refine ⟨inv_step h.inv (.commit s tables hc), by simp, fun label hl => ?_, ?_⟩
  · obtain ⟨t, ht, hlabel⟩ := h.labelled label hl
    exact ⟨t, List.mem_append_left _ ht, hlabel⟩
  · have hr := h.reading
    cases hp : s.phase with
    | counted left before =>
      simp only [hp] at hr ⊢
      exact ⟨List.mem_append_left _ hr.1, hr.2⟩
    | fetched left before batch =>
      simp only [hp] at hr ⊢
      exact fun ht => ⟨List.mem_append_left _ (hr ht).1, (hr ht).2⟩
    | idle | fetching | splitting => trivial

/-- The rows read are those of the projections at the counter read. -/
private theorem read_told {left : Nat} {before : Tables} {rows : List (Key × DistinctIdRow)} (h : s.Told)
    (hp : s.phase = .counted left before) (hok : Act.Undisturbed .read s)
    (hrows : rows.Perm (changedRows s.tables s.seq before.identityState.seq))
    (hsorted : rows.Pairwise fun a b => a.2.seq ≤ b.2.seq) (hinv : Inv { s with phase := cutPhase left before s.seq rows }) :
    Told { s with phase := cutPhase left before s.seq rows } := by
  refine ⟨hinv, h.current, h.labelled, ?_⟩
  have hr := h.reading
  have hri := h.inv.reading
  simp only [hp] at hr
  simp only [Reading, hp] at hri
  obtain ⟨hmem, htracks⟩ := hr
  obtain ⟨hsound, hadv, -, -, hseq⟩ := hri
  unfold cutPhase
  cases hc : cutBatch s.seq before.identityState.seq before.identityState.epoch rows with
  | inr last => trivial
  | inl batch =>
    obtain ⟨hbe, -, hbm, hcovers⟩ := cutBatch_covers hrows hsorted hc
    refine fun ht => ⟨hmem, hsound, htracks, fun hu => ?_⟩
    have hu' : s.Usable before.identityState.epoch := hbe ▸ hu
    have hlen : rows.length ≤ maxOverrideBatch := cutBatch_whole hc ht
    have hsame := hok left before hp hu' (hrows.length_eq ▸ hlen)
    obtain ⟨hcov, hle, hmax⟩ := hcovers (hseq hu')
    have hupto : batch.maxSeq = before.identityState.seq := by rw [hbm ht, max_eq_left (hseq hu')]
    refine Covers.carries ⟨hcov.unique, fun k p => ?_⟩ hle fun _ => hmax
    rw [hcov.mem]
    constructor
    · rintro ⟨n, hrow, hlt, hn⟩
      rcases hadv.old k n p hrow (hn.trans hmax) with h0 | hold
      · omega
      · exact ⟨n, hold, hlt, hn⟩
    · rintro ⟨n, hrow, hlt, hn⟩
      exact ⟨n, hsame k n p hrow hlt (hn.trans hmax), hlt, hn⟩

private theorem clear_told {left : Nat} {before : Tables} {batch : OverrideBatch} (h : s.Told)
    (hp : s.phase = .fetched left before batch) (hok : Act.Undisturbed .clear s) (hinv : (s.cleared left before batch).Inv) :
    (s.cleared left before batch).Told := by
  refine ⟨hinv, h.current, fun label hl => ?_, ?_⟩
  · rcases hok with hnone | hempty
    · rw [show (s.cleared left before batch).running = s.running from rfl, hnone] at hl
      cases hl
    · rw [show (s.cleared left before batch).overrides = s.overrides from hempty.symm]
      exact h.labelled label hl
  · have hr := h.reading
    simp only [hp] at hr
    unfold cleared
    by_cases h0 : s.seq = 0
    · simp only [h0, if_true]
      intro ht
      obtain ⟨hmem, hsound, -, hcarries⟩ := hr ht
      have hcar := hcarries (.inr h0)
      rw [h0] at hcar
      exact ⟨hmem, hsound, Feed.tracks_empty hsound.stamped _, fun _ => hcar⟩
    · simp only [h0, if_false]

/-- The table after a sync's last batch holds the overrides of the state its label names. -/
private theorem reply_told {left : Nat} {before : Tables} {batch : OverrideBatch} (h : s.Told)
    (hp : s.phase = .fetched left before batch) (hepoch : s.epoch = some batch.epoch) (hok : Act.Undisturbed .apply s)
    (hinv : (s.reply left batch).Inv) : (s.reply left batch).Told := by
  have hold : ∀ label ∈ s.running, ∃ t ∈ s.history, label = (t.identityState.epoch, t.identityState.seq) ∧
      (applyChanges s.overrides batch.changes).Perm (overrideRows t) := by
    intro label hl
    rcases hok with hnone | hperm
    · rw [hnone] at hl
      cases hl
    · obtain ⟨t, ht, hlabel, ho⟩ := h.labelled label hl
      exact ⟨t, ht, hlabel, (hperm left before batch hp).trans ho⟩
  have hr := h.reading
  have hri := h.inv.reading
  simp only [hp] at hr
  simp only [Reading, hp] at hri
  obtain ⟨-, -, hu, -, hlast⟩ := hri
  unfold reply at hinv ⊢
  simp only at hinv ⊢
  cases ht : batch.truncated with
  | true =>
    simp only [ht, if_true] at hinv ⊢
    exact ⟨hinv, h.current, hold, trivial⟩
  | false =>
    simp only [ht, Bool.false_eq_true, if_false] at hinv ⊢
    refine ⟨hinv, h.current, fun label hl => ?_, trivial⟩
    rcases List.mem_cons.mp hl with rfl | hl
    · obtain ⟨hmem, hsound, htracks, hcarries⟩ := hr ht
      obtain ⟨-, hbe, hseq⟩ := hlast ht
      rw [hepoch] at htracks
      have hview := htracks.patch (hcarries (.inl hepoch))
      rw [hbe, hseq (.inl hepoch)] at hview
      refine ⟨before, hmem, by rw [hbe, hseq (.inl hepoch)], perm_of_view (applyChanges_unique h.inv.unique hu) ?_⟩
      rw [show lookupRow (applyChanges s.overrides batch.changes) =
        Feed.patch overrideOf (lookupRow s.overrides) (lookupRow batch.changes) from funext (applyChanges_lookup h.inv.unique hu)]
      exact hview.exact hsound.stamped
    · exact hold label hl

private theorem told_step {a : Act} (h : s.Told) (hok : a.Undisturbed s) (hs : Step K a s s') : s'.Told := by
  have hinv := inv_step h.inv hs
  cases hs with
  | commit _ tables hc => exact commit_told h hc
  | call => exact ⟨hinv, h.current, h.labelled, trivial⟩
  | count => exact ⟨hinv, h.current, h.labelled, h.current, h.inv.tracks⟩
  | read _ left before hp rows hrows hsorted => exact read_told h hp hok hrows hsorted hinv
  | rest => exact ⟨hinv, h.current, h.labelled, by simp⟩
  | clear _ left before batch hp _ => exact clear_told h hp hok hinv
  | apply _ left before batch hp hepoch => exact reply_told h hp hepoch hok hinv
  | fail => exact ⟨hinv, h.current, h.labelled, trivial⟩
  | failClear _ left before batch hp hepoch =>
    have hclear := clear_told h hp hok (inv_step h.inv (.clear (K := K) s left before batch hp hepoch))
    exact ⟨hinv, h.current, hclear.labelled, trivial⟩
  | failApply _ left before batch hp hepoch =>
    refine ⟨hinv, h.current, fun label hl => ?_, trivial⟩
    rcases hok with hnone | hperm
    · rw [show s.running = [] from hnone] at hl
      cases hl
    · obtain ⟨t, ht, hlabel, ho⟩ := h.labelled label hl
      exact ⟨t, ht, hlabel, (hperm left before batch hp).trans ho⟩
  | finish => exact ⟨hinv, h.current, fun label hl => h.labelled label (List.mem_of_mem_erase hl), h.reading⟩

end steps

/-- In every run in which no sync reads rows changed since its counter and none changes the table under a
running query, every running query is evaluated against the overrides of the committed state its label
names. -/
theorem queries_see_labelled_state {ν U : Type} {K : Crates ν U} {s : Engine}
    (h : System.Reached .fresh (Step K) Act.Undisturbed s) : s.Labelled :=
  (h.invariant told_fresh fun _ _ _ hs => told_step hs).labelled

private theorem undisturbed_alone (a : Act) (s : Engine) (h : s.running = [])
    (hbefore : ∀ left before, s.phase = .counted left before → s.tables = before) : a.Undisturbed s := by
  cases a with
  | read => exact fun left before hp _ _ k n p hk _ _ => by rwa [hbefore left before hp]
  | clear | apply => exact .inl h
  | commit | call | count | rest | fail | finish => trivial

/-- A query after a lone sync sees the overrides its label stands for. -/
theorem linked_query_labelled : ∃ t ∈ [Tables.empty, linkedTables],
    (0, 1) = (t.identityState.epoch, t.identityState.seq) ∧ [(("p", "a"), "u")].Perm (overrideRows t) := by
  have hstep := Step.apply (K := Crates.small) (linkedAt (some 0) (.fetched (maxSyncBatches - 1) linkedTables linkedBatch))
    _ _ _ rfl rfl
  exact queries_see_labelled_state (.step (linkedAt_fetched undisturbed_alone) (undisturbed_alone .apply _ rfl (by simp [linkedAt])) hstep)
    (0, 1) (List.mem_singleton_self _)

/-- The user is merged into another person. -/
def moveEvent : CapturedEvent Int Small.Uuid :=
  ⟨Small.nilUuid, "$merge_dangerously", "v", "phc_t", Small.noon, .ofWritten [("alias", .string "u")]⟩

def movedTables : Tables :=
  match applyIdentityEffects Crates.small "p" moveEvent linkedTables with
  | .ok _ s => s
  | .error _ s => s

private theorem moveEvent_applied : applyIdentityEffects Crates.small "p" moveEvent linkedTables = .ok () movedTables := by
  have h : (match applyIdentityEffects Crates.small "p" moveEvent linkedTables with
    | .ok _ _ => true
    | .error _ _ => false) = true := by decide +kernel
  unfold movedTables
  split at h
  · rename_i s hs
    rw [hs]
  · cases h

/-- An engine that syncs while the second merge is committed. -/
private def movedAt (epoch : Option Nat) (phase : Phase) (running : List (Nat × Nat)) : Engine :=
  ⟨movedTables, [.empty, linkedTables, movedTables], [], epoch, 0, phase, false, running⟩

private def emptyBatch : OverrideBatch := ⟨0, 1, [], false⟩

private theorem movedAt_fetched : Runs Crates.small
    (movedAt (some 0) (.fetched (maxSyncBatches - 1) linkedTables emptyBatch) []) := by
  have hcommit : Commits Crates.small linkedTables movedTables := .single ⟨.event "p" moveEvent, moveEvent_applied⟩
  have hrows : [].Perm (changedRows movedTables 0 linkedTables.identityState.seq) := by
    rw [show changedRows movedTables 0 linkedTables.identityState.seq = [] by decide +kernel]
  have hcut : cutPhase (maxSyncBatches - 1) linkedTables 0 [] = .fetched (maxSyncBatches - 1) linkedTables emptyBatch := by
    rw [cutPhase, show linkedTables.identityState = ⟨1, 0⟩ by decide +kernel]
    rfl
  have hmove := Step.commit (K := Crates.small) (linkedAt none (.counted (maxSyncBatches - 1) linkedTables)) movedTables hcommit
  have hread := Step.read (K := Crates.small) (movedAt none (.counted (maxSyncBatches - 1) linkedTables) []) _ linkedTables rfl
    [] hrows .nil
  rw [show (movedAt none (.counted (maxSyncBatches - 1) linkedTables) []).seq = 0 from rfl, hcut] at hread
  have hclear := Step.clear (K := Crates.small) (movedAt none (.fetched (maxSyncBatches - 1) linkedTables emptyBatch) []) _ _ _
    rfl (by simp [movedAt])
  exact .step (.step (.step (linkedAt_counted fun _ _ _ _ => trivial) trivial hmove) trivial hread) trivial hclear

/-- A merge between the counter and the rows: the query has the label of the first link, and no override. -/
theorem merge_between_reads_mislabels : ∃ s, Runs Crates.small s ∧ ¬ s.Labelled := by
  have hstep := Step.apply (K := Crates.small) (movedAt (some 0) (.fetched (maxSyncBatches - 1) linkedTables emptyBatch) [])
    _ _ _ rfl rfl
  refine ⟨_, .step movedAt_fetched trivial hstep, fun h => ?_⟩
  obtain ⟨t, ht, hlabel, hperm⟩ := h (0, 1) (List.mem_singleton_self _)
  have hseq : t.identityState.seq = 1 := (congrArg Prod.snd hlabel).symm
  have hlinked : t = linkedTables := by
    rcases List.mem_cons.mp ht with rfl | ht
    · exact absurd hseq (by decide +kernel)
    rcases List.mem_cons.mp ht with rfl | ht
    · rfl
    · obtain rfl := List.mem_singleton.mp ht
      exact absurd hseq (by decide +kernel)
  subst hlinked
  have hlen : 0 = (overrideRows linkedTables).length := hperm.length_eq
  exact absurd hlen (by decide +kernel)

end Hoglet.Query
