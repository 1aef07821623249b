import Hoglet.Wal.Site

/-! Restart after a crash: in which runs every directory a crash leaves reopens at or behind the
committed checkpoint. -/
namespace Hoglet.Wal
variable {β : Type} {C : Codec β} {config : WalConfig}

/-- Mid-seal the publisher leaves the last sealed segment in the directory, and until a rename is synced
it commits nothing past the renamed segment. -/
def Act.Careful (a : Act) (s : Site C config) : Prop :=
  match a with
  | .remove => s.log.active = none → 1 < s.log.sealed.length
  | .commit => s.renamed = true → ∀ c, s.window = some c → c.segment < s.log.next
  | _ => True

namespace Site

/-- `open` succeeds on every directory a crash leaves; its active segment is not below the checkpoint's,
and the checkpoint is accepted in the reopened layout. -/
def Reopens (s : Site C config) : Prop :=
  ∀ L n, s.Leaves L n → ∀ names, Lists L.dir names →
    ∃ opened, openLog C config names L.dir = .ok opened ∧ (opened.dir (activePath opened.sequence)).isSome ∧
      s.checkpoint.segment ≤ opened.sequence ∧
      ∀ names', Lists opened.dir names' → ∃ layout valid, discoverSegmentLayout names' = .ok layout ∧
        layout.active = some opened.sequence ∧
        validateCursor C config layout opened.dir opened.dir s.checkpoint = .ok valid

/-- What careful runs keep: the checkpoint is not past the next segment, that segment's sequence is known
from the directory, and a rename that can be undone has not been passed. -/
structure Kept (s : Site C config) : Prop where
  inv : s.Inv
  behind : s.checkpoint.segment ≤ s.log.next
  known : s.log.active = none → s.log.sealed ≠ []
  unpassed : s.renamed = true → s.checkpoint.segment < s.log.next

theorem kept_fresh : (fresh : Site C config).Kept := ⟨inv_fresh, le_refl _, by simp [fresh], by simp [fresh]⟩

theorem reopened_next {L : Log C config} (h : L.active = none → L.sealed ≠ []) : L.reopened.next = L.next := by
  cases ha : L.active with
  | some t => simp only [Log.reopened, ha, Log.next]
  | none => simp only [Log.reopened, ha, h ha, if_false, Log.next]

/-- What a crash leaves of a kept state still knows the next sequence, and the checkpoint is not past it. -/
theorem Kept.leaves {s : Site C config} (h : s.Kept) {L : Log C config} {n : Nat} (hL : s.Leaves L n) :
    s.checkpoint.segment ≤ L.next ∧ (L.active = none → L.sealed ≠ []) := by
  cases hL with
  | cut k _ =>
    refine ⟨h.behind, fun ha => h.known ?_⟩
    simpa [Log.cut] using ha
  | undone hr _ hL _ _ =>
    obtain ⟨last, hlast, rfl⟩ := Option.map_eq_some_iff.mp hL
    obtain ⟨pre, hpre⟩ := List.getLast?_eq_some_iff.mp hlast
    have := h.unpassed hr
    simp only [Log.next, hpre, List.length_append, List.length_singleton] at this
    refine ⟨?_, by simp⟩
    simp only [Log.next, hpre, List.dropLast_concat]
    omega

theorem kept_step {a : Act} {s s' : Site C config} (h : s.Kept) (hok : a.Careful s) (hs : Step a s s') :
    s'.Kept := by
  have hinv := inv_step h.inv hs
  have hwriter : ∀ {L : Log C config}, WriterStep s.log L → s.checkpoint.segment ≤ L.next := fun hw =>
    h.behind.trans (Log.grows_of_writer hw).1.next_le
  cases hs with
  | write _ L hw ha ha' =>
    refine ⟨hinv, hwriter hw, fun hn => ?_, fun hr => absurd ha (by simp [h.inv.renamed hr])⟩
    rw [show L.active = none from hn] at ha'
    cases ha'
  | sync => exact ⟨hinv, h.behind, h.known, h.unpassed⟩
  | rename _ L hw ha' _ =>
    cases hw with
    | land | finish | create => cases ha'
    | rename whole hne ha =>
      refine ⟨hinv, hwriter (.rename _ whole hne ha), by simp, fun _ => ?_⟩
      have := h.behind
      simp only [Log.next, List.length_append, List.length_singleton] at this ⊢
      omega
  | dirsync => exact ⟨hinv, h.behind, h.known, by simp⟩
  | create _ L hw ha hr =>
    cases hw with
    | land _ _ _ _ _ _ ha' | finish _ _ _ ha' | rename _ _ ha' => rw [ha] at ha'; cases ha'
    | create => exact ⟨hinv, h.behind, by simp, by simp [hr]⟩
  | read => exact ⟨hinv, h.behind, h.known, h.unpassed⟩
  | commit _ c hw => exact ⟨hinv, (h.inv.window c hw).2.1, h.known, fun hr => hok hr c hw⟩
  | reclaim => exact ⟨hinv, h.behind, h.known, h.unpassed⟩
  | remove _ l hr L hrem =>
    have hfirst := h.inv.covered s.log.first (by rw [hr]; exact List.mem_cons_self)
    cases hrem with
    | oldest rs later hs =>
      have hnext : s.log.first + 1 + later.length = s.log.next := by simp only [Log.next, hs, List.length_cons]; omega
      refine ⟨hinv, by rw [Log.next, hnext]; exact h.behind, fun hn => ?_, fun hr' => ?_⟩
      · have hlen : 1 < s.log.sealed.length := hok hn
        rw [hs, List.length_cons] at hlen
        exact List.ne_nil_of_length_pos (l := later) (by omega)
      · rw [Log.next, hnext]
        exact h.unpassed hr'
  | crash _ L n hL =>
    obtain ⟨hle, hknown⟩ := h.leaves hL
    refine ⟨hinv, by rw [reopened_next hknown]; exact hle, fun hn => ?_, by simp⟩
    obtain ⟨whole, hw⟩ := L.reopened_active
    rw [hw] at hn
    cases hn

private theorem Kept.reopens {s : Site C config} (h : s.Kept) : s.Reopens := by
  intro L n hL names hl
  obtain ⟨hwf, hp⟩ := h.inv.leaves hL
  obtain ⟨hle, hknown⟩ := h.leaves hL
  obtain ⟨opened, hopen, hseq, hdir⟩ := L.openLog_reopened hwf hl
  obtain ⟨whole, hactive⟩ := L.reopened_active
  rw [← reopened_next hknown] at hle
  refine ⟨opened, hopen, ?_, hseq ▸ hle, fun names' hl' => ?_⟩
  · rw [hdir, hseq, L.reopened.dir_active hactive, Option.isSome_some]
  · rw [hdir] at hl' ⊢
    have hv := hp.reopened.validate hwf.reopened
    have hok : ∃ valid, L.reopened.validated s.checkpoint = .ok valid := by
      obtain hlt | heq := hle.lt_or_eq
      · exact ⟨_, by rw [Log.validated, if_pos hlt]⟩
      · exact ⟨_, by rw [Log.validated, if_neg (by omega), if_neg (by simp [hactive]), if_pos heq, hactive]; rfl⟩
    obtain ⟨valid, hok⟩ := hok
    exact ⟨L.reopened.layout, valid, L.reopened.discover hl', by simp [Log.layout, hactive, hseq], by rw [hv, hok]⟩

/-- A directory that reopens below the checkpoint. -/
private theorem not_reopens {s : Site C config} {L : Log C config} {n : Nat} (hL : s.Leaves L n) (hwf : L.WellFormed)
    (hlt : L.reopened.next < s.checkpoint.segment) : ¬ s.Reopens := by
  intro h
  obtain ⟨opened, hopen, _, hle, _⟩ := h L n hL L.names L.lists_names
  obtain ⟨opened', hopen', hseq, _⟩ := L.openLog_reopened hwf L.lists_names
  rw [hopen'] at hopen
  cases hopen
  omega

private theorem not_reopens_empty {s : Site C config} (ha : s.log.active = none) (hs : s.log.sealed = [])
    (hlt : 1 < s.checkpoint.segment) : ¬ s.Reopens := by
  refine not_reopens (.cut s.synced (le_refl _)) ⟨by simp [hs], by simp [Log.cut, ha]⟩ ?_
  have hr : (s.log.cut s.synced).reopened = ⟨1, Nat.one_pos, [], some ⟨[], []⟩⟩ := by
    simp only [Log.reopened, Log.cut, ha, Option.map_none, hs, if_true]
  rw [hr]
  exact hlt

/-- The first careless step of a run leaves a state that does not reopen. -/
private theorem Kept.careless {a : Act} {s s' : Site C config} (h : s.Kept) (hok : ¬ a.Careful s) (hs : Step a s s') :
    ¬ s'.Reopens := by
  have hinv := inv_step h.inv hs
  cases hs with
  | write | sync | rename | dirsync | create | read | reclaim | crash => exact absurd trivial hok
  | commit _ c hw =>
    simp only [Act.Careful, Classical.not_imp, not_forall, Nat.not_lt] at hok
    obtain ⟨hr, c', hw', hle⟩ := hok
    rw [hw] at hw'
    cases hw'
    obtain ⟨last, hlast⟩ := Option.ne_none_iff_exists'.mp
      (mt List.getLast?_eq_none_iff.mp (h.known (h.inv.renamed hr)))
    obtain ⟨pre, hpre⟩ := List.getLast?_eq_some_iff.mp hlast
    have hundo : s.log.undoRename = some { s.log with sealed := pre, active := some ⟨last, []⟩ } := by
      simp [Log.undoRename, hpre]
    refine not_reopens (Leaves.undone (s := { s with checkpoint := c, window := none }) hr _ hundo _
      fun t ht => by cases ht; rfl) (h.inv.wellFormed.undoRename hundo) ?_
    rw [reopened_next (by simp)]
    simp only [Log.next, hpre, List.length_append, List.length_singleton] at hle ⊢
    omega
  | remove _ l hr L hrem =>
    have hfirst := h.inv.covered s.log.first (by rw [hr]; exact List.mem_cons_self)
    have hpos := s.log.first_pos
    simp only [Act.Careful, Classical.not_imp, Nat.not_lt] at hok
    cases hrem with
    | oldest rs later hs =>
      refine not_reopens_empty hok.1 ?_ (show 1 < s.checkpoint.segment by omega)
      have hlen := hok.2
      rw [hs, List.length_cons] at hlen
      exact List.length_eq_zero_iff.mp (by omega : later.length = 0)

/-- In every run whose steps are careful, whatever a crash leaves of any of its states reopens at or
behind the checkpoint; and the first step that is not careful ends in a state that does not. -/
theorem restart_after_crash :
    (∀ s : Site C config, System.Reached fresh Step Act.Careful s → s.Reopens) ∧
    ∀ (s s' : Site C config) (a : Act), System.Reached fresh Step Act.Careful s → Step a s s' → ¬ a.Careful s →
      ¬ s'.Reopens :=
  have hkept := fun {s : Site C config} (h : System.Reached fresh Step Act.Careful s) =>
    h.invariant kept_fresh fun _ _ _ hk hok hs => kept_step hk hok hs
  ⟨fun _ h => (hkept h).reopens, fun _ _ _ h hs hok => (hkept h).careless hok hs⟩

/-- The log between the rename of its first segment and the creation of the second. -/
def midSealLog : Log (Capture.batchCodec Capture.Crates.small) .standard := ⟨1, Nat.one_pos, [[flatRec]], none⟩

/-- One record, sealed and published. -/
def publishedMidSeal : Site (Capture.batchCodec Capture.Crates.small) .standard :=
  ⟨midSealLog, (segBytes _ _ [flatRec]).length, false, ⟨2, 0⟩, none, []⟩

/-- The same after its segment is reclaimed, before the writer creates the next one. -/
def reclaimedMidSeal : Site (Capture.batchCodec Capture.Crates.small) .standard :=
  ⟨⟨2, Nat.two_pos, [], none⟩, (segBytes _ _ [flatRec]).length, false, ⟨2, 0⟩, none, []⟩

private theorem midSealLog_read : ∃ w ws, readWindow (Capture.batchCodec Capture.Crates.small) .standard
    (fun _ => .still midSealLog.names midSealLog.dir) .origin 1 = .ok w ∧
    drain (Capture.batchCodec Capture.Crates.small) .standard midSealLog.dir w = .ok (ws, ⟨2, 0⟩) := by
  obtain ⟨w, ws, ck, hw, hd, hsplit, _, hend, hprogress⟩ := drain_position midSealLog (by simp [Log.Quiet, midSealLog])
    (c := .origin) ⟨le_refl _, .inl ⟨by decide, [], [flatRec], rfl, rfl⟩⟩ midSealLog.lists_names Nat.one_pos
  have hone : (midSealLog.recordsFrom .origin).length = 1 := rfl
  have hws := List.length_pos_iff.mpr (hprogress (List.ne_nil_of_length_pos (by rw [hone]; exact Nat.one_pos)))
  rw [hsplit, List.length_append] at hone
  cases hend (List.length_eq_zero_iff.mp (by omega))
  exact ⟨w, ws, hw, hd⟩

private theorem midSealLog_reclaim : reclaimList (Capture.batchCodec Capture.Crates.small) .standard
    (.still midSealLog.names midSealLog.dir) ⟨2, 0⟩ = .ok [1] := by
  obtain ⟨valid, h⟩ := reclaimList_position midSealLog (by simp [Log.Quiet, midSealLog]) (c := ⟨2, 0⟩)
    ⟨by decide, .inr rfl⟩ midSealLog.lists_names
  rw [h]
  rfl

theorem publishedMidSeal_reached : System.Reached fresh Step Act.Careful publishedMidSeal := by
  obtain ⟨w, ws, hw, hd⟩ := midSealLog_read
  let n := (segBytes (Capture.batchCodec Capture.Crates.small) .standard [flatRec]).length
  let full : Log (Capture.batchCodec Capture.Crates.small) .standard := ⟨1, Nat.one_pos, [], some ⟨[flatRec], []⟩⟩
  refine .step (a := .commit) ?_ (by intro hr; cases hr)
    (.commit ⟨midSealLog, n, false, .origin, some ⟨2, 0⟩, []⟩ _ rfl)
  refine .step (a := .read) ?_ (by exact trivial) (.read ⟨midSealLog, n, false, .origin, none, []⟩ _
    midSealLog.lists_names 1 w hw ws _ hd)
  refine .step (a := .dirsync) ?_ (by exact trivial) (.dirsync ⟨midSealLog, n, true, .origin, none, []⟩)
  refine .step (a := .rename) ?_ (by exact trivial) (.rename ⟨full, n, false, .origin, none, []⟩ midSealLog
    (.rename full [flatRec] (by simp) rfl) rfl fun t ht => by cases ht; simp [Tail.bytes, n])
  refine .step (a := .sync) ?_ (by exact trivial) (.sync ⟨full, 0, false, .origin, none, []⟩ [flatRec] rfl)
  exact .step (a := .write) .start (by exact trivial) (.write fresh full (.finish _ [] flatRec 0 rfl) rfl rfl)

theorem published_mid_seal_reopens : publishedMidSeal.Reopens := restart_after_crash.1 _ publishedMidSeal_reached

/-- A crash after the last sealed segment is reclaimed and before the next one is created: the log
restarts at segment 1, below the checkpoint. -/
theorem reclaimed_mid_seal_lost : System.Reached fresh Step System.anyStep reclaimedMidSeal ∧
    ¬ reclaimedMidSeal.Reopens := by
  refine ⟨?_, not_reopens_empty rfl rfl (by decide)⟩
  refine .step (a := .remove) ?_ trivial (.remove { publishedMidSeal with removing := [1] } [] rfl
    ⟨2, by decide, [], none⟩ (.oldest midSealLog [flatRec] [] rfl))
  exact .step (a := .reclaim) publishedMidSeal_reached.any trivial
    (.reclaim publishedMidSeal _ midSealLog.lists_names [1] midSealLog_reclaim)

end Site
end Hoglet.Wal
