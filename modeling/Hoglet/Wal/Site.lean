import Hoglet.System
import Hoglet.Wal.Placed

/-! The writer, the publisher and crashes over whole runs, and what holds in every state a run reaches. -/
namespace Hoglet.Wal
variable {β : Type} {C : Codec β} {config : WalConfig}

/-- What the processes share and what survives them: the log's files, how many bytes of the active one
are synced, whether a power cut can still undo the last rename, the checkpoint SQLite holds, the end of
the window the publisher has read and not committed yet, and the segments it has still to remove. -/
structure Site (C : Codec β) (config : WalConfig) where
  log : Log C config
  synced : Nat
  renamed : Bool
  checkpoint : WalCursor
  window : Option WalCursor
  removing : List Nat

inductive Act where
  | write | sync | rename | dirsync | create | read | commit | reclaim | remove | crash
  deriving DecidableEq, Repr

namespace Site

/-- `WriteAheadLog::open` on an empty directory, and the checkpoint of a new database. -/
def fresh : Site C config := ⟨⟨1, Nat.one_pos, [], some ⟨[], []⟩⟩, 0, false, .origin, none, []⟩

/-- A log a crash leaves, and how many bytes of its active segment are synced: what was written, cut
anywhere behind the synced bytes, or the directory before a rename that was not synced. -/
inductive Leaves (s : Site C config) : Log C config → Nat → Prop
  | cut (k : Nat) (hk : s.synced ≤ k) : Leaves s (s.log.cut k) s.synced
  | undone (hr : s.renamed = true) (L : Log C config) (hL : s.log.undoRename = some L) (n : Nat)
      (hn : ∀ t, L.active = some t → n = t.bytes.length) : Leaves s L n

/-- One step of the writer, the publisher or the machine. The writer syncs the segment before it renames
it, and the directory before it creates the next one; `open` syncs the directory as well. -/
inductive Step : Act → Site C config → Site C config → Prop
  | write (s : Site C config) (L : Log C config) (h : WriterStep s.log L) (ha : s.log.active.isSome)
      (ha' : L.active.isSome) : Step .write s { s with log := L }
  | sync (s : Site C config) (whole : List (Rec C config)) (ha : s.log.active = some ⟨whole, []⟩) :
      Step .sync s { s with synced := (segBytes C config whole).length }
  | rename (s : Site C config) (L : Log C config) (h : WriterStep s.log L) (ha' : L.active = none)
      (hs : ∀ t, s.log.active = some t → s.synced = t.bytes.length) : Step .rename s { s with log := L, renamed := true }
  | dirsync (s : Site C config) : Step .dirsync s { s with renamed := false }
  | create (s : Site C config) (L : Log C config) (h : WriterStep s.log L) (ha : s.log.active = none)
      (hr : s.renamed = false) : Step .create s { s with log := L, synced := 0 }
  | read (s : Site C config) (names : List Path) (hl : Lists s.log.dir names) (maxBytes : Nat) (w : PublicationWindow)
      (hw : readWindow C config (fun _ => .still names s.log.dir) s.checkpoint maxBytes = .ok w)
      (ws : List (WalRecord β)) (c : WalCursor) (hd : drain C config s.log.dir w = .ok (ws, c)) :
      Step .read s { s with window := some c, removing := [] }
  | commit (s : Site C config) (c : WalCursor) (hw : s.window = some c) :
      Step .commit s { s with checkpoint := c, window := none }
  | reclaim (s : Site C config) (names : List Path) (hl : Lists s.log.dir names) (l : List Nat)
      (h : reclaimList C config (.still names s.log.dir) s.checkpoint = .ok l) :
      Step .reclaim s { s with window := none, removing := l }
  | remove (s : Site C config) (l : List Nat) (hr : s.removing = s.log.first :: l) (L : Log C config)
      (h : RemoveStep s.log L) : Step .remove s { s with log := L, removing := l }
  | crash (s : Site C config) (L : Log C config) (n : Nat) (hL : s.Leaves L n) :
      Step .crash s ⟨L.reopened, if L.active = none then 0 else n, false, s.checkpoint, none, []⟩

end Site

/-- A window opened on a resting directory, in terms of the cursor's validation. -/
theorem readWindow_still (L : Log C config) {names : Nat → List Path} (hl : ∀ i, Lists L.dir (names i)) (c : WalCursor)
    {maxBytes : Nat} (hm : maxBytes ≠ 0) :
    readWindow C config (fun i => .still (names i) L.dir) c maxBytes =
      (validateCursor C config L.layout L.dir L.dir c).map fun _ =>
        ⟨⟨⟨L.layout.sealed.filter (c.segment ≤ ·), none, c⟩,
          (L.layout.active.map fun sequence => (⟨sequence, 0⟩ : WalCursor)).or L.layout.nextSegmentCursor, false⟩,
          c, maxBytes, 0, false⟩ := by
  simp only [readWindow, hm, if_false, SealedRecords.open_, SealedRecords.openOnce, Glimpse.still, L.discover (hl _),
    retryLayoutRace_const]
  cases validateCursor C config L.layout L.dir L.dir c <;> rfl

theorem reclaimList_still (L : Log C config) {names : List Path} (hl : Lists L.dir names) (c : WalCursor) :
    reclaimList C config (.still names L.dir) c =
      (validateCursor C config L.layout L.dir L.dir c).map (covered L.layout.sealed c) := by
  simp only [reclaimList, Glimpse.still, L.discover hl]
  cases validateCursor C config L.layout L.dir L.dir c <;> rfl

namespace Log

/-- A placed cursor that is accepted is not past the active or next segment, which exists or is known. -/
theorem Placed.of_validated {L : Log C config} {n : Nat} {c : WalCursor} (h : L.Placed n c) {valid : Nat}
    (hv : L.validated c = .ok valid) : c.segment ≤ L.next ∧ (L.active = none → L.sealed ≠ []) := by
  unfold validated at hv
  by_cases hlt : c.segment < L.next
  · refine ⟨hlt.le, fun _ hnil => ?_⟩
    have := h.first_le
    simp only [next, hnil, List.length_nil] at hlt
    omega
  rw [if_neg hlt] at hv
  by_cases hno : c.segment = L.next ∧ L.active = none ∧ L.sealed ≠ []
  · exact ⟨hno.1.le, fun _ => hno.2.2⟩
  rw [if_neg hno] at hv
  by_cases hseg : c.segment = L.next
  · cases ha : L.active with
    | some t => exact ⟨hseg.le, by simp⟩
    | none => simp [hseg, ha] at hv
  · simp [hseg] at hv

/-- A window read on a resting directory from a placed cursor ends at a placed cursor, not past the
active or next segment. -/
theorem Placed.window {L : Log C config} (hwf : L.WellFormed) {n : Nat} {c : WalCursor} (h : L.Placed n c)
    {names : List Path} (hl : Lists L.dir names) {maxBytes : Nat} {w : PublicationWindow}
    (hw : readWindow C config (fun _ => .still names L.dir) c maxBytes = .ok w) {ws : List (WalRecord β)} {c' : WalCursor}
    (hd : drain C config L.dir w = .ok (ws, c')) : L.Placed n c' ∧ c'.segment ≤ L.next := by
  have hm : maxBytes ≠ 0 := by
    rintro rfl
    simp [readWindow] at hw
  rw [readWindow_still L (fun _ => hl) c hm, h.validate hwf] at hw
  cases hv : L.validated c with
  | error e => simp [hv, Except.map] at hw
  | ok valid =>
    obtain ⟨hle, hsealed⟩ := h.of_validated hv
    have hsegs : L.layout.sealed.filter (c.segment ≤ ·) = List.range' c.segment (L.next - c.segment) :=
      filter_range' _ _ _ h.first_le
    simp only [hv, Except.map, Except.ok.injEq, L.terminal hsealed, hsegs] at hw
    subst hw
    by_cases hlt : c.segment < L.next
    · cases h with
      | sealed before r after hf _ hc ho =>
        have hstands : PublicationWindow.Stands L.content L.next L.first
            ⟨⟨⟨List.range' c.segment (L.next - c.segment), none, c⟩, some ⟨L.next, 0⟩, false⟩, c, maxBytes, 0, false⟩ :=
          ⟨rfl, rfl, rfl, .inl ⟨hlt, rfl, before, r :: after, hc, ho, .inl rfl⟩, rfl, hf⟩
        obtain ⟨ws', ck, hdrain, _, ⟨hfirst, hpos⟩, _, _, hat⟩ := drain_stands L hstands rfl
        rw [hdrain] at hd
        cases hd
        rcases hpos with ⟨hlt', _⟩ | rfl
        · refine ⟨?_, hlt'.le⟩
          rcases hat with rfl | h0 | ⟨before', r', after', hc', ho'⟩
          · exact .sealed before r after hf hlt' hc ho
          · obtain ⟨s, _⟩ := c'
            cases h0
            exact hwf.placed_start n hfirst
          · exact .sealed before' r' after' hfirst hlt' hc' ho'
        · exact ⟨.ahead (le_refl _) rfl, le_refl _⟩
      | active _ _ _ _ _ hs => omega
      | ahead hs => omega
    · have hnone : L.next - c.segment = 0 := by omega
      simp only [hnone, List.range'_zero, drain, drainFrom, PublicationWindow.nextItem,
        SealedRecords.nextItem, nextRecord, Bool.false_eq_true, if_false, Option.getD_some, Except.ok.injEq,
        Prod.mk.injEq] at hd
      obtain ⟨_, rfl⟩ := hd
      exact ⟨h, hle⟩

private theorem covered_range' (first n : Nat) (c : WalCursor) (valid : Nat)
    (h : first ≤ c.segment → c.segment < first + n → c.byteOffset ≠ valid) :
    covered (List.range' first n) c valid = List.range' first (min n (c.segment - first)) := by
  induction n generalizing first with
  | zero => simp [covered]
  | succ n ih =>
    have hi := ih (first + 1) fun h1 h2 => h (by omega) (by omega)
    rw [covered] at hi ⊢
    rw [List.range'_succ, List.takeWhile_cons]
    by_cases hlt : first < c.segment
    · have hmin : min (n + 1) (c.segment - first) = min n (c.segment - (first + 1)) + 1 := by omega
      rw [if_pos (by simpa using hlt.le), List.filter_cons, if_pos (by simp [hlt]), hi, hmin, List.range'_succ]
    · have hmin : min (n + 1) (c.segment - first) = 0 := by omega
      rw [hmin, List.range'_zero]
      by_cases heq : first = c.segment
      · have hne := h heq.le (by omega)
        rw [if_pos (by simpa using heq.le), List.filter_cons, if_neg (by simp [heq, hne])]
        rw [show c.segment - (first + 1) = 0 by omega, Nat.min_zero, List.range'_zero] at hi
        exact hi
      · rw [if_neg (by simp; omega), List.filter_nil]

/-- What a placed checkpoint covers is the oldest segments, all of them before its own. -/
theorem Placed.reclaim {L : Log C config} (hwf : L.WellFormed) {n : Nat} {c : WalCursor} (h : L.Placed n c)
    {names : List Path} (hl : Lists L.dir names) {l : List Nat}
    (hr : reclaimList C config (.still names L.dir) c = .ok l) :
    l = List.range' L.first l.length ∧ l.length ≤ L.sealed.length ∧ ∀ s ∈ l, s < c.segment := by
  rw [reclaimList_still L hl, h.validate hwf] at hr
  cases hv : L.validated c with
  | error e => simp [hv, Except.map] at hr
  | ok valid =>
    simp only [hv, Except.map, Except.ok.injEq] at hr
    have hcov : covered (List.range' L.first L.sealed.length) c valid =
        List.range' L.first (min L.sealed.length (c.segment - L.first)) := by
      refine covered_range' _ _ _ _ fun hf hlt hoff => ?_
      have hlt : c.segment < L.next := hlt
      cases h with
      | sealed before r after _ _ hc ho =>
        rw [validated, if_pos hlt, Except.ok.injEq, hc, ← hoff, ho] at hv
        have := r.framedBytes_pos
        simp only [segBytes_append, segBytes_cons, List.length_append, Rec.framedBytes] at hv this
        omega
      | active _ _ _ _ _ hs => omega
      | ahead hs => omega
    rw [layout] at hr
    simp only [hcov] at hr
    have hlen : l.length = min L.sealed.length (c.segment - L.first) := by rw [← hr, List.length_range']
    refine ⟨by rw [hlen, hr], by omega, fun s hs => ?_⟩
    rw [← hr, List.mem_range'_1] at hs
    omega

end Log

namespace Site

/-- What every state a run reaches satisfies. -/
structure Inv (s : Site C config) : Prop where
  wellFormed : s.log.WellFormed
  checkpoint : s.log.Placed s.synced s.checkpoint
  window : ∀ c, s.window = some c → s.log.Placed s.synced c ∧ c.segment ≤ s.log.next ∧ s.removing = []
  removing : s.removing = List.range' s.log.first s.removing.length
  listed : s.removing.length ≤ s.log.sealed.length
  covered : ∀ n ∈ s.removing, n < s.checkpoint.segment
  renamed : s.renamed = true → s.log.active = none

theorem inv_fresh : (fresh : Site C config).Inv where
  wellFormed := ⟨by simp [fresh], fun t ht => by cases ht; exact .inl rfl⟩
  checkpoint := .ahead (le_refl _) rfl
  window := by simp [fresh]
  removing := rfl
  listed := Nat.le_refl _
  covered := by simp [fresh]
  renamed := by simp [fresh]

/-- Every log a crash leaves is well formed, and the checkpoint has its place in it. -/
theorem Inv.leaves {s : Site C config} (h : s.Inv) {L : Log C config} {n : Nat} (hL : s.Leaves L n) :
    L.WellFormed ∧ L.Placed n s.checkpoint := by
  cases hL with
  | cut k hk => exact ⟨h.wellFormed.cut k, h.checkpoint.cut hk⟩
  | undone hr _ hL _ hn => exact ⟨h.wellFormed.undoRename hL, h.checkpoint.undoRename (h.renamed hr) hL n hn⟩

/-- The writer's steps between two states of the log. -/
private theorem Inv.writer {s : Site C config} (h : s.Inv) {L : Log C config} (hs : WriterStep s.log L) (n : Nat)
    (hn : s.log.active.isSome → L.active.isSome → s.synced ≤ n) (renamed : Bool)
    (hr : renamed = true → L.active = none) :
    Inv { s with log := L, synced := n, renamed } where
  wellFormed := h.wellFormed.write hs
  checkpoint := h.checkpoint.write h.wellFormed hs n hn
  window c hc := by
    obtain ⟨hp, hle, hnil⟩ := h.window c hc
    exact ⟨hp.write h.wellFormed hs n hn, hle.trans (Log.grows_of_writer hs).1.next_le, hnil⟩
  removing := by
    rw [(Log.grows_of_writer hs).2]
    exact h.removing
  listed := by
    have hnext := (Log.grows_of_writer hs).1.next_le
    have hl := h.listed
    simp only [Log.next, (Log.grows_of_writer hs).2] at hnext
    simp only
    omega
  covered := h.covered
  renamed := hr

theorem inv_step {a : Act} {s s' : Site C config} (h : s.Inv) (hs : Step a s s') : s'.Inv := by
  cases hs with
  | write _ L hw ha ha' =>
    exact h.writer hw s.synced (fun _ _ => le_refl _) s.renamed fun hr => absurd ha (by simp [h.renamed hr])
  | sync _ whole ha =>
    exact ⟨h.wellFormed, h.checkpoint.sync ha, fun c hc => ⟨(h.window c hc).1.sync ha, (h.window c hc).2⟩,
      h.removing, h.listed, h.covered, h.renamed⟩
  | rename _ L hw ha' _ => exact h.writer hw s.synced (fun _ h' => absurd h' (by simp [ha'])) true fun _ => ha'
  | dirsync _ => exact ⟨h.wellFormed, h.checkpoint, h.window, h.removing, h.listed, h.covered, by simp⟩
  | create _ L hw ha hr => exact h.writer hw 0 (fun h' => absurd h' (by simp [ha])) s.renamed (by simp [hr])
  | read _ names hl maxBytes w hw ws c hd =>
    refine ⟨h.wellFormed, h.checkpoint, fun c' hc' => ?_, rfl, Nat.zero_le _, by simp, h.renamed⟩
    cases hc'
    obtain ⟨hp, hle⟩ := h.checkpoint.window h.wellFormed hl hw hd
    exact ⟨hp, hle, rfl⟩
  | commit _ c hw =>
    obtain ⟨hp, _, hnil⟩ := h.window c hw
    exact ⟨h.wellFormed, hp, by simp, h.removing, h.listed, by simp [hnil], h.renamed⟩
  | reclaim _ names hl l hr =>
    obtain ⟨hrange, hlen, hlt⟩ := h.checkpoint.reclaim h.wellFormed hl hr
    exact ⟨h.wellFormed, h.checkpoint, by simp, hrange, hlen, hlt, h.renamed⟩
  | remove _ l hr L hrem =>
    have hfirst : s.log.first < s.checkpoint.segment := h.covered _ (by rw [hr]; exact List.mem_cons_self)
    have hrange := h.removing
    have hlen := h.listed
    rw [hr] at hrange hlen
    rw [List.length_cons, List.range'_succ, List.cons.injEq] at hrange
    refine ⟨h.wellFormed.remove hrem, h.checkpoint.remove hrem hfirst, fun c hc => ?_, ?_, ?_, fun n hn => ?_, ?_⟩
    · have hnil := (h.window c hc).2.2
      rw [hr] at hnil
      cases hnil
    · cases hrem with
      | oldest => exact hrange.2
    · cases hrem with
      | oldest rs later hsealed =>
        simp only [List.length_cons, hsealed] at hlen ⊢
        omega
    · exact h.covered n (by rw [hr]; exact List.mem_cons_of_mem _ hn)
    · cases hrem with
      | oldest => exact h.renamed
  | crash _ L n hL =>
    obtain ⟨hwf, hp⟩ := h.leaves hL
    exact ⟨hwf.reopened, hp.reopened, by simp, rfl, Nat.zero_le _, by simp, by simp⟩

theorem inv_reached {ok : Act → Site C config → Prop} {s : Site C config} (h : System.Reached fresh Step ok s) : s.Inv :=
  h.invariant inv_fresh fun _ _ _ hi _ hs => inv_step hi hs

end Site
end Hoglet.Wal
