import Hoglet.Wal.Race
import Hoglet.Wal.Reopen

/-! The durable records at or after a cursor, and that the steps of the log leave them as they are. -/
namespace Hoglet.Wal
variable {β : Type} {C : Codec β} {config : WalConfig}

section records
variable {content content' : Nat → List (Rec C config)}

theorem recordsFrom_congr {stop : Nat} {c : WalCursor} (h : ∀ s, c.segment ≤ s → s < stop → content' s = content s) :
    recordsFrom content' stop c = recordsFrom content stop c := by
  unfold recordsFrom
  split
  · rename_i hlt
    rw [h c.segment (le_refl _) hlt, runOf_congr _ _ fun i h1 h2 => h i (by omega) (by omega)]
  · rfl

/-- One more segment. -/
theorem recordsFrom_succ {stop : Nat} {c : WalCursor} (h : c.segment < stop) :
    recordsFrom content (stop + 1) c = recordsFrom content stop c ++ spansOf stop 0 (content stop) := by
  unfold recordsFrom
  rw [if_pos h, if_pos (by omega), List.append_assoc]
  congr 1
  rw [show stop + 1 - (c.segment + 1) = stop - (c.segment + 1) + 1 by omega, runOf_append,
    show c.segment + 1 + (stop - (c.segment + 1)) = stop by omega]
  simp [runOf]

theorem recordsFrom_last {s offset : Nat} :
    recordsFrom content (s + 1) ⟨s, offset⟩ = spansOf s offset (recsAfter offset (content s)) := by
  simp [recordsFrom, runOf]

/-- Segments without records behind the last one. -/
theorem recordsFrom_empty {stop : Nat} {c : WalCursor} (hc : c.segment < stop) (n : Nat)
    (h : ∀ s, stop ≤ s → s < stop + n → content s = []) : recordsFrom content (stop + n) c = recordsFrom content stop c := by
  induction n with
  | zero => rfl
  | succ n ih =>
    rw [← Nat.add_assoc, recordsFrom_succ (by omega), h (stop + n) (by omega) (by omega), ih fun s h1 h2 => h s h1 (by omega)]
    simp [spansOf]

theorem spansOf_append (s offset : Nat) (before after : List (Rec C config)) :
    spansOf s offset (before ++ after) = spansOf s offset before ++ spansOf s (offset + (segBytes C config before).length) after := by
  induction before generalizing offset with
  | nil => simp [spansOf]
  | cons r before ih => simp [spansOf, ih, Rec.framedBytes, Nat.add_assoc]

end records

/-- The records whose bytes are all among the first `n` of a segment that is being written. -/
def Tail.settled (t : Tail C config) (n : Nat) : List (Rec C config) := (t.cut n).whole

/-- The synced bytes of the active segment end with a record. -/
def Log.SyncedTo (L : Log C config) (n : Nat) : Prop :=
  ∀ t, L.active = some t → ∃ before after, t.whole = before ++ after ∧ n = (segBytes C config before).length

/-- What is durable of a segment. -/
def Log.stable (L : Log C config) (n s : Nat) : List (Rec C config) :=
  if s = L.next then (L.active.map (·.settled n)).getD [] else L.content s

/-- Every durable record at or after the cursor, in order. -/
def Log.pending (L : Log C config) (n : Nat) (c : WalCursor) : List (WalRecord β) := Wal.recordsFrom (L.stable n) (L.next + 1) c

namespace Tail

theorem settled_append {t : Tail C config} {before after : List (Rec C config)} (h : t.whole = before ++ after) :
    t.settled (segBytes C config before).length = before := by
  rw [settled, cut, h]
  induction before generalizing t with
  | nil =>
    cases after with
    | nil => rfl
    | cons r after =>
      have hpos := r.framedBytes_pos
      rw [List.nil_append, cutAt, segBytes_nil, List.length_nil, if_neg (by omega)]
  | cons r before ih =>
    have hlen : (segBytes C config (r :: before)).length = r.framedBytes + (segBytes C config before).length := by
      rw [segBytes_cons, List.length_append]
      rfl
    rw [List.cons_append, cutAt, hlen, if_pos (by omega), Nat.add_sub_cancel_left]
    simp only [List.cons.injEq, true_and]
    exact ih (t := ⟨before ++ after, t.torn⟩) rfl

theorem settled_whole {whole : List (Rec C config)} : settled ⟨whole, []⟩ (segBytes C config whole).length = whole :=
  settled_append (List.append_nil whole).symm

end Tail

namespace Log
variable {L M : Log C config} {n m : Nat} {c : WalCursor}

theorem stable_next (L : Log C config) (n : Nat) : L.stable n L.next = (L.active.map (·.settled n)).getD [] := if_pos rfl

theorem stable_ne (L : Log C config) (n : Nat) {s : Nat} (h : s ≠ L.next) : L.stable n s = L.content s := if_neg h

theorem stable_active {t : Tail C config} (ha : L.active = some t) : L.stable n L.next = t.settled n := by
  rw [stable_next, ha, Option.map_some, Option.getD_some]

theorem stable_none (ha : L.active = none) : L.stable n L.next = [] := by
  rw [stable_next, ha, Option.map_none, Option.getD_none]

/-- Two logs that agree on the cursor's segments have the same pending records. -/
theorem pending_congr (hc : c.segment ≤ L.next) (hle : L.next ≤ M.next)
    (hsame : ∀ s, c.segment ≤ s → s ≤ L.next → M.stable m s = L.stable n s)
    (hempty : ∀ s, L.next < s → s ≤ M.next → M.stable m s = []) : M.pending m c = L.pending n c := by
  obtain ⟨k, hk⟩ := Nat.exists_eq_add_of_le hle
  rw [pending, pending, show M.next + 1 = L.next + 1 + k by omega,
    recordsFrom_empty (by omega) k fun s h1 h2 => hempty s (by omega) (by omega)]
  exact recordsFrom_congr fun s h1 h2 => hsame s h1 (by omega)

/-- The pending records are the sealed ones and then those of the active segment. -/
theorem pending_sealed (L : Log C config) (n : Nat) (h : c.segment < L.next) :
    L.pending n c = L.recordsFrom c ++ spansOf L.next 0 (L.stable n L.next) := by
  rw [pending, recordsFrom_succ h, recordsFrom]
  congr 1
  exact recordsFrom_congr fun s _ hs => L.stable_ne n (by omega)

theorem pending_active (L : Log C config) (n offset : Nat) :
    L.pending n ⟨L.next, offset⟩ = spansOf L.next offset (recsAfter offset (L.stable n L.next)) := recordsFrom_last

/-- The pending records are those of the window and then those pending at its end. -/
theorem pending_window {c' : WalCursor} {ws : List (WalRecord β)} (hsplit : L.recordsFrom c = ws ++ L.recordsFrom c')
    (hc : c.segment < L.next) (hc' : c'.segment < L.next ∨ c' = ⟨L.next, 0⟩) : L.pending n c = ws ++ L.pending n c' := by
  rw [L.pending_sealed n hc, hsplit, List.append_assoc]
  congr 1
  rcases hc' with hc' | rfl
  · exact (L.pending_sealed n hc').symm
  · rw [L.pending_active, recordsFrom, recordsFrom_stop, List.nil_append, recsAfter_zero]

theorem SyncedTo.write (h : L.SyncedTo n) (hs : WriterStep L M) (hm : L.active.isSome → m = n) (hm' : L.active = none → m = 0) :
    M.SyncedTo m := by
  cases hs with
  | land whole r j k _ _ ha =>
    rintro t ht
    cases ht
    obtain ⟨before, after, hw, hn⟩ := h _ ha
    exact ⟨before, after, hw, (hm (by simp [ha])).trans hn⟩
  | finish whole r j ha =>
    rintro t ht
    cases ht
    obtain ⟨before, after, hw, hn⟩ := h _ ha
    simp only at hw
    exact ⟨before, after ++ [r], by simp [hw], (hm (by simp [ha])).trans hn⟩
  | rename => exact fun t ht => by cases ht
  | create ha =>
    rintro t ht
    cases ht
    exact ⟨[], [], rfl, hm' ha⟩

/-- Writing, sealing and creating a segment change nothing that is durable. -/
theorem pending_write (h : L.SyncedTo n) (hs : WriterStep L M) (hm : L.active.isSome → m = n)
    (hsealed : M.active = none → ∀ t, L.active = some t → n = t.bytes.length) (hc : c.segment ≤ L.next) :
    M.pending m c = L.pending n c := by
  have hg := (grows_of_writer hs).1
  have hfirst := (grows_of_writer hs).2
  have hcontent : ∀ s, s < L.next → M.content s = L.content s := fun s hs' => by
    by_cases hf : M.first ≤ s
    · exact hg.content s hf hs'
    · rw [content, content, segment, segment, if_neg hf, if_neg (hfirst ▸ hf)]
  refine pending_congr hc hg.next_le (fun s _ hs' => ?_) fun s hlt hle => ?_
  · obtain hlt | rfl := hs'.lt_or_eq
    · rw [L.stable_ne n (by omega), M.stable_ne m (by have := hg.next_le; omega), hcontent s hlt]
    · cases hs with
      | land whole r j k _ _ ha =>
        obtain ⟨before, after, hw, hn⟩ := h _ ha
        rw [stable_active ha, hn, Tail.settled_append hw]
        refine (stable_active rfl).trans ?_
        rw [hm (by simp [ha]), hn]
        exact Tail.settled_append (t := ⟨whole, r.frame.take k⟩) hw
      | finish whole r j ha =>
        obtain ⟨before, after, hw, hn⟩ := h _ ha
        simp only at hw
        rw [stable_active ha, hn, Tail.settled_append hw]
        refine (stable_active rfl).trans ?_
        rw [hm (by simp [ha]), hn, Tail.settled_append (t := ⟨whole ++ [r], []⟩) (show _ = before ++ (after ++ [r]) by simp [hw])]
      | rename whole hne ha =>
        have hn := hsealed rfl _ ha
        rw [stable_active ha, hn, show (Tail.bytes (C := C) ⟨whole, []⟩) = segBytes C config whole from List.append_nil _,
          Tail.settled_whole]
        have hlast := content_eq { L with sealed := L.sealed ++ [whole], active := none } (s := L.next) (Nat.le_add_right _ _)
        refine (stable_ne _ _ (by simp [next])).trans (hlast.trans ?_)
        simp [next]
      | create ha =>
        rw [stable_none ha]
        exact (stable_active rfl).trans (by simp [Tail.settled, Tail.cut, Tail.cutAt])
  · cases hs with
    | rename whole hne ha =>
      have hs' : s = next { L with sealed := L.sealed ++ [whole], active := none } := by
        simp only [next, List.length_append, List.length_singleton] at hlt hle ⊢
        omega
      rw [hs', stable_none rfl]
    | land | finish | create =>
      simp only [next] at hlt hle
      omega

/-- A sync adds the records behind the bytes that were synced before. -/
theorem pending_sync {whole : List (Rec C config)} (h : L.SyncedTo n) (hp : L.Placed n c) (ha : L.active = some ⟨whole, []⟩)
    (hc : c.segment ≤ L.next) :
    L.pending (segBytes C config whole).length c = L.pending n c ++ spansOf L.next n (recsAfter n whole) := by
  obtain ⟨before, after, hw, rfl⟩ := h _ ha
  simp only at hw
  have hold : L.stable (segBytes C config before).length L.next = before := by
    rw [stable_active ha]
    exact Tail.settled_append hw
  have hnew : L.stable (segBytes C config whole).length L.next = before ++ after := by
    rw [stable_active ha, ← hw]
    exact Tail.settled_whole
  have hafter : recsAfter (segBytes C config before).length whole = after := by rw [hw, recsAfter_append]
  rw [hafter]
  obtain hlt | heq := hc.lt_or_eq
  · rw [L.pending_sealed _ hlt, L.pending_sealed _ hlt, hold, hnew, List.append_assoc, spansOf_append, Nat.zero_add]
  · obtain ⟨s, offset⟩ := c
    simp only at heq
    subst heq
    rw [L.pending_active, L.pending_active, hold, hnew]
    -- the cursor is at a record of the synced part, or at its start
    have hat : ∃ first rest, before = first ++ rest ∧ offset = (segBytes C config first).length := by
      cases hp with
      | sealed _ _ _ _ hlt => exact absurd hlt (lt_irrefl _)
      | ahead _ ho => exact ⟨[], before, rfl, ho⟩
      | active t first r rest ha' _ hc ho hsync =>
        rw [ha] at ha'
        cases ha'
        simp only at hc
        rw [hw] at hc
        rcases List.append_eq_append_iff.mp hc with ⟨more, rfl, hmore⟩ | ⟨more, hbefore, -⟩
        · have hpos := r.framedBytes_pos
          simp only [segBytes_append, segBytes_cons, segBytes_nil, List.length_append, List.length_nil, Rec.framedBytes] at hsync hpos
          omega
        · exact ⟨first, more, hbefore, ho⟩
    obtain ⟨first, rest, rfl, rfl⟩ := hat
    rw [List.append_assoc, recsAfter_append, recsAfter_append, spansOf_append, segBytes_append, List.length_append]

/-- The removal of a segment before the cursor's. -/
theorem pending_remove (hs : RemoveStep L M) (hlt : L.first < c.segment) (hc : c.segment ≤ L.next) : M.pending n c = L.pending n c := by
  have hg := grows_of_remove hs
  have hnext : M.next = L.next := by
    cases hs with
    | oldest rs later hs => simp only [next, hs, List.length_cons]; omega
  have hactive : M.active = L.active := by cases hs; rfl
  have hfirst : M.first = L.first + 1 := by cases hs; rfl
  refine pending_congr hc hnext.ge (fun s h1 h2 => ?_) fun s h1 h2 => by omega
  obtain hlt' | rfl := h2.lt_or_eq
  · rw [L.stable_ne n (by omega), M.stable_ne n (by omega), hg.content s (by omega) hlt']
  · rw [stable_next, ← hnext, stable_next, hactive]

theorem SyncedTo.cut (h : L.SyncedTo n) {k : Nat} (hk : n ≤ k) : (L.cut k).SyncedTo n := by
  intro t ht
  obtain ⟨t, ht', rfl⟩ := Option.map_eq_some_iff.mp ht
  obtain ⟨before, after, hw, rfl⟩ := h t ht'
  obtain ⟨later, hl⟩ := t.cut_keeps hw hk
  exact ⟨before, later, hl, rfl⟩

/-- A cut behind the synced bytes. -/
theorem pending_cut (h : L.SyncedTo n) {k : Nat} (hk : n ≤ k) (hc : c.segment ≤ L.next) : (L.cut k).pending n c = L.pending n c := by
  refine pending_congr hc (le_refl _) (fun s _ h2 => ?_) fun s h1 h2 => absurd (h1.trans_le h2) (lt_irrefl _)
  obtain hlt | rfl := h2.lt_or_eq
  · rw [L.stable_ne n (by omega), (L.cut k).stable_ne n (show s ≠ L.next by omega), cut_content]
  · cases ha : L.active with
    | none =>
      rw [stable_none ha]
      exact stable_none (L := L.cut k) (by simp [Log.cut, ha])
    | some t =>
      obtain ⟨before, after, hw, rfl⟩ := h t ha
      obtain ⟨later, hl⟩ := t.cut_keeps hw hk
      rw [stable_active ha, Tail.settled_append hw]
      exact (stable_active (L := L.cut k) (t := t.cut k) (by simp [Log.cut, ha])).trans (Tail.settled_append hl)

theorem SyncedTo.reopened (h : L.SyncedTo n) : L.reopened.SyncedTo (if L.active = none then 0 else n) := by
  intro t ht
  unfold Log.reopened at ht
  cases ha : L.active with
  | some t' =>
    simp only [ha] at ht
    cases ht
    obtain ⟨before, after, hw, hn⟩ := h t' ha
    exact ⟨before, after, hw, by simpa using hn⟩
  | none =>
    simp only [ha] at ht
    refine ⟨[], t.whole, rfl, by simp⟩

/-- `open` goes on with what is durable, when the directory shows the next sequence. -/
theorem pending_reopened (h : L.SyncedTo n) (hknown : L.active = none → L.sealed ≠ []) (hc : c.segment ≤ L.next) :
    L.reopened.pending (if L.active = none then 0 else n) c = L.pending n c := by
  cases ha : L.active with
  | some t =>
    have hr : L.reopened = { L with active := some ⟨t.whole, []⟩ } := by simp only [Log.reopened, ha]
    obtain ⟨before, after, hw, hn⟩ := h t ha
    rw [hr, if_neg (by simp)]
    refine pending_congr hc (le_refl _) (fun s _ h2 => ?_) fun s h1 h2 => absurd (h1.trans_le h2) (lt_irrefl _)
    obtain hlt | rfl := h2.lt_or_eq
    · rw [L.stable_ne n (by omega)]
      exact stable_ne _ n (show s ≠ L.next by omega)
    · rw [stable_active ha, hn, Tail.settled_append hw]
      exact (stable_active rfl).trans (Tail.settled_append (t := ⟨t.whole, []⟩) hw)
  | none =>
    have hr : L.reopened = { L with active := some ⟨[], []⟩ } := by simp only [Log.reopened, ha, hknown ha, if_false]
    rw [hr, if_pos rfl]
    refine pending_congr hc (le_refl _) (fun s _ h2 => ?_) fun s h1 h2 => absurd (h1.trans_le h2) (lt_irrefl _)
    obtain hlt | rfl := h2.lt_or_eq
    · rw [L.stable_ne n (by omega)]
      exact stable_ne _ 0 (show s ≠ L.next by omega)
    · rw [stable_none ha]
      exact (stable_active rfl).trans (by simp [Tail.settled, Tail.cut, Tail.cutAt])

theorem SyncedTo.undoRename (hM : L.undoRename = some M) (hm : ∀ t, M.active = some t → m = t.bytes.length) : M.SyncedTo m := by
  obtain ⟨last, -, rfl⟩ := Option.map_eq_some_iff.mp hM
  rintro t ⟨⟩
  exact ⟨last, [], by simp, by rw [hm _ rfl, Tail.bytes, List.append_nil]⟩

/-- A rename undone before the cursor has passed it. -/
theorem pending_undoRename (hnone : L.active = none) (hM : L.undoRename = some M) (hm : ∀ t, M.active = some t → m = t.bytes.length)
    (hc : c.segment < L.next) : M.pending m c = L.pending n c := by
  obtain ⟨last, hlast, rfl⟩ := Option.map_eq_some_iff.mp hM
  obtain ⟨pre, hpre⟩ := List.getLast?_eq_some_iff.mp hlast
  have hm := hm _ rfl
  simp only [hpre, List.dropLast_concat]
  have hnext : L.next = L.first + pre.length + 1 := by simp only [next, hpre, List.length_append, List.length_singleton]; omega
  set M : Log C config := { L with sealed := pre, active := some ⟨last, []⟩ } with hMdef
  have hMnext : M.next = L.first + pre.length := rfl
  refine (pending_congr (by omega) (by omega) (fun s h1 h2 => ?_) fun s h1 h2 => ?_).symm
  · rw [L.stable_ne n (by omega)]
    by_cases hf : L.first ≤ s
    · rw [L.content_eq hf, hpre]
      obtain hlt | rfl := h2.lt_or_eq
      · rw [M.stable_ne m (by omega), M.content_eq hf, List.getElem?_append_left (by omega)]
      · rw [stable_active rfl, hm, show Tail.bytes (C := C) ⟨last, []⟩ = segBytes C config last from List.append_nil _,
          Tail.settled_whole, hMnext]
        simp
    · rw [M.stable_ne m (by omega), content, content, segment, segment, if_neg hf, if_neg hf]
  · obtain rfl : s = L.next := by omega
    exact stable_none hnone

/-- A window takes the first of the pending records, and none only when no sealed record is left. -/
theorem Placed.drained (hwf : L.WellFormed) (h : L.Placed n c) {names : List Path} (hl : Lists L.dir names) {maxBytes : Nat}
    {w : PublicationWindow} (hw : readWindow C config (fun _ => .still names L.dir) c maxBytes = .ok w) {ws : List (WalRecord β)}
    {c' : WalCursor} (hd : drain C config L.dir w = .ok (ws, c')) :
    L.pending n c = ws ++ L.pending n c' ∧ (ws = [] → L.recordsFrom c = []) := by
  have hm : maxBytes ≠ 0 := by
    rintro rfl
    simp [readWindow] at hw
  rw [readWindow_still L (fun _ => hl) c hm, h.validate hwf] at hw
  cases hv : L.validated c with
  | error e => simp [hv, Except.map] at hw
  | ok valid =>
    obtain ⟨hle, hsealed⟩ := h.of_validated hv
    have hsegs : L.layout.sealed.filter (c.segment ≤ ·) = List.range' c.segment (L.next - c.segment) :=
      filter_range' _ _ _ h.first_le
    simp only [hv, Except.map, Except.ok.injEq, L.terminal hsealed, hsegs] at hw
    subst hw
    by_cases hlt : c.segment < L.next
    · have hstands : PublicationWindow.Stands L.content L.next L.first
          ⟨⟨⟨List.range' c.segment (L.next - c.segment), none, c⟩, some ⟨L.next, 0⟩, false⟩, c, maxBytes, 0, false⟩ := by
        cases h with
        | sealed before r after hf _ hc ho => exact ⟨rfl, rfl, rfl, .inl ⟨hlt, rfl, before, r :: after, hc, ho, .inl rfl⟩, rfl, hf⟩
        | active _ _ _ _ _ hs => omega
        | ahead hs => omega
      obtain ⟨ws', ck, hdrain, hsplit, ⟨-, hpos⟩, -, hprogress, -⟩ := drain_stands L hstands rfl
      rw [hdrain] at hd
      cases hd
      refine ⟨pending_window hsplit hlt (hpos.imp_left fun h => h.1), fun hnil => ?_⟩
      by_contra hne
      exact hprogress hne hnil
    · have hnone : L.next - c.segment = 0 := by omega
      simp only [hnone, List.range'_zero, drain, drainFrom, PublicationWindow.nextItem,
        SealedRecords.nextItem, nextRecord, Bool.false_eq_true, if_false, Option.getD_some, Except.ok.injEq,
        Prod.mk.injEq] at hd
      obtain ⟨rfl, rfl⟩ := hd
      exact ⟨rfl, fun _ => if_neg hlt⟩

end Log

namespace Site

/-- The steps that neither sync nor publish leave the durable records at or after a cursor as they are, when
what they remove or undo lies before it. -/
theorem Step.pending {a : Act} {s s' : Site C config} (hk : s.Kept) (hsync : s.log.SyncedTo s.synced) (h : Step a s s')
    (hnot : a ≠ .sync ∧ a ≠ .read ∧ a ≠ .commit) : s'.checkpoint = s.checkpoint ∧ s'.log.SyncedTo s'.synced ∧
      ∀ c : WalCursor, c.segment ≤ s.log.next → (a = .remove → s.log.first < c.segment) →
        (a = .crash → s.renamed = true → c.segment < s.log.next) →
          s'.log.pending s'.synced c = s.log.pending s.synced c := by
  cases h with
  | sync | read | commit => simp at hnot
  | write _ L hw ha ha' =>
    have hnone : s.log.active ≠ none := Option.isSome_iff_ne_none.mp ha
    refine ⟨rfl, hsync.write hw (fun _ => rfl) fun h => absurd h hnone, fun c hc _ _ => Log.pending_write hsync hw (fun _ => rfl) (fun h => ?_) hc⟩
    rw [h] at ha'
    cases ha'
  | rename _ L hw ha' hs =>
    have hsome : s.log.active ≠ none := fun hnone => by
      cases hw with
      | land _ _ _ _ _ _ ha | finish _ _ _ ha | rename _ _ ha => rw [hnone] at ha; cases ha
      | create => cases ha'
    refine ⟨rfl, fun t ht => ?_, fun c hc _ _ => Log.pending_write hsync hw (fun _ => rfl) (fun _ => hs) hc⟩
    rw [show L.active = none from ha'] at ht
    cases ht
  | dirsync => exact ⟨rfl, hsync, fun _ _ _ _ => rfl⟩
  | create _ L hw ha _ =>
    have hnone : ¬ s.log.active.isSome := by simp [ha]
    refine ⟨rfl, hsync.write hw (fun h => absurd h hnone) fun _ => rfl, fun c hc _ _ =>
      Log.pending_write hsync hw (fun h => absurd h hnone) (fun _ t ht => ?_) hc⟩
    rw [ha] at ht
    cases ht
  | reclaim => exact ⟨rfl, hsync, fun _ _ _ _ => rfl⟩
  | remove _ l hr L hrem =>
    refine ⟨rfl, ?_, fun c hc hlt _ => Log.pending_remove hrem (hlt rfl) hc⟩
    cases hrem with
    | oldest => exact hsync
  | crash _ L n hL =>
    obtain ⟨hle, hknown⟩ := hk.leaves hL
    have hleft : L.SyncedTo n ∧ ∀ c : WalCursor, c.segment ≤ s.log.next → (s.renamed = true → c.segment < s.log.next) →
        c.segment ≤ L.next ∧ L.pending n c = s.log.pending s.synced c := by
      cases hL with
      | cut k hk' => exact ⟨hsync.cut hk', fun c hc _ => ⟨hc, Log.pending_cut hsync hk' hc⟩⟩
      | undone hr _ hL _ hn =>
        refine ⟨Log.SyncedTo.undoRename hL hn, fun c hc hlt => ⟨?_, Log.pending_undoRename (hk.inv.renamed hr) hL hn (hlt hr)⟩⟩
        have hlt := hlt hr
        obtain ⟨last, hlast, rfl⟩ := Option.map_eq_some_iff.mp hL
        obtain ⟨pre, hpre⟩ := List.getLast?_eq_some_iff.mp hlast
        simp only [Log.next, hpre, List.length_append, List.length_singleton, List.dropLast_concat] at hlt ⊢
        omega
    refine ⟨rfl, hleft.1.reopened, fun c hc _ hlt => ?_⟩
    obtain ⟨hc', heq⟩ := hleft.2 c hc (hlt rfl)
    rw [← heq]
    exact Log.pending_reopened hleft.1 hknown hc'

end Site

end Hoglet.Wal
