import Hoglet.Wal.Reclaim
import Hoglet.Wal.Restart
import Hoglet.Wal.Run

/-! Where a committed cursor can lie in the log, how the steps of the writer, the publisher and a crash
keep it there, and what validating it finds. -/
namespace Hoglet.Wal
variable {β : Type} {C : Codec β} {config : WalConfig}

/-- The directory with its last rename undone. -/
def Log.undoRename (L : Log C config) : Option (Log C config) :=
  L.sealed.getLast?.map fun last => { L with sealed := L.sealed.dropLast, active := some ⟨last, []⟩ }

/-- Where a checkpoint can lie: at a record of a sealed segment, at a synced record of the active one,
or at the start of a segment that is not sealed yet. -/
inductive Log.Placed (L : Log C config) (synced : Nat) (c : WalCursor) : Prop
  | sealed (before : List (Rec C config)) (r : Rec C config) (after : List (Rec C config)) (hf : L.first ≤ c.segment)
      (hlt : c.segment < L.next) (hc : L.content c.segment = before ++ r :: after)
      (ho : c.byteOffset = (segBytes C config before).length)
  | active (t : Tail C config) (before : List (Rec C config)) (r : Rec C config) (after : List (Rec C config))
      (ha : L.active = some t) (hs : c.segment = L.next) (hc : t.whole = before ++ r :: after)
      (ho : c.byteOffset = (segBytes C config before).length) (hsync : (segBytes C config (before ++ [r])).length ≤ synced)
  | ahead (hs : L.next ≤ c.segment) (ho : c.byteOffset = 0)

namespace Log

theorem content_mem (L : Log C config) {s : Nat} (hf : L.first ≤ s) (hlt : s < L.next) : L.content s ∈ L.sealed := by
  have hs := L.segment_eq_some hf hlt
  rw [segment, if_pos hf] at hs
  exact List.mem_of_getElem? hs

/-- The start of a sealed segment is a record. -/
theorem WellFormed.placed_start {L : Log C config} (h : L.WellFormed) (synced : Nat) {s : Nat} (hf : L.first ≤ s) :
    L.Placed synced ⟨s, 0⟩ := by
  by_cases hlt : s < L.next
  · obtain ⟨r, after, hc⟩ := List.exists_cons_of_ne_nil (h.nonempty _ (L.content_mem hf hlt))
    exact .sealed [] r after hf hlt hc rfl
  · exact .ahead (Nat.le_of_not_lt hlt) rfl

theorem Placed.first_le {L : Log C config} {synced : Nat} {c : WalCursor} (h : L.Placed synced c) : L.first ≤ c.segment := by
  have hn : L.first ≤ L.next := Nat.le_add_right _ _
  cases h with
  | sealed _ _ _ hf => exact hf
  | active _ _ _ _ _ hs => omega
  | ahead hs => omega

/-- A cursor in the log keeps its place when more of the log is synced or written. -/
theorem Placed.grow {L M : Log C config} {n m : Nat} {c : WalCursor} (h : L.Placed n c) (hfirst : M.first ≤ c.segment)
    (hnext : L.next = M.next) (hcontent : ∀ s, M.first ≤ s → s < L.next → M.content s = L.content s)
    (hactive : ∀ t before r after, L.active = some t → t.whole = before ++ r :: after →
      (segBytes C config (before ++ [r])).length ≤ n →
      ∃ t' after', M.active = some t' ∧ t'.whole = before ++ r :: after' ∧ (segBytes C config (before ++ [r])).length ≤ m) :
    M.Placed m c := by
  cases h with
  | sealed before r after hf hlt hc ho =>
    exact .sealed before r after hfirst (hnext ▸ hlt) (by rw [hcontent _ hfirst hlt, hc]) ho
  | active t before r after ha hs hc ho hsync =>
    obtain ⟨t', after', ha', hc', hm⟩ := hactive t before r after ha hc hsync
    exact .active t' before r after' ha' (hs.trans hnext) hc' ho hm
  | ahead hs ho => exact .ahead (hnext ▸ hs) ho

theorem WellFormed.write {L M : Log C config} (h : L.WellFormed) (hs : WriterStep L M) : M.WellFormed := by
  cases hs with
  | land whole r j k _ hk _ => exact ⟨h.nonempty, fun t ht => by cases ht; exact .take whole r hk⟩
  | finish => exact ⟨h.nonempty, fun t ht => by cases ht; exact .inl rfl⟩
  | rename whole hne _ =>
    refine ⟨fun rs hrs => ?_, fun t ht => by cases ht⟩
    rcases List.mem_append.mp hrs with hrs | hrs
    · exact h.nonempty rs hrs
    · rw [List.mem_singleton.mp hrs]
      exact hne
  | create => exact ⟨h.nonempty, fun t ht => by cases ht; exact .inl rfl⟩

theorem WellFormed.remove {L M : Log C config} (h : L.WellFormed) (hs : RemoveStep L M) : M.WellFormed := by
  cases hs with
  | oldest rs later hs =>
    exact ⟨fun rs' hrs => h.nonempty rs' (by rw [hs]; exact List.mem_cons_of_mem _ hrs), h.tail⟩

theorem WellFormed.undoRename {L M : Log C config} (h : L.WellFormed) (hM : L.undoRename = some M) : M.WellFormed := by
  obtain ⟨last, _, rfl⟩ := Option.map_eq_some_iff.mp hM
  exact ⟨fun rs hrs => h.nonempty rs (List.dropLast_subset _ hrs), fun t ht => by cases ht; exact .inl rfl⟩

/-- The writer's steps do not displace a cursor. -/
theorem Placed.write {L M : Log C config} {n : Nat} {c : WalCursor} (hL : L.WellFormed) (h : L.Placed n c)
    (hs : WriterStep L M) (m : Nat) (hm : L.active.isSome → M.active.isSome → n ≤ m) : M.Placed m c := by
  have hwf := hL.write hs
  have hg := (grows_of_writer hs).1
  have hfirst : M.first ≤ c.segment := by rw [(grows_of_writer hs).2]; exact h.first_le
  cases hs with
  | land whole r j k _ _ ha =>
    refine h.grow hfirst rfl (fun s hf hlt => hg.content s hf hlt) fun t before r' after ht hc hle => ?_
    rw [ha] at ht
    cases ht
    exact ⟨_, after, rfl, hc, hle.trans (hm (by simp [ha]) rfl)⟩
  | finish whole r j ha =>
    refine h.grow hfirst rfl (fun s hf hlt => hg.content s hf hlt) fun t before r' after ht hc hle => ?_
    rw [ha] at ht
    cases ht
    exact ⟨_, after ++ [r], rfl, by simp only at hc; simp [hc], hle.trans (hm (by simp [ha]) rfl)⟩
  | rename whole hne ha =>
    cases h with
    | sealed before r after hf hlt hc ho =>
      exact .sealed before r after hf (hlt.trans_le hg.next_le) (by rw [hg.content _ hf hlt, hc]) ho
    | active t before r after ht hs hc ho =>
      rw [ha] at ht
      cases ht
      refine .sealed before r after hfirst (by rw [hs]; simp [next]) ?_ ho
      rw [content_eq _ hfirst, hs]
      simpa [next] using hc
    | ahead hs ho =>
      obtain ⟨s, _⟩ := c
      cases ho
      exact hwf.placed_start m hfirst
  | create ha =>
    refine h.grow hfirst rfl (fun s hf hlt => hg.content s hf hlt) fun t before r after ht => ?_
    rw [ha] at ht
    cases ht

theorem Placed.sync {L : Log C config} {n : Nat} {c : WalCursor} (h : L.Placed n c) {whole : List (Rec C config)} {torn : Bytes}
    (ha : L.active = some ⟨whole, torn⟩) : L.Placed (segBytes C config whole).length c := by
  refine h.grow h.first_le rfl (fun _ _ _ => rfl) fun t before r after ht hc _ => ⟨t, after, ht, hc, ?_⟩
  rw [ha] at ht
  cases ht
  simp only at hc
  simp only [hc, segBytes_append, segBytes_cons, segBytes_nil, List.length_append, List.length_nil]
  omega

theorem Placed.remove {L M : Log C config} {n : Nat} {c : WalCursor} (h : L.Placed n c) (hs : RemoveStep L M)
    (hlt : L.first < c.segment) : M.Placed n c := by
  have hg := grows_of_remove hs
  cases hs with
  | oldest rs later hs =>
    refine h.grow hlt (by simp [next, hs]; omega) (fun s hf hlt => hg.content s hf hlt) fun t before r after ht hc hle => ?_
    exact ⟨t, after, ht, hc, hle⟩

theorem Placed.cut {L : Log C config} {n : Nat} {c : WalCursor} (h : L.Placed n c) {k : Nat} (hk : n ≤ k) :
    (L.cut k).Placed n c := by
  refine h.grow h.first_le rfl (fun _ _ _ => rfl) fun t before r after ht hc hle => ?_
  have hsplit : t.whole = (before ++ [r]) ++ after := by simp [hc]
  obtain ⟨later, hl⟩ := t.cut_keeps hsplit (hle.trans hk)
  exact ⟨t.cut k, later, by simp [Log.cut, ht], by simp [hl], hle⟩

theorem Placed.undoRename {L M : Log C config} {n : Nat} {c : WalCursor} (h : L.Placed n c) (hnone : L.active = none)
    (hM : L.undoRename = some M) (m : Nat) (hm : ∀ t, M.active = some t → m = t.bytes.length) : M.Placed m c := by
  obtain ⟨last, hlast, hMeq⟩ := Option.map_eq_some_iff.mp hM
  obtain ⟨pre, hpre⟩ := List.getLast?_eq_some_iff.mp hlast
  have hfirst : M.first = L.first := by rw [← hMeq]
  have hsealed : M.sealed = pre := by rw [← hMeq, hpre, List.dropLast_concat]
  have hactive : M.active = some ⟨last, []⟩ := by rw [← hMeq]
  have hn : L.next = M.next + 1 := by simp only [next, hfirst, hsealed, hpre, List.length_append, List.length_singleton]; omega
  cases h with
  | sealed before r after hf hlt hc ho =>
    rw [content_eq _ hf, hpre] at hc
    by_cases heq : c.segment = M.next
    · have hi : c.segment - L.first = pre.length := by rw [heq, next, hfirst, hsealed]; omega
      rw [hi, List.getElem?_append_right (le_refl _), Nat.sub_self, List.getElem?_cons_zero, Option.getD_some] at hc
      refine .active ⟨last, []⟩ before r after hactive heq hc ho ?_
      rw [hm _ hactive]
      simp only [Tail.bytes, hc, segBytes_append, segBytes_cons, segBytes_nil, List.length_append, List.length_nil]
      omega
    · have hlt' : c.segment < M.next := by omega
      refine .sealed before r after (hfirst ▸ hf) hlt' ?_ ho
      rw [content_eq _ (hfirst ▸ hf), hsealed, hfirst]
      rwa [List.getElem?_append_left (by simp only [next, hfirst, hsealed] at hlt'; omega)] at hc
  | active t _ _ _ ha =>
    rw [hnone] at ha
    cases ha
  | ahead hs ho => exact .ahead (by omega) ho

theorem Placed.reopened {L : Log C config} {n : Nat} {c : WalCursor} (h : L.Placed n c) :
    L.reopened.Placed (if L.active = none then 0 else n) c := by
  cases ha : L.active with
  | some t =>
    have hr : L.reopened = { L with active := some ⟨t.whole, []⟩ } := by simp only [Log.reopened, ha]
    rw [hr, if_neg (by simp)]
    refine h.grow h.first_le rfl (fun _ _ _ => rfl) fun t' before r after ht hc hle => ?_
    rw [ha] at ht
    cases ht
    exact ⟨_, after, rfl, hc, hle⟩
  | none =>
    rw [if_pos rfl]
    by_cases hnil : L.sealed = []
    · have hr : L.reopened = ⟨1, Nat.one_pos, [], some ⟨[], []⟩⟩ := by simp only [Log.reopened, ha, hnil, if_true]
      have hn : L.next = L.first := by simp [next, hnil]
      have := L.first_pos
      rw [hr]
      cases h with
      | sealed _ _ _ hf hlt => omega
      | active _ _ _ _ ha' => rw [ha] at ha'; cases ha'
      | ahead hs ho => exact .ahead (by simp only [next, List.length_nil]; omega) ho
    · have hr : L.reopened = { L with active := some ⟨[], []⟩ } := by simp only [Log.reopened, ha, hnil, if_false]
      rw [hr]
      refine h.grow h.first_le rfl (fun _ _ _ => rfl) fun t before r after ht => ?_
      rw [ha] at ht
      cases ht

/-- What validating a placed cursor finds: a sealed segment, the active one, or the one created next. -/
def validated (L : Log C config) (c : WalCursor) : Except WalError Nat :=
  if c.segment < L.next then .ok (segBytes C config (L.content c.segment)).length
  else if c.segment = L.next ∧ L.active = none ∧ L.sealed ≠ [] then .ok 0
  else match (if c.segment = L.next then L.active else none) with
    | none => .error (.corruption c.segment c.byteOffset .cursorSegmentMissing)
    | some t =>
      if t.torn = [] then .ok (segBytes C config t.whole).length
      else .error (.corruption L.next (segBytes C config t.whole).length (tornReason t.torn))

theorem Placed.validate {L : Log C config} (hwf : L.WellFormed) {n : Nat} {c : WalCursor} (h : L.Placed n c) :
    validateCursor C config L.layout L.dir L.dir c = L.validated c := by
  unfold validated
  by_cases hlt : c.segment < L.next
  · rw [if_pos hlt]
    cases h with
    | sealed before r after hf _ hc ho =>
      have hdir := L.dir_sealed hf hlt
      rw [hc] at hdir ⊢
      exact validateCursor_found (L.cursorPath_sealed hf hlt) hdir hdir ho
    | active _ _ _ _ _ hs => omega
    | ahead hs => omega
  rw [if_neg hlt]
  have hnot : c.segment ∉ L.layout.sealed := fun hm => hlt ((L.mem_layout_sealed _).mp hm).2
  by_cases hseg : c.segment = L.next
  · obtain ⟨s, offset⟩ := c
    simp only at hseg
    subst hseg
    simp only [true_and, if_true] at hnot ⊢
    cases ha : L.active with
    | some t =>
      simp only [reduceCtorEq, false_and, if_false]
      have hpath : cursorPath L.layout L.next = some (activePath L.next) := by
        rw [cursorPath, if_neg hnot, if_pos (by simp [layout, ha])]
      have hscan := t.scanSegment_bytes (hwf.tail t ha) L.next false
      by_cases htorn : t.torn = []
      · rw [if_pos htorn]
        have hdir := L.dir_active ha
        rw [Tail.bytes, htorn, List.append_nil] at hdir
        have hat : ∃ before after, t.whole = before ++ after ∧ offset = (segBytes C config before).length := by
          cases h with
          | sealed _ _ _ _ hlt' => omega
          | active t' before r after ha' _ hc ho =>
            rw [ha] at ha'
            cases ha'
            exact ⟨before, r :: after, hc, ho⟩
          | ahead _ ho => exact ⟨[], t.whole, rfl, ho⟩
        obtain ⟨before, after, hc, ho⟩ := hat
        rw [hc] at hdir ⊢
        exact validateCursor_found hpath hdir hdir ho
      · rw [if_neg htorn, if_neg Bool.false_ne_true] at hscan
        rw [if_neg htorn]
        simp only [validateCursor, hpath, openFile, L.dir_active ha, bind, Except.bind, hscan]
    | none =>
      have hpath : cursorPath L.layout L.next = none := by
        rw [cursorPath, if_neg hnot, if_neg (by simp [layout, ha])]
      have hoff : offset = 0 := by
        cases h with
        | sealed _ _ _ _ hlt' => omega
        | active _ _ _ _ ha' => rw [ha] at ha'; cases ha'
        | ahead _ ho => exact ho
      subst hoff
      by_cases hnil : L.sealed = []
      · have hnext : L.layout.nextSegmentCursor = none := by simp [SegmentLayout.nextSegmentCursor, layout, ha, hnil]
        simp [validateCursor, hpath, hnext, hnil]
      · simp [validateCursor, hpath, L.nextSegmentCursor_eq ha hnil, hnil]
  · have hoff : c.byteOffset = 0 := by
      cases h with
      | sealed _ _ _ _ hlt' => omega
      | active _ _ _ _ _ hs => omega
      | ahead _ ho => exact ho
    have hact : L.layout.active ≠ some c.segment := by
      cases ha : L.active with
      | none => simp [layout, ha]
      | some t => simpa [layout, ha] using fun h => hseg h.symm
    have hnext : L.layout.nextSegmentCursor ≠ some c := by
      by_cases hno : L.active = none ∧ L.sealed ≠ []
      · rw [L.nextSegmentCursor_eq hno.1 hno.2]
        intro he
        cases he
        exact hseg rfl
      · have hnone : L.layout.nextSegmentCursor = none := by
          cases ha : L.active with
          | some t => simp [SegmentLayout.nextSegmentCursor, layout, ha]
          | none =>
            have hnil : L.sealed = [] := by
              by_contra hne
              exact hno ⟨ha, hne⟩
            simp [SegmentLayout.nextSegmentCursor, layout, ha, hnil]
        simp [hnone]
    simp [validateCursor, cursorPath, hnot, hact, hnext, hseg]

end Log
end Hoglet.Wal
