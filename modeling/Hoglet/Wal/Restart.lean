import Hoglet.Wal.Recovery

/-! What `open` makes of a log whose active segment a crash has cut at any byte. -/
namespace Hoglet.Wal
variable {β : Type} {C : Codec β} {config : WalConfig}

/-- The check that stops the scan of a frame that has landed in part. -/
def tornReason (torn : Bytes) : Reason :=
  if torn.length < recordHeaderBytes then .incompleteHeader else .incompletePayload

theorem probe_cut (r : Rec C config) {j : Nat} (h0 : 0 < j) (hj : j < r.framedBytes) :
    probe C config (r.frame.take j) = .bad (tornReason (r.frame.take j)) := by
  have hlen : (r.frame.take j).length = j := by
    rw [List.length_take]
    exact Nat.min_eq_left hj.le
  have hne : r.frame.take j ≠ [] := by
    intro h
    rw [h] at hlen
    simp at hlen
    omega
  have hf := r.fits
  have hmax := config.max_le
  rw [probe, if_neg hne, hlen, tornReason, hlen]
  by_cases h16 : j < recordHeaderBytes
  · rw [if_pos h16, if_pos h16]
  · obtain ⟨i, rfl⟩ : ∃ i, j = recordHeaderBytes + i := ⟨j - recordHeaderBytes, by omega⟩
    have hlen32 : r.payload.length < 2^32 := by omega
    obtain ⟨hv, hh, _⟩ := tornFrame_body (j := i) (z := 0) hlen32
    have htorn : tornFrame r.payload (recordHeaderBytes + i) 0 = r.frame.take (recordHeaderBytes + i) := by
      simp [tornFrame, Rec.frame]
    rw [htorn] at hv hh
    have hframe : r.framedBytes = recordHeaderBytes + r.payload.length := encodeFrame_length _
    rw [if_neg h16, if_neg h16, hv]
    simp only [hh]
    rw [if_neg (by omega), if_pos (by omega)]

namespace Tail

/-- What has landed behind the whole records is nothing, or part of one frame and not all of it. -/
def Partial (t : Tail C config) : Prop :=
  t.torn = [] ∨ ∃ (r : Rec C config) (j : Nat), 0 < j ∧ j < r.framedBytes ∧ t.torn = r.frame.take j

theorem Partial.take (whole : List (Rec C config)) (r : Rec C config) {j : Nat} (h : j < r.framedBytes) :
    Partial ⟨whole, r.frame.take j⟩ := by
  obtain rfl | h0 := Nat.eq_zero_or_pos j
  · exact .inl rfl
  · exact .inr ⟨r, j, h0, h, rfl⟩

/-- The scan of a segment that is being written: a frame landed in part is cut off or reported. -/
theorem scanSegment_bytes (t : Tail C config) (h : t.Partial) (sequence : Nat) (repair : Bool) :
    scanSegment C config t.bytes sequence repair =
      if t.torn = [] then .ok ⟨(segBytes C config t.whole).length, false⟩
      else if repair then .ok ⟨(segBytes C config t.whole).length, true⟩
      else .error (.corruption sequence (segBytes C config t.whole).length (tornReason t.torn)) := by
  rw [scanSegment, bytes, scanRest_segBytes, Nat.zero_add, scanRest_eq]
  obtain ht | ⟨r, j, h0, hj, ht⟩ := h
  · simp [ht]
  have hne : t.torn ≠ [] := by
    rw [ht]
    intro h
    have hlen := congrArg List.length h
    simp only [List.length_take, List.length_nil, Rec.framedBytes] at hlen hj
    omega
  rw [if_neg hne, ht, probe_cut r h0 hj]
  have htail : isTornTail (r.frame.take j) (tornReason (r.frame.take j)) = true := by
    unfold tornReason
    split <;> rfl
  simp only [htail, Bool.and_true]

/-- The first `k` bytes of a segment. -/
def cutAt : Nat → List (Rec C config) → Bytes → Tail C config
  | k, [], torn => ⟨[], torn.take k⟩
  | k, r :: rs, torn =>
    if r.framedBytes ≤ k then ⟨r :: (cutAt (k - r.framedBytes) rs torn).whole, (cutAt (k - r.framedBytes) rs torn).torn⟩
    else ⟨[], r.frame.take k⟩

def cut (t : Tail C config) (k : Nat) : Tail C config := cutAt k t.whole t.torn

/-- What is cut off spells the first bytes of the segment. -/
theorem cutAt_bytes (k : Nat) (rs : List (Rec C config)) (torn : Bytes) :
    (cutAt k rs torn).bytes = (segBytes C config rs ++ torn).take k := by
  induction rs generalizing k with
  | nil => simp [cutAt, bytes]
  | cons r rs ih =>
    rw [cutAt]
    split
    · rename_i hle
      have hi := ih (k - r.framedBytes)
      simp only [bytes] at hi
      have hframe : (r.frame ++ (segBytes C config rs ++ torn)).take k =
          r.frame ++ (segBytes C config rs ++ torn).take (k - r.framedBytes) := by
        rw [List.take_append, List.take_of_length_le hle]
        rfl
      simp only [bytes, segBytes_cons, List.append_assoc, hi, hframe]
    · rename_i hlt
      simp only [Rec.framedBytes] at hlt
      simp only [bytes, segBytes_nil, List.nil_append, segBytes_cons, List.append_assoc]
      rw [List.take_append_of_le_length (by omega)]

private theorem cutAt_partial (k : Nat) (rs : List (Rec C config)) {torn : Bytes} (h : Partial ⟨rs, torn⟩) :
    (cutAt k rs torn).Partial := by
  induction rs generalizing k with
  | nil =>
    obtain ht | ⟨r, j, h0, hj, ht⟩ := h
    · exact .inl (by simp only at ht; simp [cutAt, ht])
    · simp only at ht
      have hp := Partial.take [] r (show min k j < r.framedBytes by omega)
      rwa [← List.take_take, ← ht] at hp
  | cons r rs ih =>
    rw [cutAt]
    split
    · exact ih (k - r.framedBytes) h
    · exact .take [] r (by omega)

theorem Partial.cut {t : Tail C config} (h : t.Partial) (k : Nat) : (t.cut k).Partial := cutAt_partial k t.whole h

private theorem cutAt_keeps (k : Nat) (before after : List (Rec C config)) (torn : Bytes)
    (h : (segBytes C config before).length ≤ k) : ∃ later, (cutAt k (before ++ after) torn).whole = before ++ later := by
  induction before generalizing k with
  | nil => exact ⟨_, rfl⟩
  | cons r rs ih =>
    simp only [segBytes_cons, List.length_append] at h
    obtain ⟨later, hl⟩ := ih (k - r.framedBytes) (by simp only [Rec.framedBytes]; omega)
    refine ⟨later, ?_⟩
    rw [List.cons_append, cutAt, if_pos (by simp only [Rec.framedBytes]; omega)]
    simp only [hl, List.cons_append]

/-- A cut behind some of the whole records keeps them. -/
theorem cut_keeps (t : Tail C config) {k : Nat} {before after : List (Rec C config)} (ht : t.whole = before ++ after)
    (h : (segBytes C config before).length ≤ k) : ∃ later, (t.cut k).whole = before ++ later := by
  rw [cut, ht]
  exact cutAt_keeps k before after t.torn h

end Tail

namespace Log

/-- Sealed segments are never empty, and nothing but part of a frame follows the active one's records. -/
structure WellFormed (L : Log C config) : Prop where
  nonempty : ∀ rs ∈ L.sealed, rs ≠ []
  tail : ∀ t, L.active = some t → t.Partial

/-- The log with its active file cut off at byte `k`. -/
def cut (L : Log C config) (k : Nat) : Log C config := { L with active := L.active.map (·.cut k) }

@[simp] theorem cut_first (L : Log C config) (k : Nat) : (L.cut k).first = L.first := rfl
@[simp] theorem cut_sealed (L : Log C config) (k : Nat) : (L.cut k).sealed = L.sealed := rfl
@[simp] theorem cut_next (L : Log C config) (k : Nat) : (L.cut k).next = L.next := rfl
@[simp] theorem cut_content (L : Log C config) (k s : Nat) : (L.cut k).content s = L.content s := rfl

theorem WellFormed.cut {L : Log C config} (h : L.WellFormed) (k : Nat) : (L.cut k).WellFormed := by
  refine ⟨h.nonempty, fun t ht => ?_⟩
  obtain ⟨t', ht', rfl⟩ := Option.map_eq_some_iff.mp ht
  exact (h.tail t' ht').cut k

/-- The log `open` goes on with: the torn tail is gone, and there is an active segment again, the first
of all when the directory holds none. -/
def reopened (L : Log C config) : Log C config :=
  match L.active with
  | some t => { L with active := some ⟨t.whole, []⟩ }
  | none => if L.sealed = [] then ⟨1, Nat.one_pos, [], some ⟨[], []⟩⟩ else { L with active := some ⟨[], []⟩ }

theorem reopened_active (L : Log C config) : ∃ whole, L.reopened.active = some ⟨whole, []⟩ := by
  unfold reopened
  split
  · exact ⟨_, rfl⟩
  · split <;> exact ⟨_, rfl⟩

theorem WellFormed.reopened {L : Log C config} (h : L.WellFormed) : L.reopened.WellFormed := by
  have htail : ∀ t, L.reopened.active = some t → t.Partial := by
    intro t ht
    obtain ⟨whole, hw⟩ := L.reopened_active
    rw [hw] at ht
    cases ht
    exact .inl rfl
  refine ⟨?_, htail⟩
  unfold Log.reopened
  split
  · exact h.nonempty
  · split
    · simp
    · exact h.nonempty

/-- `open` succeeds on a well-formed log, and leaves the reopened log in the directory. -/
theorem openLog_reopened (L : Log C config) (h : L.WellFormed) {names : List Path} (hl : Lists L.dir names) :
    ∃ opened, openLog C config names L.dir = .ok opened ∧ opened.sequence = L.reopened.next ∧
      opened.dir = L.reopened.dir := by
  cases ha : L.active with
  | some t =>
    have hr : L.reopened = { L with active := some ⟨t.whole, []⟩ } := by simp only [reopened, ha]
    rw [openLog_active L ha hl, t.scanSegment_bytes (h.tail t ha), hr]
    by_cases ht : t.torn = []
    · refine ⟨_, by rw [if_pos ht]; rfl, rfl, ?_⟩
      have hsame : ({ L with active := some ⟨t.whole, []⟩ } : Log C config) = L := by
        obtain ⟨first, pos, sealed, active⟩ := L
        obtain ⟨whole, torn⟩ := t
        simp only at ha ht
        subst ha ht
        rfl
      simp only [Bool.false_eq_true, if_false, hsame]
    · refine ⟨_, by rw [if_neg ht, if_pos rfl]; rfl, rfl, ?_⟩
      funext p
      simp only [if_true, Dir.set, dir, next]
      by_cases hp : p = activePath (L.first + L.sealed.length)
      · simp [hp, activePath, Tail.bytes]
      · obtain ⟨s, suffix⟩ := p
        cases suffix with
        | wal => simp [activePath, segment]
        | open_ =>
          have hs : s ≠ L.first + L.sealed.length := fun h => hp (by rw [h]; rfl)
          simp [activePath, hs]
  | none =>
    have hsealed : scanSealed C config L.dir L.layout.sealed = .ok () :=
      scanSealed_log L _ fun s hs => (L.mem_layout_sealed s).mp hs
    have hcreate : ∀ s, openNewActive L.dir s = .ok (L.dir.set (activePath s) []) := by
      intro s
      simp [openNewActive, dir, activePath, ha]
    have hset : ∀ (M : Log C config), M.active = some ⟨[], []⟩ → (∀ s, M.segment s = L.segment s) →
        L.dir.set (activePath M.next) [] = M.dir := by
      intro M hM hseg
      funext p
      obtain ⟨s, suffix⟩ := p
      cases suffix with
      | wal => simp [Dir.set, activePath, dir, hseg]
      | open_ =>
        by_cases hs : s = M.next <;> simp [Dir.set, activePath, dir, hM, hs, ha, Tail.bytes]
    simp only [openLog, L.discover hl, bind, Except.bind, hsealed]
    by_cases hnil : L.sealed = []
    · have hr : L.reopened = ⟨1, Nat.one_pos, [], some ⟨[], []⟩⟩ := by simp only [reopened, ha, hnil, if_true]
      refine ⟨⟨1, 0, false, L.dir.set (activePath 1) []⟩, ?_, by simp [hr, next], ?_⟩
      · simp only [layout, ha, hnil, Option.map_none, List.length_nil, List.range'_zero, List.getLast?_nil, hcreate]
        rfl
      · rw [hr]
        refine hset ⟨1, Nat.one_pos, [], some ⟨[], []⟩⟩ rfl fun s => ?_
        simp [segment, hnil]
    · have hr : L.reopened = { L with active := some ⟨[], []⟩ } := by simp only [reopened, ha, hnil, if_false]
      have hlast : L.layout.sealed.getLast? = some (L.next - 1) := by
        obtain ⟨n, hn⟩ := Nat.exists_eq_succ_of_ne_zero (mt List.length_eq_zero_iff.mp hnil)
        simp [layout, next, hn, List.range'_concat]
      have hpos : L.next - 1 + 1 = L.next := by have := L.first_pos; simp only [next]; omega
      refine ⟨⟨L.next, 0, false, L.dir.set (activePath L.next) []⟩, ?_, by rw [hr]; rfl, ?_⟩
      · have hact : L.layout.active = none := by simp [layout, ha]
        simp only [hact, hlast, hpos, hcreate]
        rfl
      · rw [hr]
        exact hset { L with active := some ⟨[], []⟩ } rfl fun s => rfl

end Log
end Hoglet.Wal
