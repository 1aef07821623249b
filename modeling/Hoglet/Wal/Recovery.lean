import Hoglet.Wal.Log
import Hoglet.Wal.ReadBack

/-! `WriteAheadLog::open`, and what it makes of the images a crash can leave of the active segment. -/
namespace Hoglet.Wal

/-- What `open` leaves behind: the active segment it goes on with, and the files. -/
structure Opened where
  sequence : Nat
  bytes : Nat
  truncatedTail : Bool
  dir : Dir

def Dir.set (dir : Dir) (path : Path) (bytes : Bytes) : Dir := fun p => if p = path then some bytes else dir p

/-- `open_new_active`: `create_new` refuses a file that exists. -/
def openNewActive (dir : Dir) (sequence : Nat) : Except WalError Dir :=
  if (dir (activePath sequence)).isSome then .error (.io .alreadyExists)
  else .ok (dir.set (activePath sequence) [])

section open_
variable {β : Type} (C : Codec β) (config : WalConfig)

def scanSealed (dir : Dir) : List Nat → Except WalError Unit
  | [] => .ok ()
  | s :: rest => do
    let file ← openFile dir (sealedPath s)
    let _ ← scanSegment C config file s false
    scanSealed dir rest

/-- `WriteAheadLog::open` on a listing of the directory. -/
def openLog (names : List Path) (dir : Dir) : Except WalError Opened := do
  let layout ← discoverSegmentLayout names
  scanSealed C config dir layout.sealed
  match layout.active with
  | some s =>
    let file ← openFile dir (activePath s)
    let scan ← scanSegment C config file s true
    let dir := if scan.truncatedTail then dir.set (activePath s) (file.take scan.validBytes) else dir
    return ⟨s, scan.validBytes, scan.truncatedTail, dir⟩
  | none =>
    let s := match layout.sealed.getLast? with
      | some last => last + 1
      | none => 1
    let dir ← openNewActive dir s
    return ⟨s, 0, false, dir⟩

variable {C config}

theorem scanSealed_log (L : Log C config) (l : List Nat) (h : ∀ s ∈ l, L.first ≤ s ∧ s < L.next) :
    scanSealed C config L.dir l = .ok () := by
  induction l with
  | nil => rfl
  | cons s l ih =>
    obtain ⟨hf, hs⟩ := h s (by simp)
    simp only [scanSealed, openFile, L.dir_sealed hf hs, scanSegment_segBytes, bind, Except.bind]
    exact ih fun s' hs' => h s' (by simp [hs'])

/-- With intact sealed segments, only the repairing scan of the active one decides. -/
theorem openLog_active (L : Log C config) {t : Tail C config} (ha : L.active = some t) {names : List Path}
    (hl : Lists L.dir names) :
    openLog C config names L.dir = (scanSegment C config t.bytes L.next true).map fun scan =>
      ⟨L.next, scan.validBytes, scan.truncatedTail,
        if scan.truncatedTail then L.dir.set (activePath L.next) (t.bytes.take scan.validBytes) else L.dir⟩ := by
  have hs := scanSealed_log L L.layout.sealed fun s hs => (L.mem_layout_sealed s).mp hs
  simp only [openLog, L.discover hl, bind, Except.bind, hs]
  simp only [Log.layout, ha, Option.map_some, openFile, L.dir_active ha]
  cases scanSegment C config t.bytes L.next true <;> rfl

end open_

/-! A torn frame: `k` of its bytes landed, and zeros after them. -/
section torn
variable {β : Type} (C : Codec β) (config : WalConfig)

def tornFrame (payload : Bytes) (k z : Nat) : Bytes := (encodeFrame payload).take k ++ List.replicate z 0

private theorem frame_header (payload : Bytes) : ∃ l0 l1 l2 l3 c0 c1 c2 c3,
    encodeFrame payload = [0x48, 0x47, 0x4C, 0x57, 1, 0, 0, 0, l0, l1, l2, l3, c0, c1, c2, c3] ++ payload ∧
    l0.toNat + 2^8 * l1.toNat + 2^16 * l2.toNat + 2^24 * l3.toNat = payload.length % 2^32 := by
  refine ⟨_, _, _, _, _, _, _, _, rfl, ?_⟩
  simp only [UInt8.toNat_ofNat']
  omega

theorem tornFrame_length {payload : Bytes} {k z : Nat} (h : k ≤ (encodeFrame payload).length) :
    (tornFrame payload k z).length = k + z := by
  rw [tornFrame, List.length_append, List.length_take, List.length_replicate, Nat.min_eq_left h]

private theorem tornFrame_start {payload : Bytes} {k z : Nat} (hk : 5 ≤ k) (h16 : k < recordHeaderBytes)
    (hz : recordHeaderBytes ≤ k + z) (hlen : payload.length < 2^32) :
    validateHeader ((tornFrame payload k z).take recordHeaderBytes) = none ∧
    headerLength (tornFrame payload k z) ≤ payload.length ∧
    (tornFrame payload k z).drop recordHeaderBytes = List.replicate (k + z - recordHeaderBytes) 0 := by
  obtain ⟨l0, l1, l2, l3, c0, c1, c2, c3, hf, hl⟩ := frame_header payload
  obtain ⟨z', rfl⟩ : ∃ z', z = recordHeaderBytes - k + z' := ⟨k + z - recordHeaderBytes, by omega⟩
  simp only [recordHeaderBytes] at *
  rw [Nat.mod_eq_of_lt hlen] at hl
  rw [tornFrame, hf, List.replicate_add]
  interval_cases k <;>
    simp [validateHeader, recordMagic, recordVersion, headerLength, ofLe32, List.replicate_succ] <;> omega

theorem tornFrame_body {payload : Bytes} {j z : Nat} (hlen : payload.length < 2^32) :
    validateHeader ((tornFrame payload (recordHeaderBytes + j) z).take recordHeaderBytes) = none ∧
    headerLength (tornFrame payload (recordHeaderBytes + j) z) = payload.length ∧
    (tornFrame payload (recordHeaderBytes + j) z).drop recordHeaderBytes =
      payload.take j ++ List.replicate z 0 := by
  obtain ⟨l0, l1, l2, l3, c0, c1, c2, c3, hf, hl⟩ := frame_header payload
  rw [Nat.mod_eq_of_lt hlen] at hl
  have htake : (encodeFrame payload).take (recordHeaderBytes + j) =
      [0x48, 0x47, 0x4C, 0x57, 1, 0, 0, 0, l0, l1, l2, l3, c0, c1, c2, c3] ++ payload.take j := by
    rw [hf, List.take_append]
    simp [recordHeaderBytes, List.take_of_length_le]
  rw [tornFrame, htake]
  simp [recordHeaderBytes, validateHeader, recordMagic, recordVersion, headerLength, ofLe32]
  omega

/-- Once the version byte has landed, the header passes with at most the frame's own length, and the
payload it announces is empty or has a NUL in it. -/
theorem tornFrame_header {payload : Bytes} {k z : Nat} (hk : 5 ≤ k) (hlt : k < (encodeFrame payload).length)
    (hz : recordHeaderBytes ≤ k + z) (hlen : payload.length < 2^32) :
    validateHeader ((tornFrame payload k z).take recordHeaderBytes) = none ∧
    headerLength (tornFrame payload k z) ≤ payload.length ∧
    (recordHeaderBytes + headerLength (tornFrame payload k z) ≤ k + z →
      payloadAt (tornFrame payload k z) = [] ∨ 0 ∈ payloadAt (tornFrame payload k z)) := by
  by_cases h16 : k < recordHeaderBytes
  · obtain ⟨hv, hh, hd⟩ := tornFrame_start hk h16 hz hlen
    refine ⟨hv, hh, fun _ => ?_⟩
    rw [payloadAt, hd, List.take_replicate]
    cases min (headerLength (tornFrame payload k z)) (k + z - recordHeaderBytes) with
    | zero => exact .inl rfl
    | succ n => exact .inr (by simp)
  · obtain ⟨j, rfl⟩ : ∃ j, k = recordHeaderBytes + j := ⟨k - recordHeaderBytes, by omega⟩
    obtain ⟨hv, hh, hd⟩ := tornFrame_body (j := j) (z := z) hlen
    refine ⟨hv, hh.le, fun hle => .inr ?_⟩
    rw [hh] at hle
    rw [encodeFrame_length] at hlt
    -- the first byte that did not land is a zero inside the payload
    rw [payloadAt, hd, hh, List.take_append, List.mem_append, List.take_replicate]
    right
    rw [List.length_take, Nat.min_eq_left (by omega)]
    exact List.mem_replicate.mpr ⟨by omega, rfl⟩

/-- Recovery can tell the tear of this frame from damage: nothing of it landed, or the image ends
within a header, or its version byte landed and the image ends by the end the landed length gives. -/
def Tells (payload : Bytes) (k z : Nat) : Prop :=
  k = 0 ∨ k + z < recordHeaderBytes ∨
    5 ≤ k ∧ k + z ≤ recordHeaderBytes + headerLength (tornFrame payload k z)

private theorem replicate_all_zero (z : Nat) : (List.replicate z (0 : UInt8)).all (· = 0) = true := by simp

private theorem tornFrame_not_zero (payload : Bytes) {k : Nat} (z : Nat) (hk : 0 < k) :
    (tornFrame payload k z).all (· = 0) = false := by
  obtain ⟨l0, l1, l2, l3, c0, c1, c2, c3, hf, _⟩ := frame_header payload
  obtain ⟨k, rfl⟩ := Nat.exists_eq_succ_of_ne_zero hk.ne'
  simp [tornFrame, hf]

private theorem probe_zeros {z : Nat} (hz : 0 < z) :
    ∃ reason, probe C config (List.replicate z 0) = .bad reason ∧ isTornTail (List.replicate z 0) reason = true := by
  have hne : List.replicate z (0 : UInt8) ≠ [] := by simp; omega
  by_cases h16 : z < recordHeaderBytes
  · exact ⟨.incompleteHeader, by simp [probe, hne, h16], rfl⟩
  · obtain ⟨n, rfl⟩ : ∃ n, z = recordHeaderBytes + n := ⟨z - recordHeaderBytes, by omega⟩
    have hv : validateHeader ((List.replicate (recordHeaderBytes + n) 0).take recordHeaderBytes) = some .invalidMagic := by
      rw [List.take_replicate, Nat.min_eq_left (by omega)]
      rfl
    refine ⟨.invalidMagic, ?_, replicate_all_zero _⟩
    rw [probe, if_neg hne, List.length_replicate, if_neg h16, hv]

private theorem probe_before_version (payload : Bytes) {k z : Nat} (hk : 0 < k) (h5 : k < 5)
    (hz : recordHeaderBytes ≤ k + z) :
    ∃ reason, probe C config (tornFrame payload k z) = .bad reason ∧
      isTornTail (tornFrame payload k z) reason = false := by
  have hnz := tornFrame_not_zero payload z hk
  have hlen : (tornFrame payload k z).length = k + z :=
    tornFrame_length (by rw [encodeFrame_length]; simp only [recordHeaderBytes]; omega)
  have hne : tornFrame payload k z ≠ [] := by
    intro h
    rw [h] at hlen
    simp at hlen
    omega
  obtain ⟨l0, l1, l2, l3, c0, c1, c2, c3, hf, _⟩ := frame_header payload
  have hv : validateHeader ((tornFrame payload k z).take recordHeaderBytes) = some .invalidMagic ∨
      validateHeader ((tornFrame payload k z).take recordHeaderBytes) = some .unsupportedVersion := by
    have hr : recordHeaderBytes = 16 := rfl
    obtain ⟨z', rfl⟩ : ∃ z', z = recordHeaderBytes - k + z' := ⟨k + z - recordHeaderBytes, by omega⟩
    rw [tornFrame, hf, List.replicate_add]
    interval_cases k <;> simp [validateHeader, recordMagic, recordVersion, recordHeaderBytes, List.replicate_succ]
  rcases hv with hv | hv
  · refine ⟨.invalidMagic, ?_, hnz⟩
    rw [probe, if_neg hne, if_neg (by omega), hv]
  · refine ⟨.unsupportedVersion, ?_, hnz⟩
    rw [probe, if_neg hne, if_neg (by omega), hv]

private theorem probe_after_version {payload : Bytes} {k z : Nat} (hk : 5 ≤ k) (hlt : k < (encodeFrame payload).length)
    (hz : recordHeaderBytes ≤ k + z) (hfits : payload.length ≤ config.maxRecordBytes) :
    ∃ reason, probe C config (tornFrame payload k z) = .bad reason ∧
      (isTornTail (tornFrame payload k z) reason = true ↔
        k + z ≤ recordHeaderBytes + headerLength (tornFrame payload k z)) := by
  have hlen := tornFrame_length (z := z) hlt.le
  have hne : tornFrame payload k z ≠ [] := by
    intro h
    rw [h] at hlen
    simp at hlen
    omega
  obtain ⟨hv, hh, hp⟩ := tornFrame_header hk hlt hz (by have := config.max_le; omega)
  rw [probe, if_neg hne, if_neg (by omega), hv]
  simp only
  rw [if_neg (by omega)]
  by_cases hin : (tornFrame payload k z).length < recordHeaderBytes + headerLength (tornFrame payload k z)
  · exact ⟨_, if_pos hin, by simp only [isTornTail, true_iff]; omega⟩
  rw [if_neg hin]
  have hnone : C.decode (payloadAt (tornFrame payload k z)) = none := by
    rcases hp (by omega) with h | h
    · rw [h, C.decode_nil]
    · exact C.decode_nul _ h
  by_cases hcrc : crc32 (payloadAt (tornFrame payload k z)) ≠ headerCrc (tornFrame payload k z)
  · refine ⟨_, if_pos hcrc, ?_⟩
    simp only [isTornTail, decide_eq_true_eq, hlen]
    omega
  · rw [if_neg hcrc, hnone]
    refine ⟨_, rfl, ?_⟩
    simp only [isTornTail, decide_eq_true_eq, hlen]
    omega

/-- The repairing scan cuts a torn frame off when it can tell the tear, and reports it when it cannot. -/
theorem scanRest_torn (sequence offset : Nat) {payload : Bytes} {k z : Nat} (hlt : k < (encodeFrame payload).length)
    (hfits : payload.length ≤ config.maxRecordBytes) :
    (Tells payload k z → ∃ cut, scanRest C config sequence true offset (tornFrame payload k z) = .ok ⟨offset, cut⟩ ∧
      (cut = false → tornFrame payload k z = [])) ∧
    (¬ Tells payload k z → ∃ reason, scanRest C config sequence true offset (tornFrame payload k z) =
      .error (.corruption sequence offset reason)) := by
  have hlen := tornFrame_length (z := z) hlt.le
  by_cases h0 : k + z = 0
  · have hnil : tornFrame payload k z = [] := List.length_eq_zero_iff.mp (hlen.trans h0)
    refine ⟨fun _ => ⟨false, by rw [hnil, scanRest_eq, probe_nil], fun _ => hnil⟩, fun h => ?_⟩
    exact absurd (.inl (by omega)) h
  have hne : tornFrame payload k z ≠ [] := by
    intro h
    rw [h] at hlen
    exact h0 hlen.symm
  suffices ∃ reason, probe C config (tornFrame payload k z) = .bad reason ∧
      (isTornTail (tornFrame payload k z) reason = true ↔ Tells payload k z) by
    obtain ⟨reason, hp, ht⟩ := this
    rw [scanRest_eq, hp]
    simp only [Bool.true_and]
    exact ⟨fun h => ⟨true, if_pos (ht.mpr h), by simp⟩, fun h => ⟨reason, if_neg (mt ht.mp h)⟩⟩
  by_cases h16 : k + z < recordHeaderBytes
  · exact ⟨.incompleteHeader, by simp only [probe, hne, if_false, hlen, h16, if_true],
      by simp only [isTornTail, true_iff]; exact .inr (.inl h16)⟩
  obtain rfl | hk := Nat.eq_zero_or_pos k
  · obtain ⟨reason, hp, ht⟩ := probe_zeros C config (z := z) (by omega)
    refine ⟨reason, ?_, ?_⟩
    · simpa [tornFrame] using hp
    · simp only [tornFrame, List.take_zero, List.nil_append, ht, true_iff]
      exact .inl rfl
  by_cases h5 : k < 5
  · obtain ⟨reason, hp, ht⟩ := probe_before_version C config payload (z := z) hk h5 (by omega)
    refine ⟨reason, hp, ?_⟩
    rw [ht]
    simp only [Tells, Bool.false_eq_true, false_iff]
    omega
  · obtain ⟨reason, hp, ht⟩ := probe_after_version C config (z := z) (by omega) hlt (by omega) hfits
    refine ⟨reason, hp, ht.trans ?_⟩
    simp only [Tells]
    omega

end torn

/-! Crash images: whole acknowledged frames, then a prefix of the unsynced ones, then zeros. -/
section image
variable {β : Type} (C : Codec β) (config : WalConfig)

/-- A payload that `write` framed. -/
def Written (payload : Bytes) : Prop := ∃ batch, writePayload C config batch = .ok payload

/-- The file a crash leaves: `k` bytes of the unsynced frames landed, and `z` zeros follow them. -/
def crashImage (acked unsynced : List Bytes) (k z : Nat) : Bytes :=
  frames acked ++ ((frames unsynced).take k ++ List.replicate z 0)

/-- Every unsynced record that landed whole and has bytes after it reads back, and recovery can tell
the tear of the first one that did not. -/
def TearTold : List Bytes → Nat → Nat → Prop
  | [], _, _ => True
  | p :: ps, k, z =>
    if (encodeFrame p).length ≤ k then
      k = (encodeFrame p).length ∧ z = 0 ∨ Readable C config p ∧ TearTold ps (k - (encodeFrame p).length) z
    else Tells p k z

variable {C config}

private theorem Written.fits {p : Bytes} (h : Written C config p) : p.length ≤ config.maxRecordBytes := by
  obtain ⟨_, hb⟩ := h
  exact (writePayload_ok hb).2.2

private theorem Written.decode {p : Bytes} (h : Written C config p) (hr : ¬ Readable C config p) : C.decode p = none := by
  obtain ⟨batch, hb⟩ := h
  obtain ⟨rfl, hcount, hfits⟩ := writePayload_ok hb
  by_contra hne
  obtain ⟨batch', hb'⟩ := Option.ne_none_iff_exists'.mp hne
  exact hr ⟨hfits, batch', hb', by rw [C.eventCount_decode batch batch' hb']; exact hcount⟩

/-- The scan kept some of these frames whole and dropped the rest of the image. -/
def KeepsPrefix (ps : List Bytes) (image : Bytes) (offset : Nat) (scan : Except WalError SegmentScan) : Prop :=
  ∃ j cut, scan = .ok ⟨offset + (frames (ps.take j)).length, cut⟩ ∧
    image.take (frames (ps.take j)).length = frames (ps.take j) ∧
    (cut = false → image.length = (frames (ps.take j)).length)

private theorem scanRest_record (sequence offset : Nat) (repair : Bool) {p : Bytes} (hr : Readable C config p)
    (rest : Bytes) :
    scanRest C config sequence repair offset (encodeFrame p ++ rest) =
      scanRest C config sequence repair (offset + (encodeFrame p).length) rest := by
  obtain ⟨r, rfl⟩ := Rec.exists_of_readable hr
  have h := scanRest_segBytes sequence repair offset [r] rest
  simpa [Rec.frame] using h

/-- A frame that does not read back is reported, or taken for a torn tail when nothing follows it. -/
theorem scanRest_unreadable (sequence offset : Nat) {p : Bytes} (hw : Written C config p)
    (hr : ¬ Readable C config p) (rest : Bytes) :
    scanRest C config sequence true offset (encodeFrame p ++ rest) =
      if rest = [] then .ok ⟨offset, true⟩ else .error (.corruption sequence offset .invalidPayload) := by
  have hp := probe_frame C config p rest hw.fits
  rw [hw.decode hr] at hp
  have hh := headerLength_frame p rest (by have := hw.fits; have := config.max_le; omega)
  rw [scanRest_eq, hp]
  simp [isTornTail, hh]

private theorem le_validBytes (sequence : Nat) (offset : Nat) (rest : Bytes) {scan : SegmentScan}
    (h : scanRest C config sequence true offset rest = .ok scan) : offset ≤ scan.validBytes := by
  induction hn : rest.length using Nat.strong_induction_on generalizing offset rest with
  | _ n ih =>
    rw [scanRest_eq] at h
    cases hp : probe C config rest with
    | eof => simp only [hp, Except.ok.injEq] at h; rw [← h]
    | bad reason =>
      simp only [hp] at h
      split at h
      · cases h; exact le_refl _
      · cases h
    | record batch framed =>
      simp only [hp] at h
      have hb := probe_record_bounds C config hp
      have := ih (rest.drop framed).length (by rw [List.length_drop]; omega) _ _ h rfl
      omega

private theorem frames_length_cons (p : Bytes) (ps : List Bytes) :
    (frames (p :: ps)).length = (encodeFrame p).length + (frames ps).length := by simp

private theorem keepsPrefix_cons (offset : Nat) (p : Bytes) (ps : List Bytes) (rest : Bytes)
    {scan : Except WalError SegmentScan}
    (hle : ∀ s, scan = .ok s → offset + (encodeFrame p).length ≤ s.validBytes) :
    KeepsPrefix (p :: ps) (encodeFrame p ++ rest) offset scan ↔
      KeepsPrefix ps rest (offset + (encodeFrame p).length) scan := by
  constructor
  · rintro ⟨j, cut, hs, himage, hcut⟩
    cases j with
    | zero =>
      have := hle _ hs
      have hpos : 0 < (encodeFrame p).length := by simp [recordHeaderBytes]
      simp only [List.take_zero, frames_nil, List.length_nil] at this
      omega
    | succ j =>
      rw [List.take_succ_cons] at hs himage hcut
      refine ⟨j, cut, by rw [hs, frames_length_cons, Nat.add_assoc], ?_, fun h => ?_⟩
      · rw [frames_length_cons, frames_cons, List.take_length_add_append] at himage
        exact List.append_cancel_left himage
      · have := hcut h
        rw [frames_length_cons, List.length_append] at this
        omega
  · rintro ⟨j, cut, hs, himage, hcut⟩
    refine ⟨j + 1, cut, ?_, ?_, fun h => ?_⟩
    · rw [hs, List.take_succ_cons, frames_length_cons, Nat.add_assoc]
    · rw [List.take_succ_cons, frames_length_cons, frames_cons, List.take_length_add_append, himage]
    · rw [List.take_succ_cons, frames_length_cons, List.length_append, hcut h]

/-- The repairing scan of a tail of unsynced frames keeps whole frames exactly when it can tell the
tear. The induction peels one landed frame off at a time. -/
theorem scanRest_unsynced (sequence : Nat) (unsynced : List Bytes) (hw : ∀ p ∈ unsynced, Written C config p)
    (offset k z : Nat) (hkz : k + z ≤ (frames unsynced).length) :
    KeepsPrefix unsynced ((frames unsynced).take k ++ List.replicate z 0) offset
      (scanRest C config sequence true offset ((frames unsynced).take k ++ List.replicate z 0)) ↔
    TearTold C config unsynced k z := by
  induction unsynced generalizing offset k with
  | nil =>
    simp only [frames_nil, List.length_nil, Nat.le_zero_eq, Nat.add_eq_zero_iff] at hkz
    obtain ⟨rfl, rfl⟩ := hkz
    simp only [TearTold, iff_true]
    exact ⟨0, false, by simp [scanRest_eq], by simp, by simp⟩
  | cons p ps ih =>
    rw [frames_length_cons] at hkz
    have hwp := hw p (by simp)
    by_cases hk : (encodeFrame p).length ≤ k
    · have himage : (frames (p :: ps)).take k ++ List.replicate z 0 =
          encodeFrame p ++ ((frames ps).take (k - (encodeFrame p).length) ++ List.replicate z 0) := by
        rw [frames_cons, List.take_append, List.take_of_length_le hk, List.append_assoc]
      rw [himage, TearTold, if_pos hk]
      by_cases hr : Readable C config p
      · rw [scanRest_record sequence offset true hr, keepsPrefix_cons _ _ _ _ fun s h => le_validBytes _ _ _ h,
          ih (fun q hq => hw q (by simp [hq])) _ _ (by omega)]
        simp only [hr, true_and]
        refine ⟨.inr, ?_⟩
        rintro (⟨rfl, rfl⟩ | h)
        · rw [Nat.sub_self]
          cases ps with
          | nil => trivial
          | cons q qs =>
            rw [TearTold, if_neg (by simp [recordHeaderBytes])]
            exact .inl rfl
        · exact h
      · rw [scanRest_unreadable sequence offset hwp hr]
        simp only [hr, false_and, or_false]
        have hrest : (frames ps).take (k - (encodeFrame p).length) ++ List.replicate z 0 = [] ↔
            k = (encodeFrame p).length ∧ z = 0 := by
          rw [← List.length_eq_zero_iff, List.length_append, List.length_take, List.length_replicate]
          omega
        by_cases hz : k = (encodeFrame p).length ∧ z = 0
        · rw [if_pos (hrest.mpr hz)]
          simp only [hz, and_self, iff_true]
          exact ⟨0, true, by simp, by simp, by simp⟩
        · rw [if_neg (mt hrest.mp hz)]
          simp only [hz, iff_false]
          rintro ⟨_, _, h, _⟩
          cases h
    · have himage : (frames (p :: ps)).take k ++ List.replicate z 0 = tornFrame p k z := by
        rw [frames_cons, List.take_append_of_le_length (by omega), tornFrame]
      rw [himage, TearTold, if_neg hk]
      obtain ⟨hyes, hno⟩ := scanRest_torn C config sequence offset (k := k) (z := z) (by omega) hwp.fits
      by_cases ht : Tells p k z
      · obtain ⟨cut, hs, hcut⟩ := hyes ht
        simp only [ht, iff_true]
        exact ⟨0, cut, by simp [hs], by simp, fun h => by simp [hcut h]⟩
      · obtain ⟨reason, hs⟩ := hno ht
        simp only [ht, iff_false]
        rintro ⟨_, _, h, _⟩
        rw [hs] at h
        cases h

end image
end Hoglet.Wal
