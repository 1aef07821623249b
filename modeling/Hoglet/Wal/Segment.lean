import Hoglet.Wal.Frame

/-! One segment file: the validating scan, the record reader and the header-only boundary pass.
All three are run on the file's bytes; the offset they carry is the cursor they report. -/
namespace Hoglet.Wal
variable {β : Type} (C : Codec β) (config : WalConfig)

structure SegmentScan where
  validBytes : Nat
  truncatedTail : Bool
  deriving DecidableEq, Repr

/-- Which failed check `scan_segment` takes for a torn write when it may repair the final tail. -/
def isTornTail (rest : Bytes) : Reason → Bool
  | .incompleteHeader | .incompletePayload => true
  | .invalidMagic | .unsupportedVersion | .nonZeroReserved => rest.all (· = 0)
  | .checksumMismatch | .invalidPayload => recordHeaderBytes + headerLength rest = rest.length
  | _ => false

/-- The loop of `scan_segment`; every record takes bytes, so the file's length is fuel enough. -/
def scanFrom (sequence : Nat) (repair : Bool) : Nat → Nat → Bytes → Except WalError SegmentScan
  | 0, offset, _ => .ok ⟨offset, false⟩
  | fuel + 1, offset, rest =>
    match probe C config rest with
    | .eof => .ok ⟨offset, false⟩
    | .record _ framed => scanFrom sequence repair fuel (offset + framed) (rest.drop framed)
    | .bad reason =>
      if repair && isTornTail rest reason then .ok ⟨offset, true⟩
      else .error (.corruption sequence offset reason)

def scanRest (sequence : Nat) (repair : Bool) (offset : Nat) (rest : Bytes) :
    Except WalError SegmentScan :=
  scanFrom C config sequence repair rest.length offset rest

def scanSegment (file : Bytes) (sequence : Nat) (repair : Bool) : Except WalError SegmentScan :=
  scanRest C config sequence repair 0 file

/-- `read_record` on the unread bytes of the file: the batch and its framed size, `none` at EOF. -/
def readRecord (segment byteOffset : Nat) (rest : Bytes) : Except WalError (Option (β × Nat)) :=
  match probe C config rest with
  | .eof => .ok none
  | .bad reason => .error (.corruption segment byteOffset reason)
  | .record batch framed => .ok (some (batch, framed))

/-- The loop of `is_record_boundary`: it reads headers only. -/
def boundaryFrom (sequence target : Nat) : Nat → Nat → Bytes → Except WalError Bool
  | 0, offset, _ => .ok (offset = target)
  | fuel + 1, offset, rest =>
    if target ≤ offset then .ok (offset = target)
    else if rest.length < recordHeaderBytes then .error (.io .unexpectedEof)
    else match validateHeader (rest.take recordHeaderBytes) with
      | some reason => .error (.corruption sequence offset reason)
      | none =>
        if config.maxRecordBytes < headerLength rest then
          .error (.corruption sequence offset .lengthExceedsLimit)
        else
          let framed := recordHeaderBytes + headerLength rest
          if target < offset + framed then .ok false
          else boundaryFrom sequence target fuel (offset + framed) (rest.drop framed)

def isRecordBoundary (file : Bytes) (sequence target : Nat) : Except WalError Bool :=
  boundaryFrom config sequence target (target + 1) 0 file

/-- A payload the reader accepts. -/
def Readable (payload : Bytes) : Prop :=
  payload.length ≤ config.maxRecordBytes ∧ ∃ batch, C.decode payload = some batch ∧ C.eventCount batch ≠ 0

/-- A stored record: its payload passes every check of the reader. -/
structure Rec where
  batch : β
  payload : Bytes
  decodes : C.decode payload = some batch
  nonempty : C.eventCount batch ≠ 0
  fits : payload.length ≤ config.maxRecordBytes

def frames (payloads : List Bytes) : Bytes := (payloads.map encodeFrame).flatten

@[simp] theorem frames_nil : frames [] = [] := rfl
@[simp] theorem frames_cons (p : Bytes) (ps : List Bytes) : frames (p :: ps) = encodeFrame p ++ frames ps := rfl
@[simp] theorem frames_append (ps qs : List Bytes) : frames (ps ++ qs) = frames ps ++ frames qs := by
  simp [frames]

namespace Rec
variable {C config}

def frame (r : Rec C config) : Bytes := encodeFrame r.payload
def framedBytes (r : Rec C config) : Nat := r.frame.length

theorem framedBytes_pos (r : Rec C config) : 0 < r.framedBytes := by
  simp [framedBytes, frame, recordHeaderBytes]

theorem readable (r : Rec C config) : Readable C config r.payload :=
  ⟨r.fits, r.batch, r.decodes, r.nonempty⟩

theorem exists_of_readable {p : Bytes} (h : Readable C config p) : ∃ r : Rec C config, r.payload = p := by
  obtain ⟨hf, b, hd, hn⟩ := h
  exact ⟨⟨b, p, hd, hn, hf⟩, rfl⟩

theorem probe (r : Rec C config) (rest : Bytes) :
    Wal.probe C config (r.frame ++ rest) = .record r.batch r.framedBytes := by
  rw [frame, probe_frame C config r.payload rest r.fits, r.decodes]
  simp [r.nonempty, framedBytes, frame]

end Rec

/-- The bytes of a segment that holds exactly these records. -/
def segBytes (rs : List (Rec C config)) : Bytes := frames (rs.map Rec.payload)

section segBytes
variable {C config}

@[simp] theorem segBytes_nil : segBytes C config [] = [] := rfl
@[simp] theorem segBytes_cons (r : Rec C config) (rs : List (Rec C config)) :
    segBytes C config (r :: rs) = r.frame ++ segBytes C config rs := rfl
@[simp] theorem segBytes_append (rs ss : List (Rec C config)) :
    segBytes C config (rs ++ ss) = segBytes C config rs ++ segBytes C config ss := by
  simp [segBytes]

theorem segBytes_eq_nil {rs : List (Rec C config)} : segBytes C config rs = [] ↔ rs = [] := by
  cases rs with
  | nil => simp
  | cons r rs => simp [Rec.frame, encodeFrame_ne_nil]

theorem length_le_segBytes (rs : List (Rec C config)) : rs.length ≤ (segBytes C config rs).length := by
  induction rs with
  | nil => simp
  | cons r rs ih =>
    have := r.framedBytes_pos
    simp only [segBytes_cons, List.length_append, List.length_cons, Rec.framedBytes] at *
    omega

end segBytes

/-- A record lies within the unread bytes and is never empty. -/
theorem probe_record_bounds {rest : Bytes} {batch : β} {framed : Nat}
    (h : probe C config rest = .record batch framed) : 0 < framed ∧ framed ≤ rest.length := by
  unfold probe at h
  split at h
  · cases h
  split at h
  · cases h
  split at h
  · cases h
  split at h
  · cases h
  split at h
  · cases h
  split at h
  · cases h
  split at h
  · cases h
  split at h
  · cases h
  cases h
  simp only [recordHeaderBytes] at *
  omega

theorem probe_eof_iff (rest : Bytes) : probe C config rest = .eof ↔ rest = [] := by
  constructor
  · intro h
    by_contra hne
    simp only [probe, hne, if_false] at h
    repeat (first | (split at h) | cases h)
  · rintro rfl
    exact probe_nil C config

private theorem scanFrom_fuel (sequence : Nat) (repair : Bool) (fuel offset : Nat) (rest : Bytes)
    (h : rest.length ≤ fuel) :
    scanFrom C config sequence repair fuel offset rest = scanRest C config sequence repair offset rest := by
  induction fuel using Nat.strong_induction_on generalizing offset rest with
  | _ fuel ih =>
    cases rest with
    | nil => cases fuel <;> simp [scanFrom, scanRest]
    | cons b bs =>
      cases fuel with
      | zero => simp at h
      | succ fuel =>
        rw [scanRest, List.length_cons, scanFrom, scanFrom]
        cases hp : probe C config (b :: bs) with
        | eof => rfl
        | bad reason => rfl
        | record batch framed =>
          have hb := probe_record_bounds C config hp
          have hd : ((b :: bs).drop framed).length ≤ bs.length := by
            simp only [List.length_drop, List.length_cons]
            omega
          simp only [List.length_cons] at h
          simp only [ih fuel (by omega) _ _ (hd.trans (by omega))]
          by_cases hl : bs.length < fuel + 1
          · exact (ih bs.length hl _ _ hd).symm
          · omega

/-- One iteration of the scan loop. -/
theorem scanRest_eq (sequence : Nat) (repair : Bool) (offset : Nat) (rest : Bytes) :
    scanRest C config sequence repair offset rest =
      match probe C config rest with
      | .eof => .ok ⟨offset, false⟩
      | .record _ framed => scanRest C config sequence repair (offset + framed) (rest.drop framed)
      | .bad reason =>
        if repair && isTornTail rest reason then .ok ⟨offset, true⟩
        else .error (.corruption sequence offset reason) := by
  rw [← scanFrom_fuel C config sequence repair (rest.length + 1) offset rest (by omega), scanFrom]
  cases hp : probe C config rest with
  | eof => rfl
  | bad reason => rfl
  | record batch framed => exact scanFrom_fuel C config _ _ _ _ _ (by simp)

section records
variable {C config}

/-- The scan passes over stored records and goes on with what follows them. -/
theorem scanRest_segBytes (sequence : Nat) (repair : Bool) (offset : Nat) (rs : List (Rec C config))
    (tail : Bytes) :
    scanRest C config sequence repair offset (segBytes C config rs ++ tail) =
      scanRest C config sequence repair (offset + (segBytes C config rs).length) tail := by
  induction rs generalizing offset with
  | nil => simp
  | cons r rs ih =>
    rw [segBytes_cons, List.append_assoc, scanRest_eq, r.probe]
    simp only [Rec.framedBytes, List.drop_left, ih, List.length_append, Nat.add_assoc]

theorem scanSegment_segBytes (sequence : Nat) (repair : Bool) (rs : List (Rec C config)) :
    scanSegment C config (segBytes C config rs) sequence repair = .ok ⟨(segBytes C config rs).length, false⟩ := by
  have h := scanRest_segBytes sequence repair 0 rs []
  rw [List.append_nil] at h
  rw [scanSegment, h, scanRest_eq]
  simp

theorem readRecord_nil (segment byteOffset : Nat) :
    readRecord C config segment byteOffset [] = .ok none := by simp [readRecord]

theorem readRecord_frame (segment byteOffset : Nat) (r : Rec C config) (rest : Bytes) :
    readRecord C config segment byteOffset (r.frame ++ rest) = .ok (some (r.batch, r.framedBytes)) := by
  rw [readRecord, r.probe]

private theorem boundaryFrom_segBytes (sequence : Nat) (fuel offset : Nat) (rs : List (Rec C config))
    (tail : Bytes) (h : rs.length < fuel) :
    boundaryFrom config sequence (offset + (segBytes C config rs).length) fuel offset
      (segBytes C config rs ++ tail) = .ok true := by
  induction rs generalizing fuel offset with
  | nil => cases fuel <;> simp [boundaryFrom]
  | cons r rs ih =>
    cases fuel with
    | zero => simp at h
    | succ fuel =>
      have hp := r.framedBytes_pos
      have hs : r.payload.length < 2^32 := by have := r.fits; have := config.max_le; omega
      have hh := headerLength_frame r.payload (segBytes C config rs ++ tail) hs
      have hv := validateHeader_frame r.payload (segBytes C config rs ++ tail)
      have hl : r.frame.length = recordHeaderBytes + r.payload.length := encodeFrame_length _
      rw [Rec.framedBytes] at hp
      have hi := ih fuel (offset + r.frame.length) (by simpa using h)
      simp only [segBytes_cons, List.append_assoc, List.length_append, boundaryFrom] at *
      rw [Rec.frame] at *
      rw [if_neg (by omega), if_neg (by omega), hv]
      simp only [hh]
      rw [if_neg (by have := r.fits; omega), if_neg (by omega), ← hl, List.drop_left, ← Nat.add_assoc, hi]

/-- The end of a run of stored records is a record boundary of the file. -/
theorem isRecordBoundary_segBytes (sequence : Nat) (rs : List (Rec C config)) (tail : Bytes) :
    isRecordBoundary config (segBytes C config rs ++ tail) sequence (segBytes C config rs).length = .ok true := by
  have h := boundaryFrom_segBytes sequence ((segBytes C config rs).length + 1) 0 rs tail
    (by have := length_le_segBytes rs; omega)
  simpa [isRecordBoundary] using h

private theorem boundaryFrom_true (sequence target : Nat) (fuel offset : Nat) (rs : List (Rec C config))
    (h : boundaryFrom config sequence target fuel offset (segBytes C config rs) = .ok true) :
    ∃ before after, rs = before ++ after ∧ target = offset + (segBytes C config before).length := by
  induction fuel generalizing offset rs with
  | zero =>
    simp only [boundaryFrom, Except.ok.injEq, decide_eq_true_eq] at h
    exact ⟨[], rs, rfl, h.symm⟩
  | succ fuel ih =>
    rw [boundaryFrom] at h
    by_cases hle : target ≤ offset
    · simp only [hle, if_true, Except.ok.injEq, decide_eq_true_eq] at h
      exact ⟨[], rs, rfl, h.symm⟩
    rw [if_neg hle] at h
    cases rs with
    | nil => simp [recordHeaderBytes] at h
    | cons r rs =>
      have hs : r.payload.length < 2^32 := by have := r.fits; have := config.max_le; omega
      have hh := headerLength_frame r.payload (segBytes C config rs) hs
      have hv := validateHeader_frame r.payload (segBytes C config rs)
      have hl : r.frame.length = recordHeaderBytes + r.payload.length := encodeFrame_length _
      simp only [segBytes_cons, List.length_append] at h
      rw [if_neg (by omega)] at h
      simp only [Rec.frame] at h hl
      simp only [hv, hh] at h
      rw [if_neg (by have := r.fits; omega), ← hl, List.drop_left] at h
      split at h
      · cases h
      · obtain ⟨before, after, rfl, ht⟩ := ih _ _ h
        refine ⟨r :: before, after, rfl, ?_⟩
        rw [segBytes_cons, List.length_append]
        change target = offset + ((encodeFrame r.payload).length + (segBytes C config before).length)
        omega

/-- The boundary pass accepts nothing but record boundaries. -/
theorem boundary_of_isRecordBoundary {sequence target : Nat} {rs : List (Rec C config)}
    (h : isRecordBoundary config (segBytes C config rs) sequence target = .ok true) :
    ∃ before after, rs = before ++ after ∧ target = (segBytes C config before).length := by
  obtain ⟨before, after, hr, ht⟩ := boundaryFrom_true sequence target _ 0 rs h
  exact ⟨before, after, hr, by rw [ht, Nat.zero_add]⟩

end records
end Hoglet.Wal
