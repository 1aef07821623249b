import Mathlib.Data.List.Basic
import Mathlib.Tactic

/-! One durable record: `[magic:4][version:1][reserved:3][length:u32 LE][crc32:u32 LE][payload]`.
`probe` is the chain of checks that the segment scan and the record reader share. -/
namespace Hoglet.Wal

abbrev Bytes := List UInt8

/-- The reasons a `WalError::Corruption` carries. -/
inductive Reason where
  | incompleteHeader | invalidMagic | unsupportedVersion | nonZeroReserved | lengthExceedsLimit
  | incompletePayload | checksumMismatch | invalidPayload | emptyBatch
  | multipleActive | sequenceZero | duplicateSequence | missingSegment | activeNotNewest
  | cursorSegmentMissing | cursorBeyondEof | cursorNotBoundary
  deriving DecidableEq, Repr

def Reason.text : Reason → String
  | .incompleteHeader => "incomplete record header"
  | .invalidMagic => "invalid record magic"
  | .unsupportedVersion => "unsupported record version"
  | .nonZeroReserved => "non-zero reserved header bytes"
  | .lengthExceedsLimit => "record length exceeds limit"
  | .incompletePayload => "incomplete record payload"
  | .checksumMismatch => "record checksum mismatch"
  | .invalidPayload => "invalid captured batch payload"
  | .emptyBatch => "empty captured batch"
  | .multipleActive => "multiple active segments"
  | .sequenceZero => "segment sequence must be positive"
  | .duplicateSequence => "duplicate segment sequence"
  | .missingSegment => "missing WAL segment before this sequence"
  | .activeNotNewest => "active segment is not newest"
  | .cursorSegmentMissing => "cursor segment does not exist"
  | .cursorBeyondEof => "cursor is beyond segment EOF"
  | .cursorNotBoundary => "cursor is not on a record boundary"

/-- The kinds of `std::io::Error` the WAL tells apart. -/
inductive IoKind where
  | notFound | alreadyExists | unexpectedEof | other
  deriving DecidableEq, Repr

inductive WalError where
  | io (kind : IoKind)
  | serialization
  | invalidConfig
  | emptyBatch
  | invalidProjectBinding
  | poisoned
  | recordTooLarge (actual maximum : Nat)
  | corruption (segment byteOffset : Nat) (reason : Reason)
  deriving DecidableEq, Repr

def WalError.IsCorruption : WalError → Prop
  | .corruption _ _ _ => True
  | _ => False

instance : DecidablePred WalError.IsCorruption := fun e => by
  cases e <;> unfold WalError.IsCorruption <;> infer_instance

/-- A configuration that passed `WalConfig::new`. -/
structure WalConfig where
  segmentTargetBytes : Nat
  maxRecordBytes : Nat
  target_pos : 0 < segmentTargetBytes
  max_pos : 0 < maxRecordBytes
  max_le : maxRecordBytes ≤ 2^32 - 1

def WalConfig.new (segmentTargetBytes maxRecordBytes : Nat) : Except WalError WalConfig :=
  if h : segmentTargetBytes = 0 ∨ maxRecordBytes = 0 ∨ 2^32 - 1 < maxRecordBytes then
    .error .invalidConfig
  else .ok ⟨segmentTargetBytes, maxRecordBytes, by omega, by omega, by omega⟩

/-- `WalConfig::default`: 64 MiB segments, 64 MiB records. -/
def WalConfig.standard : WalConfig :=
  ⟨64 * 1024 * 1024, 64 * 1024 * 1024, by norm_num, by norm_num, by norm_num⟩

/-- What the log needs of the payload format: how a batch is serialised, how a payload is read
back, and how many events a batch holds. No text of the format is empty or contains a NUL, and a
batch that is read back has the events it had. -/
structure Codec (β : Type) where
  encode : β → Bytes
  decode : Bytes → Option β
  eventCount : β → Nat
  decode_nil : decode [] = none
  decode_nul : ∀ bytes, 0 ∈ bytes → decode bytes = none
  eventCount_decode : ∀ batch batch', decode (encode batch) = some batch' → eventCount batch' = eventCount batch

def recordMagic : Bytes := [0x48, 0x47, 0x4C, 0x57]
def recordVersion : UInt8 := 1
def recordHeaderBytes : Nat := 16

/-- `u64::saturating_add`. -/
def saturatingAdd (a b : Nat) : Nat := min (a + b) (2^64 - 1)

def le32 (n : Nat) : Bytes :=
  [UInt8.ofNat n, UInt8.ofNat (n / 2^8), UInt8.ofNat (n / 2^16), UInt8.ofNat (n / 2^24)]

def ofLe32 : Bytes → Nat
  | a :: b :: c :: d :: _ => a.toNat + 2^8 * b.toNat + 2^16 * c.toNat + 2^24 * d.toNat
  | _ => 0

theorem ofLe32_le32 (n : Nat) (rest : Bytes) (h : n < 2^32) : ofLe32 (le32 n ++ rest) = n := by
  simp only [le32, ofLe32, List.cons_append, List.nil_append, UInt8.toNat_ofNat']
  omega

/-- One byte of the reflected CRC-32 with polynomial `0xEDB88320`. -/
def crcByte (crc : UInt32) (byte : UInt8) : UInt32 :=
  (List.range 8).foldl
    (fun c _ => if c &&& 1 = 1 then (c >>> 1) ^^^ 0xEDB88320 else c >>> 1) (crc ^^^ byte.toUInt32)

/-- `crc32fast::hash`. -/
def crc32 (bytes : Bytes) : Nat := ((bytes.foldl crcByte 0xFFFFFFFF) ^^^ 0xFFFFFFFF).toNat

example : crc32 [0x31, 0x32, 0x33, 0x34, 0x35, 0x36, 0x37, 0x38, 0x39] = 0xCBF43926 := by
  decide +kernel

theorem crc32_lt (bytes : Bytes) : crc32 bytes < 2^32 := UInt32.toNat_lt _

def encodeFrame (payload : Bytes) : Bytes :=
  recordMagic ++ [recordVersion] ++ [0, 0, 0] ++ le32 payload.length ++ le32 (crc32 payload) ++ payload

@[simp] theorem encodeFrame_length (payload : Bytes) :
    (encodeFrame payload).length = recordHeaderBytes + payload.length := by
  simp [encodeFrame, recordMagic, le32, recordHeaderBytes]
  omega

theorem encodeFrame_ne_nil (payload : Bytes) : encodeFrame payload ≠ [] := by
  simp [encodeFrame, recordMagic]

def validateHeader (header : Bytes) : Option Reason :=
  if header.take 4 ≠ recordMagic then some .invalidMagic
  else if (header.drop 4).take 1 ≠ [recordVersion] then some .unsupportedVersion
  else if (header.drop 5).take 3 ≠ [0, 0, 0] then some .nonZeroReserved
  else none

def headerLength (rest : Bytes) : Nat := ofLe32 (rest.drop 8)
def headerCrc (rest : Bytes) : Nat := ofLe32 (rest.drop 12)
def payloadAt (rest : Bytes) : Bytes := (rest.drop recordHeaderBytes).take (headerLength rest)

/-- The payload `write` frames, once it has refused empty batches and oversized records. -/
def writePayload {β : Type} (C : Codec β) (config : WalConfig) (batch : β) : Except WalError Bytes :=
  if C.eventCount batch = 0 then .error .emptyBatch
  else if config.maxRecordBytes < (C.encode batch).length then
    .error (.recordTooLarge (C.encode batch).length config.maxRecordBytes)
  else .ok (C.encode batch)

theorem writePayload_ok {β : Type} {C : Codec β} {config : WalConfig} {batch : β} {payload : Bytes}
    (h : writePayload C config batch = .ok payload) :
    payload = C.encode batch ∧ C.eventCount batch ≠ 0 ∧ payload.length ≤ config.maxRecordBytes := by
  unfold writePayload at h
  split at h
  · cases h
  split at h
  · cases h
  · cases h
    exact ⟨rfl, by assumption, by omega⟩

/-- What the bytes from a cursor to the end of the file hold. -/
inductive Probe (β : Type) where
  | eof
  | bad (reason : Reason)
  | record (batch : β) (framedBytes : Nat)

section probe
variable {β : Type} (C : Codec β) (config : WalConfig)

/-- The checks `scan_segment` and `read_record` both make, in their common order. -/
def probe (rest : Bytes) : Probe β :=
  if rest = [] then .eof
  else if rest.length < recordHeaderBytes then .bad .incompleteHeader
  else match validateHeader (rest.take recordHeaderBytes) with
    | some reason => .bad reason
    | none =>
      if config.maxRecordBytes < headerLength rest then .bad .lengthExceedsLimit
      else if rest.length < recordHeaderBytes + headerLength rest then .bad .incompletePayload
      else if crc32 (payloadAt rest) ≠ headerCrc rest then .bad .checksumMismatch
      else match C.decode (payloadAt rest) with
        | none => .bad .invalidPayload
        | some batch =>
          if C.eventCount batch = 0 then .bad .emptyBatch
          else .record batch (recordHeaderBytes + headerLength rest)

@[simp] theorem probe_nil : probe C config [] = .eof := by simp [probe]

theorem validateHeader_frame (payload rest : Bytes) :
    validateHeader ((encodeFrame payload ++ rest).take recordHeaderBytes) = none := by
  simp [validateHeader, encodeFrame, recordMagic, recordHeaderBytes, le32]

theorem headerLength_frame (payload rest : Bytes) (h : payload.length < 2^32) :
    headerLength (encodeFrame payload ++ rest) = payload.length := by
  have hd : (encodeFrame payload ++ rest).drop 8 =
      le32 payload.length ++ (le32 (crc32 payload) ++ payload ++ rest) := by
    simp [encodeFrame, recordMagic]
  rw [headerLength, hd, ofLe32_le32 _ _ h]

theorem headerCrc_frame (payload rest : Bytes) :
    headerCrc (encodeFrame payload ++ rest) = crc32 payload := by
  have hd : (encodeFrame payload ++ rest).drop 12 = le32 (crc32 payload) ++ (payload ++ rest) := by
    simp [encodeFrame, recordMagic, le32]
  rw [headerCrc, hd, ofLe32_le32 _ _ (crc32_lt payload)]

theorem payloadAt_frame (payload rest : Bytes) (h : payload.length < 2^32) :
    payloadAt (encodeFrame payload ++ rest) = payload := by
  have hd : (encodeFrame payload ++ rest).drop recordHeaderBytes = payload ++ rest := by
    simp [encodeFrame, recordMagic, le32, recordHeaderBytes]
  rw [payloadAt, hd, headerLength_frame payload rest h, List.take_left']
  rfl

/-- A whole frame is read as its payload decodes, whatever follows it. -/
theorem probe_frame (payload rest : Bytes) (h : payload.length ≤ config.maxRecordBytes) :
    probe C config (encodeFrame payload ++ rest) =
      match C.decode payload with
      | none => .bad .invalidPayload
      | some batch =>
        if C.eventCount batch = 0 then .bad .emptyBatch
        else .record batch (encodeFrame payload).length := by
  have hs : payload.length < 2^32 := by have := config.max_le; omega
  have hne : encodeFrame payload ++ rest ≠ [] := by simp [encodeFrame_ne_nil]
  have hlen : (encodeFrame payload ++ rest).length = recordHeaderBytes + payload.length + rest.length := by
    simp
  simp only [probe, hne, if_false, hlen, validateHeader_frame, headerLength_frame payload rest hs,
    headerCrc_frame, payloadAt_frame payload rest hs, ne_eq, not_true_eq_false, encodeFrame_length]
  rw [if_neg (by omega), if_neg (by omega), if_neg (by omega)]

end probe
end Hoglet.Wal
