import Hoglet.Wal.Recovery

/-! When `open` recovers from a crash image, and when it reports a damaged record. -/
namespace Hoglet.Wal
variable {β : Type} {C : Codec β} {config : WalConfig}

/-- The log's sealed segments under an active segment of any bytes. -/
def Log.withFile (L : Log C config) (file : Bytes) : Log C config := { L with active := some ⟨[], file⟩ }

@[simp] theorem Log.withFile_next (L : Log C config) (file : Bytes) : (L.withFile file).next = L.next := rfl

theorem openLog_withFile (L : Log C config) (file : Bytes) {names : List Path}
    (hl : Lists (L.withFile file).dir names) :
    openLog C config names (L.withFile file).dir = (scanRest C config L.next true 0 file).map fun scan =>
      ⟨L.next, scan.validBytes, scan.truncatedTail,
        if scan.truncatedTail then (L.withFile file).dir.set (activePath L.next) (file.take scan.validBytes)
        else (L.withFile file).dir⟩ :=
  openLog_active (L.withFile file) rfl hl

/-- `open` succeeds, and the active segment is then the acknowledged frames, byte for byte, and some
whole frames of the unsynced ones; no other file has changed. -/
def Recovers (L : Log C config) (acked unsynced : List Bytes) (dir : Dir) (names : List Path) : Prop :=
  ∃ opened j, openLog C config names dir = .ok opened ∧ opened.sequence = L.next ∧
    opened.dir (activePath L.next) = some (frames (acked ++ unsynced.take j)) ∧
    opened.bytes = (frames (acked ++ unsynced.take j)).length ∧
    ∀ p, p ≠ activePath L.next → opened.dir p = dir p

/-- Recovery in terms of the repairing scan alone. -/
theorem recovers_iff_scan (L : Log C config) (acked unsynced : List Bytes) (file : Bytes) {names : List Path}
    (hl : Lists (L.withFile file).dir names) :
    Recovers L acked unsynced (L.withFile file).dir names ↔
      ∃ j cut, scanRest C config L.next true 0 file = .ok ⟨(frames (acked ++ unsynced.take j)).length, cut⟩ ∧
        file.take (frames (acked ++ unsynced.take j)).length = frames (acked ++ unsynced.take j) ∧
        (cut = false → file.length = (frames (acked ++ unsynced.take j)).length) := by
  have hfile : (L.withFile file).dir (activePath L.next) = some file := by
    have h := (L.withFile file).dir_active (t := ⟨[], file⟩) rfl
    simpa [Tail.bytes] using h
  rw [Recovers, openLog_withFile L file hl]
  cases hs : scanRest C config L.next true 0 file with
  | error e => simp [Except.map]
  | ok scan =>
    obtain ⟨valid, cut⟩ := scan
    constructor
    · rintro ⟨o, j, ho, _, hdir, hbytes, _⟩
      cases ho
      refine ⟨j, cut, by rw [← hbytes], ?_⟩
      simp only at hbytes hdir
      cases cut with
      | true =>
        simp only [if_true, Dir.set, Option.some.injEq] at hdir
        exact ⟨hbytes ▸ hdir, by simp⟩
      | false =>
        simp only [Bool.false_eq_true, if_false, hfile, Option.some.injEq] at hdir
        exact ⟨by rw [hdir, List.take_length], fun _ => by rw [hdir]⟩
    · rintro ⟨j, cut', hs', htake, hcut⟩
      cases hs'
      refine ⟨_, j, rfl, rfl, ?_, rfl, ?_⟩
      · cases cut with
        | true => simp only [if_true, Dir.set, htake]
        | false =>
          have hlen := hcut rfl
          simp only [Bool.false_eq_true, if_false, hfile]
          rw [← hlen, List.take_length] at htake
          rw [htake]
      · intro p hp
        cases cut <;> simp [Dir.set, hp]

private theorem frames_readable {ps : List Bytes} (h : ∀ p ∈ ps, Readable C config p) :
    ∃ rs : List (Rec C config), segBytes C config rs = frames ps := by
  induction ps with
  | nil => exact ⟨[], rfl⟩
  | cons p ps ih =>
    obtain ⟨r, rfl⟩ := Rec.exists_of_readable (h p (by simp))
    obtain ⟨rs, hrs⟩ := ih fun q hq => h q (by simp [hq])
    exact ⟨r :: rs, by rw [segBytes_cons, hrs, frames_cons, Rec.frame]⟩

/-- The scan of acknowledged frames that all read back goes on with what follows them. -/
theorem scanRest_frames (sequence : Nat) {acked : List Bytes} (h : ∀ p ∈ acked, Readable C config p) (rest : Bytes) :
    scanRest C config sequence true 0 (frames acked ++ rest) =
      scanRest C config sequence true (frames acked).length rest := by
  obtain ⟨rs, hrs⟩ := frames_readable h
  rw [← hrs, scanRest_segBytes, Nat.zero_add]

private theorem exists_first_unreadable {ps : List Bytes} (h : ¬ ∀ p ∈ ps, Readable C config p) :
    ∃ before p after, ps = before ++ p :: after ∧ (∀ q ∈ before, Readable C config q) ∧ ¬ Readable C config p := by
  induction ps with
  | nil => simp at h
  | cons p ps ih =>
    by_cases hp : Readable C config p
    · obtain ⟨before, q, after, rfl, hb, hq⟩ := ih fun hall => h (by
        intro q hq
        rcases List.mem_cons.mp hq with rfl | hq
        · exact hp
        · exact hall q hq)
      exact ⟨p :: before, q, after, rfl, by simpa [hp] using hb, hq⟩
    · exact ⟨[], p, ps, rfl, by simp, hp⟩

/-- Exactly when a crash image is recovered from. -/
theorem open_recovers_iff (L : Log C config) {acked unsynced : List Bytes} {k z : Nat}
    (hacked : ∀ p ∈ acked, Written C config p) (hunsynced : ∀ p ∈ unsynced, Written C config p)
    (hkz : k + z ≤ (frames unsynced).length) {names : List Path}
    (hl : Lists (L.withFile (crashImage acked unsynced k z)).dir names) :
    Recovers L acked unsynced (L.withFile (crashImage acked unsynced k z)).dir names ↔
      (∀ p ∈ acked, Readable C config p) ∧ TearTold C config unsynced k z := by
  rw [recovers_iff_scan L acked unsynced _ hl]
  by_cases hr : ∀ p ∈ acked, Readable C config p
  · rw [and_iff_right hr, ← scanRest_unsynced L.next unsynced hunsynced (frames acked).length k z hkz]
    simp only [crashImage, scanRest_frames L.next hr, KeepsPrefix, frames_append,
      List.length_append, List.take_length_add_append, List.append_cancel_left_eq, Nat.add_left_cancel_iff]
  · simp only [hr, false_and, iff_false]
    obtain ⟨before, p, after, rfl, hb, hp⟩ := exists_first_unreadable hr
    rintro ⟨j, cut, hs, _⟩
    have hw := hacked p (by simp)
    have himage : crashImage (before ++ p :: after) unsynced k z = frames before ++ (encodeFrame p ++
        (frames after ++ ((frames unsynced).take k ++ List.replicate z 0))) := by simp [crashImage]
    rw [himage, scanRest_frames L.next hb, scanRest_unreadable L.next _ hw hp] at hs
    split at hs
    · have := congrArg SegmentScan.validBytes (Except.ok.inj hs)
      have hpos : 0 < (encodeFrame p).length := by simp [recordHeaderBytes]
      simp only [frames_append, List.length_append, frames_cons] at this
      omega
    · cases hs

/-- The scan takes these bytes for a torn tail or a record, whatever stands behind them: their header
passes, and they announce a payload that runs past the end of the file, or ends there without being an
empty batch, or is a record. -/
def Overlooked (C : Codec β) (config : WalConfig) (rest : Bytes) : Prop :=
  validateHeader (rest.take recordHeaderBytes) = none ∧ headerLength rest ≤ config.maxRecordBytes ∧
  (rest.length < recordHeaderBytes + headerLength rest ∨
    (crc32 (payloadAt rest) = headerCrc rest ∧
      ∃ batch, C.decode (payloadAt rest) = some batch ∧ C.eventCount batch ≠ 0) ∨
    recordHeaderBytes + headerLength rest = rest.length ∧
      ¬ (crc32 (payloadAt rest) = headerCrc rest ∧
        ∃ batch, C.decode (payloadAt rest) = some batch ∧ C.eventCount batch = 0))

private theorem error_offset (sequence offset : Nat) (rest : Bytes) {segment at_ : Nat} {reason : Reason}
    (h : scanRest C config sequence true offset rest = .error (.corruption segment at_ reason)) : offset ≤ at_ := by
  induction hn : rest.length using Nat.strong_induction_on generalizing offset rest with
  | _ n ih =>
    rw [scanRest_eq] at h
    cases hp : probe C config rest with
    | eof => simp [hp] at h
    | bad reason =>
      simp only [hp] at h
      split at h
      · cases h
      · cases h; exact le_refl _
    | record batch framed =>
      simp only [hp] at h
      have hb := probe_record_bounds C config hp
      have := ih (rest.drop framed).length (by rw [List.length_drop]; omega) _ _ h rfl
      omega

private theorem validateHeader_reason {header : Bytes} {reason : Reason} (h : validateHeader header = some reason) :
    reason = .invalidMagic ∨ reason = .unsupportedVersion ∨ reason = .nonZeroReserved := by
  unfold validateHeader at h
  split at h
  · cases h; simp
  split at h
  · cases h; simp
  split at h
  · cases h; simp
  · cases h

/-- Bytes that are not all zero and hold at least a header are reported where they stand, unless they
are overlooked. -/
theorem scanRest_reports_iff (sequence offset : Nat) {rest : Bytes} (hlen : recordHeaderBytes ≤ rest.length)
    (hz : rest.all (· = 0) = false) :
    (∃ reason, scanRest C config sequence true offset rest = .error (.corruption sequence offset reason)) ↔
      ¬ Overlooked C config rest := by
  have hne : rest ≠ [] := by
    rintro rfl
    simp [recordHeaderBytes] at hlen
  suffices (∃ reason, probe C config rest = .bad reason ∧ isTornTail rest reason = false) ↔
      ¬ Overlooked C config rest by
    rw [← this, scanRest_eq]
    constructor
    · rintro ⟨reason, h⟩
      cases hp : probe C config rest with
      | eof => simp [hp] at h
      | bad reason' =>
        simp only [hp, Bool.true_and] at h
        split at h
        · cases h
        · exact ⟨reason', rfl, Bool.eq_false_of_not_eq_true ‹¬ isTornTail rest reason' = true›⟩
      | record batch framed =>
        simp only [hp] at h
        have := error_offset _ _ _ h
        have := (probe_record_bounds C config hp).1
        omega
    · rintro ⟨reason, hp, ht⟩
      exact ⟨reason, by simp [hp, ht]⟩
  rw [probe, if_neg hne, if_neg (by omega)]
  cases hv : validateHeader (rest.take recordHeaderBytes) with
  | some reason =>
    simp only [Overlooked, hv, reduceCtorEq, false_and, not_false_eq_true, iff_true]
    refine ⟨reason, rfl, ?_⟩
    rcases validateHeader_reason hv with rfl | rfl | rfl <;> exact hz
  | none =>
    simp only [Overlooked, hv, true_and]
    by_cases hmax : config.maxRecordBytes < headerLength rest
    · simp [hmax, isTornTail]
    rw [if_neg hmax]
    have hle : headerLength rest ≤ config.maxRecordBytes := by omega
    by_cases hin : rest.length < recordHeaderBytes + headerLength rest
    · simp [hin, hle, isTornTail]
    rw [if_neg hin]
    by_cases hcrc : crc32 (payloadAt rest) = headerCrc rest
    swap
    · simp only [hcrc, ne_eq, not_false_eq_true, if_true, hle, hin, isTornTail]
      simp
    simp only [hcrc, ne_eq, not_true_eq_false, if_false, hle, hin, true_and, false_or]
    cases hd : C.decode (payloadAt rest) with
    | none => simp [isTornTail]
    | some batch =>
      by_cases h0 : C.eventCount batch = 0
      · simp [h0, isTornTail]
      · simp [h0]

private theorem frame_not_zero (r : Rec C config) (pre tail : Bytes) :
    (pre ++ r.frame ++ tail).all (· = 0) = false := by
  simp [Rec.frame, encodeFrame, recordMagic]

theorem open_reports_iff (L : Log C config) (before : List (Rec C config)) (damaged mid : Bytes) (valid : Rec C config)
    (tail : Bytes) {names : List Path}
    (hl : Lists (L.withFile (segBytes C config before ++ (damaged ++ mid ++ valid.frame ++ tail))).dir names) :
    (∃ reason, openLog C config names
        (L.withFile (segBytes C config before ++ (damaged ++ mid ++ valid.frame ++ tail))).dir =
      .error (.corruption L.next (segBytes C config before).length reason)) ↔
    ¬ Overlooked C config (damaged ++ mid ++ valid.frame ++ tail) := by
  rw [openLog_withFile L _ hl, scanRest_segBytes, Nat.zero_add,
    ← scanRest_reports_iff L.next (segBytes C config before).length ?_ (frame_not_zero valid _ tail)]
  · cases scanRest C config L.next true (segBytes C config before).length (damaged ++ mid ++ valid.frame ++ tail) <;>
      simp [Except.map]
  · simp only [List.length_append, Rec.frame, encodeFrame_length]
    omega

/-- A crash image is recovered from, with every acknowledged frame kept, exactly when the acknowledged
records read back and recovery can tell the tear of the unsynced ones; damage to a record with a valid
one behind it is reported where it stands exactly when the scan does not overlook it. -/
theorem crash_image_recovery (L : Log C config) :
    (∀ (acked unsynced : List Bytes) (k z : Nat) (names : List Path),
      (∀ p ∈ acked, Written C config p) → (∀ p ∈ unsynced, Written C config p) →
      k + z ≤ (frames unsynced).length → Lists (L.withFile (crashImage acked unsynced k z)).dir names →
      (Recovers L acked unsynced (L.withFile (crashImage acked unsynced k z)).dir names ↔
        (∀ p ∈ acked, Readable C config p) ∧ TearTold C config unsynced k z)) ∧
    (∀ (before : List (Rec C config)) (damaged mid : Bytes) (valid : Rec C config) (tail : Bytes) (names : List Path),
      Lists (L.withFile (segBytes C config before ++ (damaged ++ mid ++ valid.frame ++ tail))).dir names →
      ((∃ reason, openLog C config names
          (L.withFile (segBytes C config before ++ (damaged ++ mid ++ valid.frame ++ tail))).dir =
        .error (.corruption L.next (segBytes C config before).length reason)) ↔
      ¬ Overlooked C config (damaged ++ mid ++ valid.frame ++ tail))) :=
  ⟨fun _ _ _ _ _ hacked hunsynced hkz hl => open_recovers_iff L hacked hunsynced hkz hl,
    fun before damaged mid valid tail _ hl => open_reports_iff L before damaged mid valid tail hl⟩

/-- A log that has sealed nothing yet. -/
def freshLog : Log (Capture.batchCodec Capture.Crates.small) .standard := ⟨1, one_pos, [], none⟩

private theorem freshLog_lists (file : Bytes) : Lists (freshLog.withFile file).dir [activePath 1] := by
  refine ⟨by simp, fun p => ?_⟩
  obtain ⟨s, suffix⟩ := p
  cases suffix with
  | open_ => simpa [activePath, freshLog, Log.next, Log.withFile] using ((freshLog.withFile file).mem_dir_active s).symm
  | wal =>
    have h := (freshLog.withFile file).mem_dir_sealed s
    simp only [sealedPath, freshLog, Log.withFile, Log.next] at h
    simp only [activePath, List.mem_singleton, Path.mk.injEq, reduceCtorEq, and_false, false_iff]
    intro hs
    have := h.mp hs
    simp at this
    omega

private theorem flatRec_written : Written (Capture.batchCodec Capture.Crates.small) .standard flatRec.payload :=
  ⟨flatRec.batch, (if_neg flatRec.nonempty).trans (if_neg (Nat.not_lt.mpr flatRec.fits))⟩

private theorem tearTold_torn {p : Bytes} {ps : List Bytes} {k z : Nat} (h : k < (encodeFrame p).length) :
    TearTold C config (p :: ps) k z ↔ Tells p k z := by
  rw [TearTold, if_neg (by omega)]

/-- A torn frame of which the header and four payload bytes landed, with three zeros behind it. -/
theorem torn_payload_recovers : Recovers freshLog [flatRec.payload] [flatRec.payload]
    (freshLog.withFile (crashImage [flatRec.payload] [flatRec.payload] 20 3)).dir [activePath 1] := by
  refine ((crash_image_recovery freshLog).1 _ _ _ _ _ (by simp [flatRec_written]) (by simp [flatRec_written])
    (by decide +kernel) (freshLog_lists _)).mpr ⟨by simp [flatRec.readable], ?_⟩
  rw [tearTold_torn (by decide +kernel)]
  exact .inr (.inr ⟨by decide, by decide +kernel⟩)

/-- The first record's frame with its length field damaged. -/
def damagedLength : Bytes := flatRec.frame.take 8 ++ [0xFF, 0xFF, 0, 0] ++ flatRec.frame.drop 12

/-- One landed byte under zeros is refused, and a damaged length hides the valid record behind it. -/
theorem tear_and_damage_misjudged :
    ¬ Recovers freshLog [flatRec.payload] [flatRec.payload]
      (freshLog.withFile (crashImage [flatRec.payload] [flatRec.payload] 1 15)).dir [activePath 1] ∧
    ∃ opened, openLog (Capture.batchCodec Capture.Crates.small) .standard [activePath 1]
        (freshLog.withFile (damagedLength ++ flatRec.frame)).dir = .ok opened ∧ opened.bytes = 0 := by
  constructor
  · rw [open_recovers_iff freshLog (by simp [flatRec_written]) (by simp [flatRec_written])
      (by decide +kernel) (freshLog_lists _), tearTold_torn (by decide +kernel)]
    rintro ⟨_, h⟩
    rcases h with h | h | ⟨h, _⟩ <;> revert h <;> decide
  · have hp : probe (Capture.batchCodec Capture.Crates.small) .standard (damagedLength ++ flatRec.frame) =
        .bad .incompletePayload := by
      rw [probe, if_neg (by decide +kernel), if_neg (by decide +kernel),
        show validateHeader ((damagedLength ++ flatRec.frame).take recordHeaderBytes) = none by decide +kernel]
      simp only
      rw [if_neg (by decide +kernel), if_pos (by decide +kernel)]
    rw [openLog_withFile freshLog _ (freshLog_lists _), scanRest_eq, hp]
    exact ⟨_, rfl, rfl⟩

end Hoglet.Wal
