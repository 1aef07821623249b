import Hoglet.Wal.Backlog

/-! The bound on unpublished log, and the runs that pass it. -/
namespace Hoglet.Wal
open Capture WriteAheadLog

/-- Nothing fails. -/
def noFaults : Faults := fun _ => none

section pile
variable {ν U : Type} {K : Crates ν U} {config : WalConfig}

/-- A log on which nothing has failed and whose next numbers are free. -/
structure WriteAheadLog.Clean (log : WriteAheadLog) : Prop where
  healthy : log.poisoned = false
  sound : log.Sound
  ahead : log.Ahead
  free : ∀ q, log.sequence < q → log.device.files (activePath q) = none

private theorem createActive_noFaults {sequence : Nat} {d : Device} (h : d.files (activePath sequence) = none) :
    createActive noFaults sequence d = (.ok (), ⟨Device.setFile d.files (activePath sequence) (some ⟨[], 0⟩), d.ops + 2, d.failed⟩) := by
  unfold createActive Device.createNew
  rw [h]
  rfl

private theorem seal_runs {log : WriteAheadLog} (h : log.Clean) :
    Ends (sealNonempty noFaults) log (fun _ log' => ∀ q, log.sequence + 1 < q → log'.device.files (activePath q) = none) fun _ _ => False := by
  have hfree : ∀ q, log.sequence < q → ∀ file, Device.setFile (Device.setFile (Device.setFile log.device.files (activePath log.sequence) file)
      (sealedPath log.sequence) (Device.setFile log.device.files (activePath log.sequence) file (activePath log.sequence)))
      (activePath log.sequence) none (activePath q) = none := by
    intro q hq file
    rw [Device.setFile_other _ _ (by simp [activePath]; omega), Device.setFile_other _ _ (by simp [activePath, sealedPath]),
      Device.setFile_other _ _ (by simp [activePath]; omega), h.free q hq]
  refine .bind (.get (.bind ?_))
  refine ends_poisoned (fun d₁ h₁ => .bind ?_) fun e d h => by cases h
  cases h₁
  refine ends_poisoned (fun d₂ h₂ => .bind ?_) fun e d h => by cases h
  cases h₂
  refine ends_poisoned (fun d₃ h₃ => .bind ?_) fun e d h => by cases h
  cases h₃
  refine ends_poisoned (fun d₄ h₄ => .modify fun q hq => ?_) fun e d h => ?_
  · rw [createActive_noFaults (hfree _ (Nat.lt_succ_self _) _)] at h₄
    cases h₄
    change Device.setFile _ _ _ (activePath q) = none
    rw [Device.setFile_other _ _ (by simp [activePath]; omega)]
    exact hfree q (by omega) _
  · rw [createActive_noFaults (hfree _ (Nat.lt_succ_self _) _)] at h
    cases h

private theorem seal_clean {log : WriteAheadLog} (h : log.Clean) :
    Ends (sealNonempty noFaults) log (fun _ log' => log'.Clean ∧ log'.bytes = 0 ∧ log'.footprint = log.footprint) fun _ _ => False := by
  have hruns := seal_runs h
  have hsealed : Ends (sealNonempty noFaults) log _ _ := sealNonempty_sealed h.ahead h.healthy
  have hkeeps : Ends (sealNonempty noFaults) log _ _ := sealNonempty_keeps log
  unfold Ends
  cases hx : sealNonempty noFaults log with
  | error e log' => exact hruns.error hx
  | ok u log' =>
    have hs := hsealed.ok hx
    refine ⟨⟨hs.poisoned.trans h.healthy, (hkeeps.ok hx).1.sound h.sound, hs.grows.ahead, fun q hq => hruns.ok hx q (hs.sequence ▸ hq)⟩,
      hs.bytes, hs.footprint⟩

/-- A whole frame makes the footprint as much larger. -/
private theorem appendFrame_clean {frame : Bytes} {count : Nat} {log : WriteAheadLog} (h : log.Clean) :
    Ends (appendFrame noFaults frame count) log
      (fun _ log' => log'.Clean ∧ log'.bytes = log.bytes + frame.length ∧ log'.footprint = log.footprint + frame.length) fun _ _ => False := by
  obtain ⟨hfail, file, hfile, hlen⟩ := h.sound h.healthy
  have hgrows : Ends (appendFrame noFaults frame count) log _ _ := appendFrame_grows h.ahead
  refine .bind (.get (.bind (ends_poisoned (fun device hd => ?_) fun e d h => by cases h)))
  have hfiles : device.files = Device.setFile log.device.files (activePath log.sequence) (some { file with bytes := file.bytes ++ frame }) := by
    cases hd
    simp [hfile]
  have hfailed : device.failed = log.device.failed := by
    cases hd
    rfl
  have hactive : device.size (activePath log.sequence) = log.device.size (activePath log.sequence) + frame.length := by
    simp [Device.size, hfiles, hfile, Device.setFile_same]
  have hother : ∀ q, device.size (sealedPath q) = log.device.size (sealedPath q) := by
    intro q
    rw [Device.size, hfiles, Device.setFile_other _ _ (by simp [activePath, sealedPath]), Device.size]
  refine .bind (.modify (.pure ⟨⟨h.healthy, fun _ => ⟨hfailed.trans hfail, { file with bytes := file.bytes ++ frame }, ?_, by simp [hlen]⟩,
    ⟨fun q hq => (hother q).trans (h.ahead.later q hq), fun hp => (hother _).trans (h.ahead.here hp)⟩, fun q hq => ?_⟩, rfl, ?_⟩))
  · rw [hfiles, Device.setFile_same]
  · change device.files (activePath q) = none
    have hq : log.sequence < q := hq
    rw [hfiles, Device.setFile_other _ _ (by simp [activePath]; omega), h.free q hq]
  · have hsealed : ∀ log' : WriteAheadLog, log'.device = device → log'.sequence = log.sequence → log'.footprint = log.footprint + frame.length := by
      intro log' hdevice hsequence
      rw [footprint, footprint, sealedTotal, sealedTotal, sealedWhere, sealedWhere, hsequence, hdevice, hactive]
      simp only [hother]
      omega
    exact hsealed _ rfl rfl

private theorem write_clean {batch : CapturedBatch ν U} {log : WriteAheadLog} {payload : Bytes} (h : log.Clean)
    (hpay : writePayload (batchCodec K) .standard batch = .ok payload) :
    Ends (write (batchCodec K) .standard noFaults batch) log
      (fun _ log' => log'.Clean ∧ log'.bytes ≤ maxFrameBytes .standard ∧
        log'.footprint = log.footprint + (encodeFrame payload).length) fun _ _ => False := by
  have hframe : (encodeFrame payload).length ≤ maxFrameBytes .standard := by
    rw [encodeFrame_length, maxFrameBytes]
    have := (writePayload_ok hpay).2.2
    omega
  refine .bind (.get ?_)
  simp only [h.healthy, Bool.false_eq_true, if_false, hpay]
  refine .bind (.get ?_)
  split
  · refine .bind ((seal_clean h).mono ?_ fun _ _ => id)
    rintro _ mid ⟨hmid, hbytes, hsame⟩
    refine (appendFrame_clean hmid).mono ?_ fun _ _ => id
    rintro _ log' ⟨hclean, hbytes', hfoot⟩
    refine ⟨hclean, ?_, ?_⟩
    · omega
    · rw [hfoot, hsame]
  · rename_i hfits
    refine (appendFrame_clean h).mono ?_ fun _ _ => id
    rintro _ log' ⟨hclean, hbytes, hfoot⟩
    refine ⟨hclean, ?_, hfoot⟩
    simp only [saturatingAdd, WalConfig.standard] at hfits
    simp only [maxFrameBytes, recordHeaderBytes, WalConfig.standard] at hframe ⊢
    omega

/-- The writer between batches while no publication ends well: nothing but its own segments is there, none of them
in the total. -/
structure Piled (n : Nat) (s : Backlog ν U) : Prop where
  clean : s.log.Clean
  bytes : s.log.bytes ≤ maxFrameBytes .standard
  total : s.sealedBytes = 0
  writer : s.writer = .gathering
  held : n ≤ s.held

/-- One more batch piles up on the log, whichever segments it has sealed. -/
private theorem pile_up {batch : CapturedBatch ν U} {payload : Bytes} (hpay : writePayload (batchCodec K) .standard batch = .ok payload)
    (hestimate : encodedBytes batch ≤ 1024) {start s : Backlog ν U} {n : Nat}
    (h : System.Reached start (BacklogStep K .standard noFaults) System.anyStep s) (hpiled : Piled n s) :
    ∃ s', System.Reached start (BacklogStep K .standard noFaults) System.anyStep s' ∧ Piled (n + 1) s' := by
  have hwrite : Ends (write (batchCodec K) .standard noFaults batch) s.log _ _ := write_clean hpiled.clean hpay
  have hbytes := hpiled.bytes
  have hroom : ¬ maxUnpublishedWalBytes < saturatingAdd (saturatingAdd s.sealedBytes s.log.bytes) (encodedBytes batch) := by
    rw [hpiled.total]
    simp only [maxFrameBytes, recordHeaderBytes, WalConfig.standard] at hbytes
    simp only [saturatingAdd, maxUnpublishedWalBytes]
    omega
  have hreached := (h.step trivial (.load batch hpiled.writer)).step trivial (.append rfl)
  refine ⟨_, hreached, ?_⟩
  cases hx : write (batchCodec K) .standard noFaults batch s.log with
  | error e log => exact (hwrite.error hx).elim
  | ok receipt log =>
    obtain ⟨hclean, hbytes', hfoot⟩ := hwrite.ok hx
    have hlog : (admitBatch K .standard noFaults batch s.sealedBytes s.log).2 = log := by rw [admitBatch, if_neg hroom, hx]
    have hheld := hpiled.held
    have hpos : 0 < (encodeFrame payload).length := List.length_pos_iff.mpr (encodeFrame_ne_nil payload)
    refine ⟨?_, ?_, hpiled.total, rfl, ?_⟩
    · change (admitBatch K .standard noFaults batch s.sealedBytes s.log).2.Clean
      rw [hlog]
      exact hclean
    · change (admitBatch K .standard noFaults batch s.sealedBytes s.log).2.bytes ≤ _
      rw [hlog]
      exact hbytes'
    · change n + 1 ≤ (admitBatch K .standard noFaults batch s.sealedBytes s.log).2.footprint
      rw [hlog, hfoot]
      rw [Backlog.held] at hheld
      omega

private theorem piles_up {batch : CapturedBatch ν U} {payload : Bytes} (hpay : writePayload (batchCodec K) .standard batch = .ok payload)
    (hestimate : encodedBytes batch ≤ 1024) {start : Backlog ν U} (hstart : Piled 0 start) (n : Nat) :
    ∃ s, System.Reached start (BacklogStep K .standard noFaults) System.anyStep s ∧ Piled n s := by
  induction n with
  | zero => exact ⟨start, .start, hstart⟩
  | succ n ih =>
    obtain ⟨s, h, hpiled⟩ := ih
    exact pile_up hpay hestimate h hpiled

end pile

section claims
variable {ν U : Type}

/-- As long as a batch is admitted only when every sealed segment is in the total, the log stays within the limit
and one record, and at the limit batches are refused. -/
theorem backlog_bounded (K : Crates ν U) (config : WalConfig) (faults : Faults) (start s : Backlog ν U) (hstart : start.Opened config)
    (h : System.Reached start (BacklogStep K config faults) Covered s) :
    s.held ≤ maxUnpublishedWalBytes + maxFrameBytes config ∧ s.Refuses K config faults := by
  have hinv : s.Inv config := h.invariant hstart.inv fun _ _ _ => inv_backlogStep
  exact ⟨hinv.held, hinv.refuses⟩

end claims

/-- A log in a directory that held nothing. -/
def emptyLog : WriteAheadLog :=
  ⟨1, 0, false, ⟨fun path => if path = activePath 1 then some ⟨[], 0⟩ else none, 0, false⟩⟩

def emptyBacklog : Backlog Int Small.Uuid := ⟨emptyLog, 0, .gathering, none, fun _ => false⟩

def clickBatch : CapturedBatch Int Small.Uuid :=
  ⟨[⟨Small.nilUuid, "click", "ann", "phc_a", Small.noon, .ofWritten []⟩], ⟨[("phc_a", "p")], by simp [Json.Sorted]⟩, false, 0⟩

private theorem emptyBacklog_opened : emptyBacklog.Opened .standard := by
  have hsize : ∀ path, emptyLog.device.size path = 0 := by
    intro path
    by_cases hp : path = activePath 1
    · simp [Device.size, emptyLog, hp]
    · simp [Device.size, emptyLog, hp]
  have hsealed : ∀ p, emptyLog.sealedWhere p = 0 := fun p => by simp [sealedWhere, hsize]
  refine ⟨fun _ => ⟨rfl, ⟨[], 0⟩, rfl, rfl⟩, rfl, ⟨fun q _ => hsize _, fun _ => hsize _⟩, rfl, ?_, fun q hq => (by cases hq), ?_, rfl, rfl⟩
  · change emptyLog.sealedTotal + emptyLog.device.size _ ≤ _
    rw [sealedTotal, hsealed, hsize]
    exact Nat.zero_le _
  · change 0 = min (emptyLog.sealedWhere _) _
    rw [hsealed]
    rfl

/-- The first batch of an empty log. -/
theorem first_batch_bounded : ∃ s, System.Reached emptyBacklog (BacklogStep Crates.small .standard noFaults) Covered s ∧
    s.held ≤ maxUnpublishedWalBytes + maxFrameBytes .standard ∧ s.Refuses Crates.small .standard noFaults := by
  have hcovered : Covered (.load clickBatch) emptyBacklog := by
    intro _ _ _ q hq
    simp [present, Device.size, emptyBacklog, emptyLog, sealedPath, activePath] at hq
  have h0 : System.Reached emptyBacklog (BacklogStep Crates.small .standard noFaults) Covered emptyBacklog := .start
  have h1 := h0.step hcovered (.load clickBatch rfl)
  have h2 := h1.step (by rintro _ ⟨⟩) (.append rfl)
  exact ⟨_, h2, backlog_bounded Crates.small .standard noFaults emptyBacklog _ emptyBacklog_opened h2⟩

/-- While no publication ends well, the segments that batches seal by their size are never in the total, and the
log grows past the limit. -/
theorem unpublished_log_grows : ∃ s, System.Reached emptyBacklog (BacklogStep Crates.small .standard noFaults) System.anyStep s ∧
    maxUnpublishedWalBytes + maxFrameBytes .standard < s.held := by
  have hlen : (encodeBatch Crates.small clickBatch).length ≤ 1024 := by decide +kernel
  have hpay : writePayload (batchCodec Crates.small) .standard clickBatch = .ok (encodeBatch Crates.small clickBatch) := by
    have hlong : ¬ WalConfig.standard.maxRecordBytes < (encodeBatch Crates.small clickBatch).length := by
      simp only [WalConfig.standard]
      omega
    rw [writePayload, if_neg (by decide)]
    exact if_neg hlong
  have hclean : emptyLog.Clean := by
    refine ⟨rfl, emptyBacklog_opened.sound, emptyBacklog_opened.ahead, fun q hq => if_neg ?_⟩
    have hq : 1 < q := hq
    simp [activePath]
    omega
  have hstart : Piled 0 emptyBacklog := ⟨hclean, Nat.zero_le _, rfl, rfl, Nat.zero_le _⟩
  obtain ⟨s, h, hpiled⟩ := piles_up hpay (by decide +kernel) hstart (maxUnpublishedWalBytes + maxFrameBytes .standard + 1)
  exact ⟨s, h, hpiled.held⟩

end Hoglet.Wal
