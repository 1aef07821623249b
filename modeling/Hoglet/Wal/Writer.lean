import Hoglet.Ends
import Hoglet.Wal.Device
import Hoglet.Wal.Log

/-! The writing half of `WriteAheadLog`: `write`, `sync` and sealing over a device that may fail, and
what each of them keeps of the frames already stored. -/
namespace Hoglet.Wal

/-- The log's own state, over the device. -/
structure WriteAheadLog where
  sequence : Nat
  bytes : Nat
  poisoned : Bool
  device : Device

structure WalReceipt where
  span : WalSpan
  eventCount : Nat
  deriving DecidableEq, Repr

abbrev Writes := EStateM WalError WriteAheadLog

section ops
variable {β : Type} (C : Codec β) (config : WalConfig) (faults : Faults)

/-- An operation whose failure poisons the log and is returned. -/
def poisoning (op : Device → Except WalError Unit × Device) : Writes Unit := fun log =>
  match op log.device with
  | (.ok (), device) => .ok () { log with device }
  | (.error error, device) => .error error { log with device, poisoned := true }

/-- `open_new_active` creates the file and syncs the directory. -/
def createActive (sequence : Nat) (device : Device) : Except WalError Unit × Device :=
  match device.createNew faults (activePath sequence) with
  | (.ok (), device) => device.syncDirectory faults
  | failed => failed

def sealNonempty : Writes Unit := do
  let log ← get
  poisoning (·.sync faults (activePath log.sequence))
  poisoning (·.rename faults (activePath log.sequence) (sealedPath log.sequence))
  poisoning (·.syncDirectory faults)
  poisoning (createActive faults (log.sequence + 1))
  modify fun log => { log with sequence := log.sequence + 1, bytes := 0 }

/-- The second half of `write`: the frame goes to the end of the active segment. -/
def appendFrame (frame : Bytes) (eventCount : Nat) : Writes WalReceipt := do
  let log ← get
  poisoning (·.writeAll faults (activePath log.sequence) frame)
  modify fun log => { log with bytes := log.bytes + frame.length }
  return ⟨⟨⟨log.sequence, log.bytes⟩, ⟨log.sequence, log.bytes + frame.length⟩, frame.length⟩, eventCount⟩

def write (batch : β) : Writes WalReceipt := do
  if (← get).poisoned then throw .poisoned
  match writePayload C config batch with
  | .error error => throw error
  | .ok payload =>
    let frame := encodeFrame payload
    let log ← get
    if 0 < log.bytes ∧ config.segmentTargetBytes < saturatingAdd log.bytes frame.length then sealNonempty faults
    appendFrame faults frame (C.eventCount batch)

def sync : Writes Unit := do
  let log ← get
  if log.poisoned then throw .poisoned
  poisoning (·.sync faults (activePath log.sequence))

/-- `seal`; an empty active segment is left in place. -/
def seal_ : Writes WalCursor := do
  let log ← get
  if log.poisoned then throw .poisoned
  if 0 < log.bytes then sealNonempty faults
  return ⟨(← get).sequence, 0⟩

end ops

/-- The file has the frame at this offset. -/
def File.HasFrame (file : File) (offset : Nat) (frame : Bytes) : Prop :=
  offset + frame.length ≤ file.bytes.length ∧ (file.bytes.drop offset).take frame.length = frame

/-- The span's frame is in synced bytes, in an active segment or a sealed one. -/
def Device.Durable (d : Device) (span : WalSpan) (frame : Bytes) : Prop :=
  ∃ path file, (path = activePath span.start.segment ∨ path = sealedPath span.start.segment) ∧
    d.files path = some file ∧ file.HasFrame span.start.byteOffset frame ∧
    span.start.byteOffset + frame.length ≤ file.synced

namespace WriteAheadLog

/-- A log that is not poisoned has seen no failure, and its active file ends where it writes next. -/
def Sound (log : WriteAheadLog) : Prop :=
  log.poisoned = false → log.device.failed = false ∧
    ∃ file, log.device.files (activePath log.sequence) = some file ∧ file.bytes.length = log.bytes

/-- The span's frame is in the active segment, or synced in a sealed one. -/
def Stored (log : WriteAheadLog) (span : WalSpan) (frame : Bytes) : Prop :=
  (span.start.segment = log.sequence ∧ ∃ file, log.device.files (activePath log.sequence) = some file ∧
    file.HasFrame span.start.byteOffset frame) ∨
  (span.start.segment < log.sequence ∧ ∃ file, log.device.files (sealedPath span.start.segment) = some file ∧
    file.HasFrame span.start.byteOffset frame ∧ span.start.byteOffset + frame.length ≤ file.synced)

/-- What every operation does: it stays poisoned once poisoned, and while it is not, it keeps the log
sound and every stored frame in place. -/
structure Keeps (log log' : WriteAheadLog) : Prop where
  sound : log.Sound → log'.Sound
  healthy : log'.poisoned = false → log.poisoned = false
  stored : log'.poisoned = false → ∀ span frame, log.Stored span frame → log'.Stored span frame

theorem Keeps.refl (log : WriteAheadLog) : log.Keeps log := ⟨id, id, fun _ _ _ => id⟩

theorem Keeps.trans {a b c : WriteAheadLog} (h : a.Keeps b) (h' : b.Keeps c) : a.Keeps c :=
  ⟨h'.sound ∘ h.sound, h.healthy ∘ h'.healthy, fun hp span frame hs =>
    h'.stored hp span frame (h.stored (h'.healthy hp) span frame hs)⟩

/-- A poisoned log keeps nothing but its poison. -/
theorem Keeps.of_poisoned {log log' : WriteAheadLog} (h : log'.poisoned = true) : log.Keeps log' := by
  refine ⟨fun _ hp => ?_, fun hp => ?_, fun hp => ?_⟩ <;> (rw [h] at hp; cases hp)

end WriteAheadLog

section spec
variable {β : Type} {C : Codec β} {config : WalConfig} {faults : Faults}
open WriteAheadLog

/-- A poisoning operation goes through on the device, or it leaves the log poisoned. -/
theorem ends_poisoning {op : Device → Except WalError Unit × Device} {log : WriteAheadLog} {Q : Unit → WriteAheadLog → Prop}
    {E : WalError → WriteAheadLog → Prop} (hq : ∀ device, op log.device = (.ok (), device) → Q () { log with device })
    (he : ∀ e log', log'.poisoned = true → E e log') : Ends (poisoning op) log Q E := by
  unfold Ends poisoning
  rcases h : op log.device with ⟨e | ⟨⟩, device⟩
  · exact he e _ rfl
  · exact hq device h

private theorem attempt_ok {success : Path → Option File} {failure : Nat → Path → Option File} {d d' : Device}
    (h : d.attempt faults success failure = (.ok (), d')) : d'.files = success ∧ d'.failed = d.failed := by
  unfold Device.attempt at h
  split at h <;> cases h
  exact ⟨rfl, rfl⟩

private theorem createActive_ok {sequence : Nat} {d d' : Device} (h : createActive faults sequence d = (.ok (), d')) :
    d'.files = Device.setFile d.files (activePath sequence) (some ⟨[], 0⟩) ∧ d'.failed = d.failed := by
  unfold createActive at h
  split at h
  · rename_i d₁ hc
    unfold Device.createNew at hc
    split at hc
    · cases hc
    · obtain ⟨hf, hfail⟩ := attempt_ok hc
      obtain ⟨hf', hfail'⟩ := attempt_ok h
      exact ⟨hf'.trans hf, hfail'.trans hfail⟩
  · rename_i hno
    exact absurd h (hno _)

/-- Sealing keeps every frame: those of the segment are synced before it is renamed. -/
theorem sealNonempty_keeps (log : WriteAheadLog) :
    Ends (sealNonempty faults) log (fun _ log' => log.Keeps log' ∧ log'.poisoned = log.poisoned)
      (fun _ log' => log'.poisoned = true) := by
  refine .bind (.get (.bind ?_))
  refine ends_poisoning (fun d₁ h₁ => .bind ?_) fun _ _ => id
  refine ends_poisoning (fun d₂ h₂ => .bind ?_) fun _ _ => id
  refine ends_poisoning (fun d₃ h₃ => .bind ?_) fun _ _ => id
  refine ends_poisoning (fun d₄ h₄ => .modify ⟨?_, rfl⟩) fun _ _ => id
  obtain ⟨hf₁, hfail₁⟩ := attempt_ok h₁
  obtain ⟨hf₂, hfail₂⟩ := attempt_ok h₂
  obtain ⟨hf₃, hfail₃⟩ := attempt_ok h₃
  obtain ⟨hf₄, hfail₄⟩ := createActive_ok h₄
  simp only at hf₁ hf₂ hf₃ hfail₁ hfail₂ hfail₃ hf₄ hfail₄
  have hsealed : d₄.files (sealedPath log.sequence) =
      (log.device.files (activePath log.sequence)).map fun file => { file with synced := file.bytes.length } := by
    rw [hf₄, hf₃, hf₂, hf₁]
    simp [Device.setFile, activePath, sealedPath]
  have hearlier : ∀ s, s < log.sequence → d₄.files (sealedPath s) = log.device.files (sealedPath s) := by
    intro s hs
    have hne : s ≠ log.sequence := hs.ne
    rw [hf₄, hf₃, hf₂, hf₁]
    simp [Device.setFile, activePath, sealedPath, hne]
  refine ⟨fun hsound hp => ?_, id, fun hp span frame hstored => .inr ?_⟩
  · obtain ⟨hfail, _⟩ := hsound hp
    exact ⟨by rw [hfail₄, hfail₃, hfail₂, hfail₁, hfail], ⟨[], 0⟩, by rw [hf₄, Device.setFile_same], rfl⟩
  · rcases hstored with ⟨hseg, file, hfile, hframe⟩ | ⟨hseg, file, hfile, hframe, hsync⟩
    · exact ⟨Nat.lt_succ_of_le hseg.le, { file with synced := file.bytes.length },
        by rw [hseg, hsealed, hfile]; rfl, hframe, hframe.1⟩
    · exact ⟨Nat.lt_succ_of_lt hseg, file, by rw [hearlier _ hseg, hfile], hframe, hsync⟩

private theorem File.HasFrame.append {file : File} {offset : Nat} {frame : Bytes} (h : file.HasFrame offset frame)
    (data : Bytes) : File.HasFrame { file with bytes := file.bytes ++ data } offset frame := by
  obtain ⟨hlen, hframe⟩ := h
  refine ⟨by simp only [List.length_append]; omega, ?_⟩
  simp only
  rw [List.drop_append_of_le_length (by omega), List.take_append_of_le_length (by rw [List.length_drop]; omega), hframe]

/-- A written frame lands whole at the end of the active segment. -/
private theorem written {log : WriteAheadLog} {frame : Bytes} {device : Device} (hsound : log.Sound)
    (hp : log.poisoned = false) (h : log.device.writeAll faults (activePath log.sequence) frame = (.ok (), device)) :
    log.Keeps { log with device, bytes := log.bytes + frame.length } ∧
      Stored { log with device, bytes := log.bytes + frame.length }
        ⟨⟨log.sequence, log.bytes⟩, ⟨log.sequence, log.bytes + frame.length⟩, frame.length⟩ frame := by
  obtain ⟨hfiles, hfail⟩ := attempt_ok h
  obtain ⟨hnone, file, hfile, hlen⟩ := hsound hp
  have hactive : device.files (activePath log.sequence) = some { file with bytes := file.bytes ++ frame } := by
    rw [hfiles, Device.setFile_same, hfile]
    simp
  have hsealed : ∀ s, device.files (sealedPath s) = log.device.files (sealedPath s) := by
    intro s
    rw [hfiles, Device.setFile_other]
    simp [activePath, sealedPath]
  refine ⟨⟨fun _ _ => ⟨hfail.trans hnone, _, hactive, by simp [hlen]⟩, fun _ => hp, fun _ span frame' hstored => ?_⟩,
    .inl ⟨rfl, _, hactive, by simp [← hlen], by simp [← hlen]⟩⟩
  rcases hstored with ⟨hseg, file', hfile', hframe⟩ | ⟨hseg, file', hfile', hframe, hsync⟩
  · obtain rfl : file = file' := Option.some.inj (hfile.symm.trans hfile')
    exact .inl ⟨hseg, _, hactive, hframe.append frame⟩
  · exact .inr ⟨hseg, file', (hsealed _).trans hfile', hframe, hsync⟩

private theorem appendFrame_keeps {frame : Bytes} {count : Nat} {log : WriteAheadLog} (hsound : log.Sound)
    (hp : log.poisoned = false) :
    Ends (appendFrame faults frame count) log
      (fun receipt log' => log.Keeps log' ∧ log'.Stored receipt.span frame) (fun _ log' => log.Keeps log') := by
  refine .bind (.get (.bind (ends_poisoning (fun device h => ?_) fun _ log' => .of_poisoned)))
  exact .bind (.modify (.pure (written hsound hp h)))

/-- An accepted batch has its whole frame stored at the receipt's span. -/
theorem write_keeps (batch : β) (log : WriteAheadLog) (hsound : log.Sound) :
    Ends (write C config faults batch) log
      (fun receipt log' => log.Keeps log' ∧ log'.Stored receipt.span (encodeFrame (C.encode batch)))
      (fun _ log' => log.Keeps log') := by
  refine .bind (.get ?_)
  cases hp : log.poisoned with
  | true => exact .throw (.refl log)
  | false =>
    simp only [Bool.false_eq_true, if_false]
    cases hpay : writePayload C config batch with
    | error e => exact .throw (.refl log)
    | ok payload =>
      obtain ⟨rfl, -⟩ := writePayload_ok hpay
      refine .bind (.get ?_)
      split
      · refine .bind ?_
        refine (sealNonempty_keeps log).mono (fun _ log' ⟨hk, hp'⟩ => ?_) fun _ log' => .of_poisoned
        exact (appendFrame_keeps (hk.sound hsound) (hp'.trans hp)).mono (fun _ _ h => ⟨hk.trans h.1, h.2⟩)
          fun _ _ => hk.trans
      · exact appendFrame_keeps hsound hp

/-- A successful sync makes every stored frame durable. -/
theorem sync_keeps (log : WriteAheadLog) (hsound : log.Sound) :
    Ends (sync faults) log
      (fun _ log' => log.Keeps log' ∧ log'.poisoned = false ∧ log'.device.failed = false ∧
        ∀ span frame, log.Stored span frame → log'.device.Durable span frame)
      (fun _ log' => log'.poisoned = true) := by
  refine .bind (.get ?_)
  cases hp : log.poisoned with
  | true => exact .throw hp
  | false =>
    refine ends_poisoning (fun device h => ?_) fun _ _ => id
    obtain ⟨hfiles, hfail⟩ := attempt_ok h
    obtain ⟨hnone, file, hfile, hlen⟩ := hsound hp
    have hactive : device.files (activePath log.sequence) = some { file with synced := file.bytes.length } := by
      rw [hfiles, Device.setFile_same, hfile]
      rfl
    have hsealed : ∀ s, device.files (sealedPath s) = log.device.files (sealedPath s) := by
      intro s
      rw [hfiles, Device.setFile_other]
      simp [activePath, sealedPath]
    have hmine : ∀ {span : WalSpan} {frame : Bytes} {file' : File}, log.device.files (activePath log.sequence) = some file' →
        file'.HasFrame span.start.byteOffset frame → file.HasFrame span.start.byteOffset frame := by
      intro span frame file' hfile' hframe
      obtain rfl : file = file' := Option.some.inj (hfile.symm.trans hfile')
      exact hframe
    refine ⟨⟨fun _ _ => ⟨hfail.trans hnone, _, hactive, hlen⟩, fun _ => hp, fun _ span frame hstored => ?_⟩, hp,
      hfail.trans hnone, fun span frame hstored => ?_⟩
    · rcases hstored with ⟨hseg, file', hfile', hframe⟩ | ⟨hseg, file', hfile', hframe, hsync⟩
      · exact .inl ⟨hseg, _, hactive, hmine hfile' hframe⟩
      · exact .inr ⟨hseg, file', (hsealed _).trans hfile', hframe, hsync⟩
    · rcases hstored with ⟨hseg, file', hfile', hframe⟩ | ⟨hseg, file', hfile', hframe, hsync⟩
      · exact ⟨_, _, .inl (by rw [hseg]), hactive, hmine hfile' hframe, (hmine hfile' hframe).1⟩
      · exact ⟨_, file', .inr rfl, (hsealed _).trans hfile', hframe, hsync⟩

theorem seal_keeps (log : WriteAheadLog) :
    Ends (seal_ faults) log (fun _ log' => log.Keeps log') (fun _ log' => log.Keeps log') := by
  refine .bind (.get ?_)
  cases hp : log.poisoned with
  | true => exact .throw (.refl log)
  | false =>
    simp only [Bool.false_eq_true, if_false]
    split
    · exact .bind ((sealNonempty_keeps log).mono (fun _ _ h => .bind (.get (.pure h.1))) fun _ _ => .of_poisoned)
    · exact .bind (.get (.pure (.refl log)))

end spec
end Hoglet.Wal
