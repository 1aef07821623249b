import Hoglet.Wal.Writer
import Mathlib.Algebra.BigOperators.Group.Finset.Basic
import Mathlib.Algebra.Order.BigOperators.Group.Finset

/-! How many bytes the segment files hold, and what the log's operations do to them, whether they go through or
fail half way. -/
namespace Hoglet.Wal

def Device.size (d : Device) (path : Path) : Nat := ((d.files path).map fun file => file.bytes.length).getD 0

/-- The sizes after the active segment is renamed. -/
def movedSize (size : Path → Nat) (sequence : Nat) : Path → Nat := fun p =>
  if p = activePath sequence then 0 else if p = sealedPath sequence then size (activePath sequence) else size p

section device
variable (faults : Faults) (d : Device) (path : Path)

theorem size_sync : (d.sync faults path).2.size = d.size := by
  funext p
  simp only [Device.sync, Device.attempt]
  split
  · by_cases hp : p = path
    · subst hp
      simp [Device.size, Device.setFile_same, Function.comp_def]
    · simp [Device.size, Device.setFile_other _ _ hp]
  · rfl

theorem size_syncDirectory : (d.syncDirectory faults).2.size = d.size := by
  simp only [Device.syncDirectory, Device.attempt]
  split <;> rfl

/-- An empty file is as large as none. -/
theorem size_createNew : (d.createNew faults path).2.size = d.size := by
  unfold Device.createNew
  split
  · rfl
  · rename_i hnone
    have hcreated : ∀ p, ((Device.setFile d.files path (some ⟨[], 0⟩) p).map fun file => file.bytes.length).getD 0 = d.size p := by
      intro p
      by_cases hp : p = path
      · subst hp
        rw [Device.setFile_same, Device.size, Option.not_isSome_iff_eq_none.mp hnone]
        rfl
      · rw [Device.setFile_other _ _ hp, Device.size]
    funext p
    simp only [Device.attempt]
    split
    · exact hcreated p
    · split
      · rfl
      · exact hcreated p

theorem size_rename (sequence : Nat) :
    ((d.rename faults (activePath sequence) (sealedPath sequence)).2.size = d.size ∧
      ∃ e, (d.rename faults (activePath sequence) (sealedPath sequence)).1 = .error e) ∨
    (d.rename faults (activePath sequence) (sealedPath sequence)).2.size = movedSize d.size sequence := by
  have hmoved : ∀ p, ((Device.setFile (Device.setFile d.files (sealedPath sequence) (d.files (activePath sequence))) (activePath sequence)
      none p).map fun file => file.bytes.length).getD 0 = movedSize d.size sequence p := by
    intro p
    unfold movedSize
    split
    · rename_i hp
      rw [hp, Device.setFile_same]
      rfl
    · rename_i hp
      rw [Device.setFile_other _ _ hp]
      split
      · rename_i hs
        rw [hs, Device.setFile_same, Device.size]
      · rename_i hs
        rw [Device.setFile_other _ _ hs, Device.size]
  simp only [Device.rename, Device.attempt]
  split
  · exact .inr (funext hmoved)
  · split
    · exact .inl ⟨rfl, _, rfl⟩
    · exact .inr (funext hmoved)

theorem size_writeAll_other (data : Bytes) {path p : Path} (hp : p ≠ path) : (d.writeAll faults path data).2.size p = d.size p := by
  simp only [Device.writeAll, Device.attempt]
  split <;> simp [Device.size, Device.setFile_other _ _ hp]

theorem size_writeAll (data : Bytes) : (d.writeAll faults path data).2.size path ≤ d.size path + data.length := by
  simp only [Device.writeAll, Device.attempt]
  split
  all_goals
    simp only [Device.size, Device.setFile_same]
    cases d.files path with
    | none => simp
    | some file => simp

end device

namespace WriteAheadLog

/-- The bytes of the sealed segments that `p` picks. -/
def sealedWhere (log : WriteAheadLog) (p : Nat → Bool) : Nat :=
  ∑ q ∈ Finset.range (log.sequence + 1), if p q then log.device.size (sealedPath q) else 0

def sealedTotal (log : WriteAheadLog) : Nat := log.sealedWhere fun _ => true

/-- The bytes in sealed segments plus those in the active one. -/
def footprint (log : WriteAheadLog) : Nat := log.sealedTotal + log.device.size (activePath log.sequence)

/-- Nothing is sealed under a number that is still to come, nor, unless a seal failed half way, under that of the
active segment. -/
structure Ahead (log : WriteAheadLog) : Prop where
  later : ∀ q, log.sequence < q → log.device.size (sealedPath q) = 0
  here : log.poisoned = false → log.device.size (sealedPath log.sequence) = 0

/-- What every operation of the writer does to the sizes: the footprint grows by no more than what it may write,
and no segment that was sealed before grows. -/
structure Grows (room : Nat) (log log' : WriteAheadLog) : Prop where
  ahead : log'.Ahead
  footprint : log'.footprint ≤ log.footprint + room
  bytes : log'.bytes ≤ log.bytes + room
  sequence : log.sequence ≤ log'.sequence
  sealed : ∀ p : Nat → Bool, (∀ q, log.sequence ≤ q → p q = false) → log'.sealedWhere p ≤ log.sealedWhere p

theorem Grows.refl {log : WriteAheadLog} (h : log.Ahead) : log.Grows 0 log := ⟨h, le_refl _, le_refl _, le_refl _, fun _ _ => le_refl _⟩

theorem Grows.mono {room room' : Nat} {log log' : WriteAheadLog} (h : log.Grows room log') (hle : room ≤ room') : log.Grows room' log' :=
  ⟨h.ahead, h.footprint.trans (Nat.add_le_add_left hle _), h.bytes.trans (Nat.add_le_add_left hle _), h.sequence, h.sealed⟩

/-- An operation that changes no size. -/
theorem Grows.of_same {log log' : WriteAheadLog} (h : log.Ahead) (hsize : log'.device.size = log.device.size)
    (hsequence : log'.sequence = log.sequence) (hbytes : log'.bytes = log.bytes) (hpoisoned : log'.poisoned = false → log.poisoned = false) :
    log.Grows 0 log' := by
  refine ⟨⟨fun q hq => ?_, fun hp => ?_⟩, ?_, hbytes.le, hsequence.ge, fun p _ => ?_⟩
  · rw [hsize]
    exact h.later q (hsequence ▸ hq)
  · rw [hsize, hsequence]
    exact h.here (hpoisoned hp)
  · rw [WriteAheadLog.footprint, WriteAheadLog.footprint, sealedTotal, sealedTotal, sealedWhere, sealedWhere, hsize, hsequence]
    exact le_refl _
  · rw [sealedWhere, sealedWhere, hsize, hsequence]

theorem sealedWhere_le_total (log : WriteAheadLog) (p : Nat → Bool) : log.sealedWhere p ≤ log.sealedTotal := by
  refine Finset.sum_le_sum fun q _ => ?_
  split
  · exact le_refl _
  · exact Nat.zero_le _

private theorem sealedPath_ne_active (q sequence : Nat) : sealedPath q ≠ activePath sequence := by
  simp [sealedPath, activePath]

private theorem moved_sealed {size : Path → Nat} {sequence q : Nat} (h : q ≠ sequence) :
    movedSize size sequence (sealedPath q) = size (sealedPath q) := by
  rw [movedSize, if_neg (sealedPath_ne_active q sequence), if_neg (by simpa [sealedPath] using h)]

private theorem moved_here {size : Path → Nat} {sequence : Nat} :
    movedSize size sequence (sealedPath sequence) = size (activePath sequence) := by
  rw [movedSize, if_neg (sealedPath_ne_active sequence sequence), if_pos rfl]

section moved
variable {log log' : WriteAheadLog}

private theorem sealedWhere_moved (h : log.Ahead) (hsize : log'.device.size = movedSize log.device.size log.sequence)
    (hsequence : log'.sequence = log.sequence ∨ log'.sequence = log.sequence + 1) (p : Nat → Bool) :
    log'.sealedWhere p = (∑ q ∈ Finset.range log.sequence, if p q then log.device.size (sealedPath q) else 0) +
      if p log.sequence then log.device.size (activePath log.sequence) else 0 := by
  have hsplit : ∑ q ∈ Finset.range (log.sequence + 1), (if p q then log'.device.size (sealedPath q) else 0) =
      (∑ q ∈ Finset.range log.sequence, if p q then log.device.size (sealedPath q) else 0) +
      if p log.sequence then log.device.size (activePath log.sequence) else 0 := by
    rw [Finset.sum_range_succ, hsize, moved_here]
    congr 1
    refine Finset.sum_congr rfl fun q hq => ?_
    rw [moved_sealed (Finset.mem_range.mp hq).ne]
  rcases hsequence with hsame | hnext
  · rw [sealedWhere, hsame]
    exact hsplit
  · rw [sealedWhere, hnext, Finset.sum_range_succ, hsplit, hsize, moved_sealed (Nat.succ_ne_self _), h.later _ (Nat.lt_succ_self _)]
    simp

private theorem sealedWhere_below (h : log.Ahead) (hp : log.poisoned = false) (p : Nat → Bool) :
    log.sealedWhere p = ∑ q ∈ Finset.range log.sequence, if p q then log.device.size (sealedPath q) else 0 := by
  rw [sealedWhere, Finset.sum_range_succ, h.here hp]
  simp

/-- What the active segment held is now in a sealed one. -/
theorem footprint_moved (h : log.Ahead) (hp : log.poisoned = false) (hsize : log'.device.size = movedSize log.device.size log.sequence)
    (hsequence : log'.sequence = log.sequence ∨ log'.sequence = log.sequence + 1 ∧ log'.device.size (activePath log'.sequence) = 0) :
    log'.footprint = log.footprint := by
  have hactive : log'.device.size (activePath log'.sequence) = 0 := by
    rcases hsequence with hsame | ⟨-, hzero⟩
    · rw [hsame, hsize, movedSize, if_pos rfl]
    · exact hzero
  rw [footprint, footprint, sealedTotal, sealedTotal, sealedWhere_moved h hsize (hsequence.imp id And.left), sealedWhere_below h hp, hactive]
  simp

/-- The active segment is sealed, and the next number may have been taken. -/
theorem Grows.of_moved (h : log.Ahead) (hp : log.poisoned = false) (hsize : log'.device.size = movedSize log.device.size log.sequence)
    (hsequence : log'.poisoned = true ∧ log'.sequence = log.sequence ∨
      log'.sequence = log.sequence + 1 ∧ log'.device.size (activePath log'.sequence) = 0)
    (hbytes : log'.bytes ≤ log.bytes) : log.Grows 0 log' := by
  have hnumber := hsequence.imp And.right And.left
  have hlater : ∀ q, log.sequence < q → log'.device.size (sealedPath q) = 0 := by
    intro q hq
    rw [hsize, moved_sealed (by omega)]
    exact h.later q hq
  refine ⟨⟨fun q hq => hlater q ?_, fun hp' => ?_⟩, (footprint_moved h hp hsize (hsequence.imp And.right id)).le, hbytes, ?_, fun p hno => ?_⟩
  · rcases hnumber with hsame | hnext <;> omega
  · rcases hsequence with ⟨hpoisoned, -⟩ | ⟨hnext, -⟩
    · rw [hpoisoned] at hp'
      cases hp'
    · exact hlater _ (by omega)
  · rcases hnumber with hsame | hnext <;> omega
  · rw [sealedWhere_moved h hsize hnumber, sealedWhere_below h hp, hno _ (le_refl _)]
    simp

end moved
end WriteAheadLog

section operations
variable {β : Type} {C : Codec β} {config : WalConfig} {faults : Faults}
open WriteAheadLog

/-- A poisoning operation, with what its failure leaves on the device. -/
theorem ends_poisoned {op : Device → Except WalError Unit × Device} {log : WriteAheadLog} {Q : Unit → WriteAheadLog → Prop}
    {E : WalError → WriteAheadLog → Prop} (hq : ∀ device, op log.device = (.ok (), device) → Q () { log with device })
    (he : ∀ e device, op log.device = (.error e, device) → E e { log with device, poisoned := true }) : Ends (poisoning op) log Q E := by
  unfold Ends poisoning
  rcases h : op log.device with ⟨e | ⟨⟩, device⟩
  · exact he e device h
  · exact hq device h

theorem size_createActive (faults : Faults) (sequence : Nat) (d : Device) : (createActive faults sequence d).2.size = d.size := by
  unfold createActive
  split
  · rename_i device hc
    rw [size_syncDirectory, ← size_createNew faults d (activePath sequence), hc]
  · exact size_createNew faults d _

/-- A file that could be created was not there. -/
private theorem createActive_empty {sequence : Nat} {d d' : Device} (h : createActive faults sequence d = (.ok (), d')) :
    d'.size (activePath sequence) = 0 := by
  have hsame : d'.size = d.size := by rw [← size_createActive faults sequence d, h]
  have hnone : (d.files (activePath sequence)).isSome = false := by
    by_contra hsome
    rw [Bool.not_eq_false] at hsome
    simp [createActive, Device.createNew, hsome] at h
  rw [hsame, Device.size, Option.isSome_eq_false_iff.mp hnone |> Option.isNone_iff_eq_none.mp]
  rfl

/-- What a successful seal leaves. -/
structure WriteAheadLog.Sealed (log log' : WriteAheadLog) : Prop where
  grows : log.Grows 0 log'
  bytes : log'.bytes = 0
  sequence : log'.sequence = log.sequence + 1
  size : log'.device.size (sealedPath log.sequence) = log.device.size (activePath log.sequence)
  footprint : log'.footprint = log.footprint
  poisoned : log'.poisoned = log.poisoned

theorem sealNonempty_sealed {log : WriteAheadLog} (hahead : log.Ahead) (hp : log.poisoned = false) :
    Ends (sealNonempty faults) log (fun _ log' => log.Sealed log') fun _ log' => log.Grows 0 log' := by
  refine .bind (.get (.bind ?_))
  refine ends_poisoned (fun d₁ h₁ => .bind ?_) fun e d h => ?_
  · have hsize₁ : d₁.size = log.device.size := by rw [← size_sync faults log.device (activePath log.sequence), h₁]
    have hmoved := size_rename faults d₁ log.sequence
    refine ends_poisoned (fun d₂ h₂ => .bind ?_) fun e d h => ?_
    · simp only at h₂
      rw [h₂, hsize₁] at hmoved
      have hsize₂ : d₂.size = movedSize log.device.size log.sequence := by
        rcases hmoved with ⟨-, e, he⟩ | hmoved
        · cases he
        · exact hmoved
      refine ends_poisoned (fun d₃ h₃ => .bind ?_) fun e d h => ?_
      · have hsize₃ : d₃.size = movedSize log.device.size log.sequence := by
          rw [← hsize₂, ← size_syncDirectory faults d₂, h₃]
        refine ends_poisoned (fun d₄ h₄ => .modify ?_) fun e d h => ?_
        · have hsize₄ : d₄.size = movedSize log.device.size log.sequence := by
            rw [← hsize₃, ← size_createActive faults (log.sequence + 1) d₃, h₄]
          have hempty := createActive_empty h₄
          refine ⟨.of_moved hahead hp hsize₄ (.inr ⟨rfl, hempty⟩) (Nat.zero_le _), rfl, rfl, ?_,
            footprint_moved hahead hp hsize₄ (.inr ⟨rfl, hempty⟩), rfl⟩
          change d₄.size _ = _
          rw [hsize₄, movedSize, if_neg (by simp [sealedPath, activePath]), if_pos rfl]
        · refine .of_moved hahead hp ?_ (.inl ⟨rfl, rfl⟩) (le_refl _)
          rw [← hsize₃, ← size_createActive faults (log.sequence + 1) d₃, h]
      · refine .of_moved hahead hp ?_ (.inl ⟨rfl, rfl⟩) (le_refl _)
        rw [← hsize₂, ← size_syncDirectory faults d₂, h]
    · simp only at h
      rw [h, hsize₁] at hmoved
      rcases hmoved with ⟨hsame, -⟩ | hmoved
      · exact .of_same hahead hsame rfl rfl fun h => by cases h
      · exact .of_moved hahead hp hmoved (.inl ⟨rfl, rfl⟩) (le_refl _)
  · refine .of_same hahead ?_ rfl rfl fun h => by cases h
    rw [← size_sync faults log.device (activePath log.sequence), h]

/-- A frame, whole or cut short, goes to the active segment. -/
theorem appendFrame_grows {frame : Bytes} {count : Nat} {log : WriteAheadLog} (hahead : log.Ahead) :
    Ends (appendFrame faults frame count) log (fun _ log' => log.Grows frame.length log' ∧ log'.poisoned = log.poisoned)
      fun _ log' => log.Grows frame.length log' := by
  have hgrows : ∀ log' : WriteAheadLog, log'.device = (log.device.writeAll faults (activePath log.sequence) frame).2 →
      log'.sequence = log.sequence → log'.bytes ≤ log.bytes + frame.length → (log'.poisoned = false → log.poisoned = false) →
      log.Grows frame.length log' := by
    intro log' hdevice hsequence hbytes hpoisoned
    have hother : ∀ q, log'.device.size (sealedPath q) = log.device.size (sealedPath q) := by
      intro q
      rw [hdevice]
      exact size_writeAll_other faults log.device frame (by simp [sealedPath, activePath])
    have hsealed : ∀ p, log'.sealedWhere p = log.sealedWhere p := by
      intro p
      simp only [sealedWhere, hsequence, hother]
    refine ⟨⟨fun q hq => ?_, fun hp => ?_⟩, ?_, hbytes, hsequence.ge, fun p _ => (hsealed p).le⟩
    · rw [hother]
      exact hahead.later q (hsequence ▸ hq)
    · rw [hother, hsequence]
      exact hahead.here (hpoisoned hp)
    · rw [footprint, footprint, sealedTotal, sealedTotal, hsealed, hsequence, hdevice, Nat.add_assoc]
      exact Nat.add_le_add_left (size_writeAll faults log.device _ frame) _
  refine .bind (.get (.bind (ends_poisoned (fun device h => ?_) fun e device h => ?_)))
  · refine .bind (.modify (.pure ⟨hgrows _ ?_ rfl (le_refl _) id, rfl⟩))
    rw [h]
  · refine hgrows _ ?_ rfl (Nat.le_add_right _ _) fun h => by cases h
    rw [h]

/-- The largest frame of a record. -/
def maxFrameBytes (config : WalConfig) : Nat := recordHeaderBytes + config.maxRecordBytes

theorem write_grows (batch : β) {log : WriteAheadLog} (hahead : log.Ahead) :
    Ends (write C config faults batch) log (fun _ log' => log.Grows (maxFrameBytes config) log')
      fun _ log' => log.Grows (maxFrameBytes config) log' := by
  refine .bind (.get ?_)
  cases hp : log.poisoned with
  | true => exact .throw ((Grows.refl hahead).mono (Nat.zero_le _))
  | false =>
    simp only [Bool.false_eq_true, if_false]
    cases hpay : writePayload C config batch with
    | error e => exact .throw ((Grows.refl hahead).mono (Nat.zero_le _))
    | ok payload =>
      obtain ⟨-, -, hlen⟩ := writePayload_ok hpay
      have hframe : (encodeFrame payload).length ≤ maxFrameBytes config := by
        rw [encodeFrame_length, maxFrameBytes]
        omega
      refine .bind (.get ?_)
      split
      · refine .bind ((sealNonempty_sealed hahead hp).mono (fun _ mid hsealed => ?_) fun _ log' h => h.mono (Nat.zero_le _))
        have hjoin : ∀ log', mid.Grows (encodeFrame payload).length log' → log.Grows (maxFrameBytes config) log' := by
          intro log' h
          have hmid := hsealed.grows
          refine ⟨h.ahead, ?_, ?_, hmid.sequence.trans h.sequence, fun p hno => ?_⟩
          · have := h.footprint
            have := hmid.footprint
            omega
          · have := h.bytes
            have := hsealed.bytes
            omega
          · exact (h.sealed p fun q hq => hno q (hmid.sequence.trans hq)).trans (hmid.sealed p hno)
        exact (appendFrame_grows hsealed.grows.ahead).mono (fun _ _ h => hjoin _ h.1) fun _ => hjoin
      · exact (appendFrame_grows hahead).mono (fun _ _ h => h.1.mono hframe) fun _ _ h => h.mono hframe

theorem sync_grows {log : WriteAheadLog} (hahead : log.Ahead) :
    Ends (sync faults) log (fun _ log' => log.Grows 0 log') fun _ log' => log.Grows 0 log' := by
  refine .bind (.get ?_)
  cases hp : log.poisoned with
  | true => exact .throw (.refl hahead)
  | false =>
    refine ends_poisoned (fun device h => ?_) fun e device h => ?_
    all_goals
      refine .of_same hahead ?_ rfl rfl fun _ => hp
      rw [← size_sync faults log.device (activePath log.sequence), h]

theorem seal_sealed {log : WriteAheadLog} (hahead : log.Ahead) (hb : 0 < log.bytes) :
    Ends (seal_ faults) log (fun _ log' => log.Sealed log') fun _ log' => log.Grows 0 log' := by
  refine .bind (.get ?_)
  cases hp : log.poisoned with
  | true => exact .throw (.refl hahead)
  | false =>
    simp only [Bool.false_eq_true, if_false, if_pos hb]
    exact .bind ((sealNonempty_sealed hahead hp).mono (fun _ _ h => .bind (.get (.pure h))) fun _ _ h => h)

theorem seal_grows {log : WriteAheadLog} (hahead : log.Ahead) :
    Ends (seal_ faults) log (fun _ log' => log.Grows 0 log') fun _ log' => log.Grows 0 log' := by
  by_cases hb : 0 < log.bytes
  · exact (seal_sealed hahead hb).mono (fun _ _ h => h.grows) fun _ _ h => h
  · refine .bind (.get ?_)
    cases hp : log.poisoned with
    | true => exact .throw (.refl hahead)
    | false =>
      simp only [Bool.false_eq_true, if_false, if_neg hb]
      exact .bind (.get (.pure (.refl hahead)))

end operations
end Hoglet.Wal
