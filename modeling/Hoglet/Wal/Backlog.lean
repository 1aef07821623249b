import Hoglet.Capture.Batch
import Hoglet.System
import Hoglet.Wal.Footprint
import Hoglet.Wal.GroupCommit

/-! How much unpublished log the writer lets pile up: it admits a batch by a total of sealed bytes that it shares
with the publisher. -/
namespace Hoglet.Wal
open Capture

/-- `DurableWalSink::append`'s estimate of a batch's size. -/
def encodedBytes {ν U : Type} (batch : CapturedBatch ν U) : Nat :=
  (batch.events.map fun event =>
    256 + (Json.utf8 event.event.toList).length + (Json.utf8 event.distinctId.toList).length + event.properties.members.length * 64).sum

inductive WriterPhase (ν U : Type) where
  | gathering
  | loaded (batch : CapturedBatch ν U) (sealedBytes : Nat)
  | sealed (sequence before : Nat)
  | stopped

/-- The log, the total of `PipelineStats`, what the writer is at, and the segments a directory listing of the
publisher is sure to show. `counted` is bookkeeping of the model: the sealed segments that are in the total. -/
structure Backlog (ν U : Type) where
  log : WriteAheadLog
  sealedBytes : Nat
  writer : WriterPhase ν U
  listing : Option (Nat → Bool)
  counted : Nat → Bool

section steps
variable {ν U : Type} (K : Crates ν U) (config : WalConfig) (faults : Faults)

/-- What an append of the gathering loop does to the log. -/
def admitBatch (batch : CapturedBatch ν U) (sealedBytes : Nat) (log : WriteAheadLog) : Except SinkError WalReceipt × WriteAheadLog :=
  if maxUnpublishedWalBytes < saturatingAdd (saturatingAdd sealedBytes log.bytes) (encodedBytes batch) then (.error .retryable, log)
  else match write (batchCodec K) config faults batch log with
    | .ok receipt log => (.ok receipt, log)
    | .error e log => (.error (mapWalError e), log)

theorem append_admitBatch (batch : CapturedBatch ν U) (sealedBytes : Nat) (g : Group (CapturedBatch ν U)) (w : Writer (CapturedBatch ν U)) :
    append (batchCodec K) config faults batch (encodedBytes batch) sealedBytes g w =
      ({ g with
          pending := g.pending ++ [⟨batch, (admitBatch K config faults batch sealedBytes w.log).1⟩],
          bytes := saturatingAdd g.bytes (encodedBytes batch) },
        { w with log := (admitBatch K config faults batch sealedBytes w.log).2 }) := by
  by_cases hfull : maxUnpublishedWalBytes < saturatingAdd (saturatingAdd sealedBytes w.log.bytes) (encodedBytes batch)
  · simp only [append, admitBatch, if_pos hfull]
  · simp only [append, admitBatch, if_neg hfull, Writer.run]
    cases write (batchCodec K) config faults batch w.log <;> rfl

inductive BacklogAction (ν U : Type) where
  | load (batch : CapturedBatch ν U)
  | append (batch : CapturedBatch ν U) (result : Except SinkError WalReceipt)
  | sync
  | seal_
  | account
  | finish
  | reclaim (sequence : Nat)
  | list
  | store

/-- The segments whose files are in the directory. -/
def WriteAheadLog.present (log : WriteAheadLog) : Nat → Bool := fun q => 0 < log.device.size (sealedPath q)

def WriteAheadLog.remove (log : WriteAheadLog) (sequence : Nat) : WriteAheadLog :=
  { log with device := { log.device with files := Device.setFile log.device.files (sealedPath sequence) none } }

/-- The writer gathers and syncs groups, and seals between them; the publisher reclaims segments, and after a
publication that ends well it lists the directory and stores the total. -/
inductive BacklogStep : BacklogAction ν U → Backlog ν U → Backlog ν U → Prop
  | load {s : Backlog ν U} (batch : CapturedBatch ν U) (hw : s.writer = .gathering) :
      BacklogStep (.load batch) s { s with writer := .loaded batch s.sealedBytes }
  | append {s : Backlog ν U} {batch : CapturedBatch ν U} {sealedBytes : Nat} (hw : s.writer = .loaded batch sealedBytes) :
      BacklogStep (.append batch (admitBatch K config faults batch sealedBytes s.log).1) s { s with
        log := (admitBatch K config faults batch sealedBytes s.log).2, writer := .gathering }
  | synced {s : Backlog ν U} {log : WriteAheadLog} (hw : s.writer = .gathering) (h : sync faults s.log = .ok () log) :
      BacklogStep .sync s { s with log }
  | syncFailed {s : Backlog ν U} {e : WalError} {log : WriteAheadLog} (hw : s.writer = .gathering) (h : sync faults s.log = .error e log) :
      BacklogStep .sync s { s with log }
  | sealed {s : Backlog ν U} {next : WalCursor} {log : WriteAheadLog} (hw : s.writer = .gathering) (hb : 0 < s.log.bytes)
      (h : seal_ faults s.log = .ok next log) :
      BacklogStep .seal_ s { s with log, writer := .sealed s.log.sequence s.log.bytes }
  | sealFailed {s : Backlog ν U} {e : WalError} {log : WriteAheadLog} (hw : s.writer = .gathering) (hb : 0 < s.log.bytes)
      (h : seal_ faults s.log = .error e log) : BacklogStep .seal_ s { s with log }
  | account {s : Backlog ν U} {sequence before : Nat} (hw : s.writer = .sealed sequence before) :
      BacklogStep .account s { s with
        sealedBytes := (s.sealedBytes + before) % 2^64, writer := .gathering, counted := Function.update s.counted sequence true }
  | finish {s : Backlog ν U} {next : WalCursor} {log : WriteAheadLog} (hw : s.writer = .gathering) (h : seal_ faults s.log = .ok next log) :
      BacklogStep .finish s { s with log, writer := .stopped }
  | finishFailed {s : Backlog ν U} {e : WalError} {log : WriteAheadLog} (hw : s.writer = .gathering) (h : seal_ faults s.log = .error e log) :
      BacklogStep .finish s { s with log, writer := .stopped }
  | reclaim {s : Backlog ν U} (sequence : Nat) (hl : s.listing = none) :
      BacklogStep (.reclaim sequence) s { s with log := s.log.remove sequence }
  | list {s : Backlog ν U} (hl : s.listing = none) : BacklogStep .list s { s with listing := some s.log.present }
  | store {s : Backlog ν U} {listing listed : Nat → Bool} (hl : s.listing = some listing) (hlisted : ∀ q, listing q = true → listed q = true)
      (hpresent : ∀ q, listed q = true → s.log.present q = true) :
      BacklogStep .store s { s with sealedBytes := min (s.log.sealedWhere listed) (2^64 - 1), listing := none, counted := listed }
  | storeFailed {s : Backlog ν U} {listing : Nat → Bool} (hl : s.listing = some listing) :
      BacklogStep .store s { s with sealedBytes := 0, listing := none, counted := fun _ => false }

end steps

section property
variable {ν U : Type}

/-- What the claim bounds. -/
def Backlog.held (s : Backlog ν U) : Nat := s.log.footprint

/-- At or past the limit every batch is refused with nothing written. -/
def Backlog.Refuses (K : Crates ν U) (config : WalConfig) (faults : Faults) (s : Backlog ν U) : Prop :=
  ∀ batch result s', BacklogStep K config faults (.append batch result) s s' → batch.events ≠ [] → maxUnpublishedWalBytes ≤ s.held →
    result = .error .retryable ∧ s'.log = s.log

/-- A log that has not failed is asked for room for a batch only when every sealed segment is in the total: the
timer sealed it, or the publisher has listed it since, and no total read before then was stored over it. -/
def Covered (a : BacklogAction ν U) (s : Backlog ν U) : Prop :=
  ∀ batch, a = .load batch → s.log.poisoned = false → ∀ q, s.log.present q = true → s.counted q = true

/-- The log as `open` hands it over with at most the allowed bytes, and their total if the directory could be read. -/
structure Backlog.Opened (config : WalConfig) (s : Backlog ν U) : Prop where
  sound : s.log.Sound
  healthy : s.log.poisoned = false
  ahead : s.log.Ahead
  empty : s.log.bytes = 0
  held : s.held ≤ maxUnpublishedWalBytes + maxFrameBytes config
  counted : ∀ q, s.counted q = true → s.log.present q = true
  total : s.sealedBytes = min (s.log.sealedWhere s.counted) (2^64 - 1)
  writer : s.writer = .gathering
  listing : s.listing = none

end property
section invariant
variable {ν U : Type} {K : Crates ν U} {config : WalConfig} {faults : Faults} {s s' : Backlog ν U}
open WriteAheadLog

def allowedBytes (config : WalConfig) : Nat := maxUnpublishedWalBytes + maxFrameBytes config

/-- Bytes sealed by the timer that are not in the total yet. -/
def WriterPhase.pending : WriterPhase ν U → Nat
  | .sealed _ before => before
  | _ => 0

/-- What the total covers, and that none of the sums comes near 2^64. -/
structure Backlog.Inv (config : WalConfig) (s : Backlog ν U) : Prop where
  sound : s.log.Sound
  ahead : s.log.Ahead
  numbered : s.log.poisoned = false → ∀ q, s.log.sequence ≤ q → s.counted q = false
  counted : s.log.sealedWhere s.counted ≤ s.sealedBytes
  held : s.held ≤ allowedBytes config
  bytes : s.log.bytes + s.writer.pending ≤ allowedBytes config
  total : s.sealedBytes + s.log.bytes + s.writer.pending ≤ 2 * allowedBytes config
  loaded : ∀ batch sealedBytes, s.writer = .loaded batch sealedBytes →
    (s.log.poisoned = false → s.log.sealedTotal ≤ sealedBytes) ∧ (s.sealedBytes = sealedBytes ∨ s.sealedBytes ≤ allowedBytes config)
  sealed : ∀ sequence before, s.writer = .sealed sequence before →
    s.log.device.size (sealedPath sequence) ≤ before ∧ sequence < s.log.sequence

private theorem allowed_lt (config : WalConfig) : 2 * allowedBytes config < 2^64 := by
  have := config.max_le
  simp only [allowedBytes, maxUnpublishedWalBytes, maxFrameBytes, recordHeaderBytes]
  omega

/-- A log that has not failed counts its active bytes right. -/
private theorem Sound.active {log : WriteAheadLog} (h : log.Sound) (hp : log.poisoned = false) :
    log.device.size (activePath log.sequence) = log.bytes := by
  obtain ⟨-, file, hfile, hlen⟩ := h hp
  rw [Device.size, hfile, Option.map_some, Option.getD_some, hlen]

/-- The invariant after the writer has worked on the log, within room that is left. -/
private theorem Inv.grows (h : s.Inv config) {room : Nat} {log : WriteAheadLog} (hg : s.log.Grows room log) (hsound : log.Sound)
    (hhealthy : log.poisoned = false → s.log.poisoned = false) (hheld : s.held + room ≤ allowedBytes config)
    (hbytes : s.log.bytes + room ≤ allowedBytes config) (htotal : s.sealedBytes + s.log.bytes + room ≤ 2 * allowedBytes config)
    (hcounted : log.sealedWhere s.counted ≤ s.sealedBytes) : ({ s with log, writer := .gathering } : Backlog ν U).Inv config := by
  refine ⟨hsound, hg.ahead, fun hp q hq => h.numbered (hhealthy hp) q (hg.sequence.trans hq), hcounted, hg.footprint.trans hheld, ?_, ?_,
    fun _ _ hw => (by cases hw), fun _ _ hw => (by cases hw)⟩
  · have := hg.bytes
    change log.bytes + 0 ≤ _
    omega
  · have := hg.bytes
    change s.sealedBytes + log.bytes + 0 ≤ _
    omega

private theorem write_poisoned {batch : CapturedBatch ν U} {log : WriteAheadLog} (h : log.poisoned = true) :
    write (batchCodec K) config faults batch log = .error .poisoned log := by
  rw [write]
  change (ite _ _ _ : Writes WalReceipt) log = _
  rw [if_pos h]
  rfl

private theorem sync_poisoned {log : WriteAheadLog} (h : log.poisoned = true) : sync faults log = .error .poisoned log := by
  rw [sync]
  change (ite _ _ _ : Writes Unit) log = _
  rw [if_pos h]
  rfl

private theorem seal_poisoned {log : WriteAheadLog} (h : log.poisoned = true) : seal_ faults log = .error .poisoned log := by
  rw [seal_]
  change (ite _ _ _ : Writes WalCursor) log = _
  rw [if_pos h]
  rfl

/-- A batch that a poisoned log is offered is refused. -/
private theorem admitBatch_poisoned {batch : CapturedBatch ν U} {sealedBytes : Nat} {log : WriteAheadLog} (h : log.poisoned = true) :
    admitBatch K config faults batch sealedBytes log = (.error .retryable, log) := by
  unfold admitBatch
  rw [write_poisoned h]
  split <;> rfl

private theorem Inv.idle (h : s.Inv config) (hw : ∀ sequence before, s.writer ≠ .sealed sequence before) :
    ({ s with writer := .gathering } : Backlog ν U).Inv config := by
  have hnone : s.writer.pending = 0 := by
    cases hs : s.writer with
    | sealed sequence before => exact absurd hs (hw sequence before)
    | gathering | loaded _ _ | stopped => rfl
  refine ⟨h.sound, h.ahead, h.numbered, h.counted, h.held, ?_, ?_, fun _ _ hw => (by cases hw), fun _ _ hw => (by cases hw)⟩
  · have := h.bytes
    rw [hnone] at this
    exact this
  · have := h.total
    rw [hnone] at this
    exact this

private theorem saturating_le {a b c : Nat} (h : ¬ maxUnpublishedWalBytes < saturatingAdd (saturatingAdd a b) c) :
    a + b + c ≤ maxUnpublishedWalBytes := by
  simp only [saturatingAdd, maxUnpublishedWalBytes] at h ⊢
  omega

private theorem inv_append (h : s.Inv config) {batch : CapturedBatch ν U} {sealedBytes : Nat} (hw : s.writer = .loaded batch sealedBytes) :
    ({ s with log := (admitBatch K config faults batch sealedBytes s.log).2, writer := .gathering } : Backlog ν U).Inv config := by
  have hidle := Inv.idle h fun _ _ hs => by rw [hw] at hs; cases hs
  cases hp : s.log.poisoned with
  | true =>
    rw [admitBatch_poisoned hp]
    exact hidle
  | false =>
    unfold admitBatch
    split
    · exact hidle
    · rename_i hroom
      have hfit := saturating_le hroom
      obtain ⟨hcovered, htotal⟩ := h.loaded batch sealedBytes hw
      have hsealed := hcovered hp
      have hactive := Sound.active h.sound hp
      have hgrows : ∀ log, s.log.Grows (maxFrameBytes config) log → log.Sound →
          ({ s with log, writer := .gathering } : Backlog ν U).Inv config := by
        intro log hg hsound
        refine Inv.grows h hg hsound (fun _ => hp) ?_ ?_ ?_ ((hg.sealed _ (h.numbered hp)).trans h.counted)
        · rw [Backlog.held, footprint, hactive, allowedBytes]
          omega
        · rw [allowedBytes]
          omega
        · rw [allowedBytes] at htotal ⊢
          omega
      have hwrite : Ends (write (batchCodec K) config faults batch) s.log _ _ := write_grows batch h.ahead
      have hkeeps : Ends (write (batchCodec K) config faults batch) s.log _ _ := write_keeps batch s.log h.sound
      cases hx : write (batchCodec K) config faults batch s.log with
      | ok receipt log => exact hgrows log (hwrite.ok hx) ((hkeeps.ok hx).1.sound h.sound)
      | error e log => exact hgrows log (hwrite.error hx) ((hkeeps.error hx).sound h.sound)

/-- Work on the log that writes nothing new. -/
private theorem inv_worked (h : s.Inv config) {log : WriteAheadLog} (hw : s.writer = .gathering) (hg : s.log.Grows 0 log) (hsound : log.Sound)
    (hp : s.log.poisoned = false) : ({ s with log } : Backlog ν U).Inv config := by
  have hbytes := h.bytes
  have htotal := h.total
  rw [hw] at hbytes htotal
  have hworked := Inv.grows h hg hsound (fun _ => hp) h.held hbytes htotal ((hg.sealed _ (h.numbered hp)).trans h.counted)
  rw [← hw] at hworked
  exact hworked

private theorem Sound.of_poisoned {log : WriteAheadLog} (h : log.poisoned = true) : log.Sound := fun hp => by rw [h] at hp; cases hp

private theorem inv_synced (h : s.Inv config) {log : WriteAheadLog} (hw : s.writer = .gathering)
    (hx : sync faults s.log = .ok () log ∨ ∃ e, sync faults s.log = .error e log) : ({ s with log } : Backlog ν U).Inv config := by
  cases hp : s.log.poisoned with
  | true =>
    rw [sync_poisoned hp] at hx
    rcases hx with hx | ⟨e, hx⟩
    · cases hx
    · cases hx
      exact h
  | false =>
    have hgrows : Ends (sync faults) s.log _ _ := sync_grows h.ahead
    have hkeeps : Ends (sync faults) s.log _ _ := sync_keeps s.log h.sound
    rcases hx with hx | ⟨e, hx⟩
    · exact inv_worked h hw (hgrows.ok hx) ((hkeeps.ok hx).1.sound h.sound) hp
    · exact inv_worked h hw (hgrows.error hx) (Sound.of_poisoned (hkeeps.error hx)) hp

private theorem inv_sealFailed (h : s.Inv config) {e : WalError} {log : WriteAheadLog} (hw : s.writer = .gathering)
    (hx : seal_ faults s.log = .error e log) : ({ s with log } : Backlog ν U).Inv config := by
  cases hp : s.log.poisoned with
  | true =>
    rw [seal_poisoned hp] at hx
    cases hx
    exact h
  | false =>
    have hgrows : Ends (seal_ faults) s.log _ _ := seal_grows h.ahead
    have hkeeps : Ends (seal_ faults) s.log _ _ := seal_keeps s.log
    exact inv_worked h hw (hgrows.error hx) ((hkeeps.error hx).sound h.sound) hp

/-- A log that was sealed had not failed. -/
private theorem seal_healthy {log log' : WriteAheadLog} {next : WalCursor} (hx : seal_ faults log = .ok next log') : log.poisoned = false := by
  cases hp : log.poisoned with
  | false => rfl
  | true =>
    rw [seal_poisoned hp] at hx
    cases hx

private theorem inv_sealed (h : s.Inv config) {next : WalCursor} {log : WriteAheadLog} (hw : s.writer = .gathering) (hb : 0 < s.log.bytes)
    (hx : seal_ faults s.log = .ok next log) : ({ s with log, writer := .sealed s.log.sequence s.log.bytes } : Backlog ν U).Inv config := by
  have hp := seal_healthy hx
  have hends : Ends (seal_ faults) s.log _ _ := seal_sealed h.ahead hb
  have hsealed := hends.ok hx
  have hkeeps : Ends (seal_ faults) s.log _ _ := seal_keeps s.log
  have hworked := inv_worked h hw hsealed.grows ((hkeeps.ok hx).sound h.sound) hp
  have hbytes := h.bytes
  have htotal := h.total
  rw [hw] at hbytes htotal
  refine ⟨hworked.sound, hworked.ahead, hworked.numbered, hworked.counted, hworked.held, ?_, ?_, fun _ _ hw => (by cases hw), ?_⟩
  · change log.bytes + s.log.bytes ≤ _
    rw [hsealed.bytes, Nat.zero_add]
    exact hbytes
  · change s.sealedBytes + log.bytes + s.log.bytes ≤ _
    rw [hsealed.bytes, Nat.add_zero]
    exact htotal
  · rintro _ _ ⟨⟩
    refine ⟨?_, ?_⟩
    · change log.device.size _ ≤ _
      rw [hsealed.size, Sound.active h.sound hp]
    · change _ < log.sequence
      rw [hsealed.sequence]
      exact Nat.lt_succ_self _

private theorem inv_finish (h : s.Inv config) {log : WriteAheadLog} (hw : s.writer = .gathering)
    (hx : (∃ next, seal_ faults s.log = .ok next log) ∨ ∃ e, seal_ faults s.log = .error e log) :
    ({ s with log, writer := .stopped } : Backlog ν U).Inv config := by
  have hworked : ({ s with log } : Backlog ν U).Inv config := by
    rcases hx with ⟨next, hx⟩ | ⟨e, hx⟩
    · have hgrows : Ends (seal_ faults) s.log _ _ := seal_grows h.ahead
      have hkeeps : Ends (seal_ faults) s.log _ _ := seal_keeps s.log
      exact inv_worked h hw (hgrows.ok hx) ((hkeeps.ok hx).sound h.sound) (seal_healthy hx)
    · exact inv_sealFailed h hw hx
  have hbytes := hworked.bytes
  have htotal := hworked.total
  simp only [hw] at hbytes htotal
  exact ⟨hworked.sound, hworked.ahead, hworked.numbered, hworked.counted, hworked.held, hbytes, htotal, fun _ _ hw => (by cases hw),
    fun _ _ hw => (by cases hw)⟩

private theorem sealedWhere_update (log : WriteAheadLog) (p : Nat → Bool) (q : Nat) :
    log.sealedWhere (Function.update p q true) ≤ log.sealedWhere p + log.device.size (sealedPath q) := by
  have hle : log.sealedWhere (Function.update p q true) ≤ log.sealedWhere p +
      ∑ q' ∈ Finset.range (log.sequence + 1), if q' = q then log.device.size (sealedPath q) else 0 := by
    rw [sealedWhere, sealedWhere, ← Finset.sum_add_distrib]
    refine Finset.sum_le_sum fun q' _ => ?_
    by_cases hq : q' = q
    · subst hq
      simp
    · rw [Function.update_of_ne hq, if_neg hq]
      exact le_refl _
  refine hle.trans (Nat.add_le_add_left ?_ _)
  rw [Finset.sum_ite_eq']
  split
  · exact le_refl _
  · exact Nat.zero_le _

private theorem inv_account (h : s.Inv config) {sequence before : Nat} (hw : s.writer = .sealed sequence before) : ({ s with
    sealedBytes := (s.sealedBytes + before) % 2^64, writer := .gathering,
    counted := Function.update s.counted sequence true } : Backlog ν U).Inv config := by
  obtain ⟨hsize, hlt⟩ := h.sealed sequence before hw
  have hbytes := h.bytes
  have htotal := h.total
  have hwrap := allowed_lt config
  rw [hw] at hbytes htotal
  simp only [WriterPhase.pending] at hbytes htotal
  have hadd : (s.sealedBytes + before) % 2^64 = s.sealedBytes + before := Nat.mod_eq_of_lt (by omega)
  rw [hadd]
  refine ⟨h.sound, h.ahead, fun hp q hq => ?_, ?_, h.held, ?_, ?_, fun _ _ hw => (by cases hw), fun _ _ hw => (by cases hw)⟩
  · have hq : s.log.sequence ≤ q := hq
    change Function.update s.counted sequence true q = false
    rw [Function.update_of_ne (by omega)]
    exact h.numbered hp q hq
  · exact (sealedWhere_update _ _ _).trans (Nat.add_le_add h.counted hsize)
  · change s.log.bytes + 0 ≤ _
    omega
  · change s.sealedBytes + before + s.log.bytes + 0 ≤ _
    omega

private theorem size_remove (log : WriteAheadLog) (sequence : Nat) (path : Path) :
    (log.remove sequence).device.size path = if path = sealedPath sequence then 0 else log.device.size path := by
  change ((Device.setFile log.device.files (sealedPath sequence) none path).map fun file => file.bytes.length).getD 0 = _
  split
  · rename_i hp
    rw [hp, Device.setFile_same]
    rfl
  · rename_i hp
    rw [Device.setFile_other _ _ hp, Device.size]

private theorem sealedWhere_remove (log : WriteAheadLog) (sequence : Nat) (p : Nat → Bool) :
    (log.remove sequence).sealedWhere p ≤ log.sealedWhere p := by
  refine Finset.sum_le_sum fun q _ => ?_
  rw [size_remove]
  split
  · split
    · exact Nat.zero_le _
    · exact le_refl _
  · exact le_refl _

private theorem size_remove_active (log : WriteAheadLog) (sequence : Nat) :
    (log.remove sequence).device.size (activePath log.sequence) = log.device.size (activePath log.sequence) := by
  rw [size_remove, if_neg (by simp [activePath, sealedPath])]

private theorem inv_reclaim (h : s.Inv config) (sequence : Nat) : ({ s with log := s.log.remove sequence } : Backlog ν U).Inv config := by
  have hzero : ∀ q, s.log.device.size (sealedPath q) = 0 → (s.log.remove sequence).device.size (sealedPath q) = 0 := by
    intro q hq
    rw [size_remove, hq, ite_self]
  refine ⟨fun hp => ?_, ⟨fun q hq => hzero q (h.ahead.later q hq), fun hp => hzero _ (h.ahead.here hp)⟩, h.numbered,
    (sealedWhere_remove _ _ _).trans h.counted, ?_, h.bytes, h.total, fun batch sealedBytes hw => ?_, fun q before hw => ?_⟩
  · obtain ⟨hfail, file, hfile, hlen⟩ := h.sound hp
    refine ⟨hfail, file, ?_, hlen⟩
    change Device.setFile s.log.device.files (sealedPath sequence) none (activePath s.log.sequence) = some file
    rw [Device.setFile_other _ _ (by simp [activePath, sealedPath]), hfile]
  · refine le_trans ?_ h.held
    change (s.log.remove sequence).sealedTotal + (s.log.remove sequence).device.size (activePath s.log.sequence) ≤ _
    rw [size_remove_active]
    exact Nat.add_le_add_right (sealedWhere_remove _ _ _) _
  · obtain ⟨hle, hor⟩ := h.loaded batch sealedBytes hw
    exact ⟨fun hp => (sealedWhere_remove _ _ _).trans (hle hp), hor⟩
  · obtain ⟨hle, hlt⟩ := h.sealed q before hw
    refine ⟨le_trans ?_ hle, hlt⟩
    change (s.log.remove sequence).device.size (sealedPath q) ≤ _
    rw [size_remove]
    split
    · exact Nat.zero_le _
    · exact le_refl _

/-- What the publisher stores covers what it has listed. -/
private theorem inv_stored (h : s.Inv config) {listed : Nat → Bool} {total : Nat} (hpresent : ∀ q, listed q = true → s.log.present q = true)
    (hcovers : s.log.sealedWhere listed ≤ total) (htotal : total ≤ allowedBytes config) :
    ({ s with sealedBytes := total, listing := none, counted := listed } : Backlog ν U).Inv config := by
  refine ⟨h.sound, h.ahead, fun hp q hq => ?_, hcovers, h.held, h.bytes, ?_, fun batch sealedBytes hw =>
    ⟨(h.loaded batch sealedBytes hw).1, .inr htotal⟩, h.sealed⟩
  · by_contra hlisted
    have hsize := hpresent q (by simpa using hlisted)
    have hzero : s.log.device.size (sealedPath q) = 0 := by
      rcases Nat.eq_or_lt_of_le hq with heq | hlt
      · exact heq ▸ h.ahead.here hp
      · exact h.ahead.later q hlt
    simp [present, hzero] at hsize
  · have hbytes := h.bytes
    change total + s.log.bytes + s.writer.pending ≤ _
    omega

private theorem inv_store (h : s.Inv config) {listed : Nat → Bool} (hpresent : ∀ q, listed q = true → s.log.present q = true) :
    ({ s with sealedBytes := min (s.log.sealedWhere listed) (2^64 - 1), listing := none, counted := listed } : Backlog ν U).Inv config := by
  have hheld : s.log.sealedWhere listed ≤ allowedBytes config :=
    (sealedWhere_le_total _ _).trans ((Nat.le_add_right s.log.sealedTotal _).trans h.held)
  have hwrap := allowed_lt config
  rw [Nat.min_eq_left (by omega)]
  exact inv_stored h hpresent (le_refl _) hheld

private theorem inv_storeFailed (h : s.Inv config) :
    ({ s with sealedBytes := 0, listing := none, counted := fun _ => false } : Backlog ν U).Inv config :=
  inv_stored h (fun _ hq => by cases hq) (by simp [sealedWhere]) (Nat.zero_le _)

private theorem total_le_covered {log : WriteAheadLog} {p : Nat → Bool} (h : ∀ q, log.present q = true → p q = true) :
    log.sealedTotal ≤ log.sealedWhere p := by
  rw [sealedTotal, sealedWhere, sealedWhere]
  refine Finset.sum_le_sum fun q _ => ?_
  by_cases hq : p q = true
  · rw [if_pos hq]
    exact le_of_eq (if_pos rfl)
  · have hzero : log.device.size (sealedPath q) = 0 := by
      by_contra hpos
      exact hq (h q (by simpa [present] using Nat.pos_of_ne_zero hpos))
    simp [hzero]

private theorem inv_load (h : s.Inv config) (batch : CapturedBatch ν U) (hw : s.writer = .gathering) (hok : Covered (.load batch) s) :
    ({ s with writer := .loaded batch s.sealedBytes } : Backlog ν U).Inv config := by
  have hbytes := h.bytes
  have htotal := h.total
  rw [hw] at hbytes htotal
  refine ⟨h.sound, h.ahead, h.numbered, h.counted, h.held, hbytes, htotal, ?_, fun _ _ hw => (by cases hw)⟩
  rintro _ _ ⟨⟩
  exact ⟨fun hp => (total_le_covered (hok batch rfl hp)).trans h.counted, .inl rfl⟩

theorem Backlog.Opened.inv (h : s.Opened config) : s.Inv config := by
  have hwrap := allowed_lt config
  have hheld : s.log.sealedWhere s.counted ≤ allowedBytes config :=
    (sealedWhere_le_total _ _).trans ((Nat.le_add_right s.log.sealedTotal _).trans h.held)
  have htotal : s.sealedBytes = s.log.sealedWhere s.counted := by rw [h.total, Nat.min_eq_left (by omega)]
  refine ⟨h.sound, h.ahead, fun hp q hq => ?_, htotal.ge, h.held, ?_, ?_, fun _ _ hw => ?_, fun _ _ hw => ?_⟩
  · by_contra hcounted
    have hsize := h.counted q (by simpa using hcounted)
    have hzero : s.log.device.size (sealedPath q) = 0 := by
      rcases Nat.eq_or_lt_of_le hq with heq | hlt
      · exact heq ▸ h.ahead.here hp
      · exact h.ahead.later q hlt
    simp [present, hzero] at hsize
  · rw [h.empty, h.writer]
    exact Nat.zero_le _
  · rw [h.empty, h.writer, htotal]
    change s.log.sealedWhere s.counted + 0 + 0 ≤ _
    omega
  · rw [h.writer] at hw
    cases hw
  · rw [h.writer] at hw
    cases hw

theorem inv_backlogStep {a : BacklogAction ν U} (h : s.Inv config) (hok : Covered a s) (hstep : BacklogStep K config faults a s s') :
    s'.Inv config := by
  cases hstep with
  | load batch hw => exact inv_load h batch hw hok
  | append hw => exact inv_append h hw
  | synced hw hx => exact inv_synced h hw (.inl hx)
  | syncFailed hw hx => exact inv_synced h hw (.inr ⟨_, hx⟩)
  | sealed hw hb hx => exact inv_sealed h hw hb hx
  | sealFailed hw hb hx => exact inv_sealFailed h hw hx
  | account hw => exact inv_account h hw
  | finish hw hx => exact inv_finish h hw (.inl ⟨_, hx⟩)
  | finishFailed hw hx => exact inv_finish h hw (.inr ⟨_, hx⟩)
  | reclaim sequence hl => exact inv_reclaim h sequence
  | list hl => exact ⟨h.sound, h.ahead, h.numbered, h.counted, h.held, h.bytes, h.total, h.loaded, h.sealed⟩
  | store hl hlisted hpresent => exact inv_store h hpresent
  | storeFailed hl => exact inv_storeFailed h

private theorem encodedBytes_pos {batch : CapturedBatch ν U} (h : batch.events ≠ []) : 0 < encodedBytes batch := by
  obtain ⟨event, rest, hevents⟩ := List.exists_cons_of_ne_nil h
  simp only [encodedBytes, hevents, List.map_cons, List.sum_cons]
  omega

theorem Backlog.Inv.refuses (h : s.Inv config) : s.Refuses K config faults := by
  intro batch result s' hstep hevents hheld
  cases hstep with
  | @append _ _ sealedBytes hw =>
    cases hp : s.log.poisoned with
    | true =>
      rw [admitBatch_poisoned hp]
      exact ⟨rfl, rfl⟩
    | false =>
      have hsealed := (h.loaded batch sealedBytes hw).1 hp
      have hactive := Sound.active h.sound hp
      have hpos := encodedBytes_pos hevents
      have hfull : maxUnpublishedWalBytes < saturatingAdd (saturatingAdd sealedBytes s.log.bytes) (encodedBytes batch) := by
        by_contra hroom
        have hfit := saturating_le hroom
        rw [Backlog.held, footprint, hactive] at hheld
        omega
      rw [admitBatch, if_pos hfull]
      exact ⟨rfl, rfl⟩

end invariant
end Hoglet.Wal
