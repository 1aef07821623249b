import Hoglet.Wal.Open
import Hoglet.Wal.Recovery
import Hoglet.Wal.Writer

/-! `writer_loop`: requests are gathered into groups, one sync stands behind every answer of a group. -/
namespace Hoglet.Wal

inductive SinkError where
  | retryable
  | fatal
  deriving DecidableEq, Repr

inductive WriterRequest (β : Type) where
  | append (batch : β) (encodedBytes : Nat)
  | erase (projectId personId : String)
  | shutdown

/-- What a receive returns: a request, with the publisher's count of sealed bytes at that moment, or
nothing, for a receive that times out and one that finds the queue empty. -/
inductive Received (β : Type) where
  | request (request : WriterRequest β) (sealedBytes : Nat)
  | empty

inductive PublisherSignal where
  | sealed
  | erase (projectId personId : String) (throughSegment : Nat)
  | shutdown
  deriving DecidableEq, Repr

/-- A batch of the group and how its write went; of the receipt the source keeps nothing. -/
structure Pending (β : Type) where
  batch : β
  result : Except SinkError WalReceipt

/-- A batch that has been answered, and the device at that moment. -/
structure Answer (β : Type) where
  batch : β
  result : Except SinkError WalReceipt
  device : Device

/-- The group being gathered; nothing is gathered exactly at the top of the outer loop. -/
structure Group (β : Type) where
  pending : List (Pending β)
  erasures : List (String × String)
  bytes : Nat

/-- The writer thread: its log, the answers given and the signals offered to the publisher. -/
structure Writer (β : Type) where
  log : WriteAheadLog
  answers : List (Answer β)
  signals : List PublisherSignal

def groupMaxBatches : Nat := 1024
def groupMaxBytes : Nat := 16 * 1024 * 1024
def maxUnpublishedWalBytes : Nat := 1024 * 1024 * 1024

def mapWalError : WalError → SinkError
  | .emptyBatch | .invalidProjectBinding | .recordTooLarge _ _ => .fatal
  | _ => .retryable

section loop
variable {β : Type} (C : Codec β) (config : WalConfig) (faults : Faults)

def Group.none : Group β := ⟨[], [], 0⟩

def Group.full (g : Group β) : Bool := groupMaxBatches ≤ g.pending.length || groupMaxBytes ≤ g.bytes

/-- A log operation whose error the loop maps or logs. -/
def Writer.run {α : Type} (x : Writes α) (w : Writer β) : Except WalError α × Writer β :=
  match x w.log with
  | .ok a log => (.ok a, { w with log })
  | .error e log => (.error e, { w with log })

/-- One append of the gathering loop. -/
def append (batch : β) (encodedBytes sealedBytes : Nat) (g : Group β) (w : Writer β) : Group β × Writer β :=
  let unpublished := saturatingAdd sealedBytes w.log.bytes
  let (result, w) :=
    if maxUnpublishedWalBytes < saturatingAdd unpublished encodedBytes then (.error .retryable, w)
    else
      let (written, w) := w.run (write C config faults batch)
      (written.mapError mapWalError, w)
  ({ g with pending := g.pending ++ [⟨batch, result⟩], bytes := saturatingAdd g.bytes encodedBytes }, w)

/-- One fsync for the whole group; nobody is answered before. -/
def answerGroup (pending : List (Pending β)) (w : Writer β) : Writer β :=
  if pending.isEmpty then w
  else
    let (synced, w) := w.run (sync faults)
    let result (p : Pending β) : Except SinkError WalReceipt := do
      let receipt ← p.result
      synced.mapError mapWalError
      return receipt
    { w with answers := w.answers ++ pending.map fun p => ⟨p.batch, result p, w.log.device⟩ }

/-- What follows the answers: a seal when one is due, then the erasures go to the publisher. -/
def sealAndSignal (sealDue : Bool) (erasures : List (String × String)) (w : Writer β) : Writer β :=
  let w :=
    if (!erasures.isEmpty || sealDue) && 0 < w.log.bytes then
      match w.run (seal_ faults) with
      | (.ok _, w) => { w with signals := w.signals ++ [.sealed] }
      | (.error _, w) => w
    else w
  { w with signals := w.signals ++ erasures.map fun (projectId, personId) => .erase projectId personId (w.log.sequence - 1) }

/-- What follows the loop: seal what was written, then let the publisher finish. -/
def finishWriter (w : Writer β) : Writer β :=
  let w := (w.run (seal_ faults)).2
  { w with signals := w.signals ++ [.shutdown] }

/-- The rest of a round after its group is gathered. -/
def closeGroup (sealDue : Bool) (g : Group β) (w : Writer β) : Writer β :=
  sealAndSignal faults sealDue g.erasures (answerGroup faults g.pending w)

/-- `writer_loop` on what its receives return; when that ends the queue is disconnected. `sealDue` tells
for each moment whether the seal interval has passed. -/
def writerLoop (sealDue : Nat → Bool) : List (Received β) → Group β → Writer β → Writer β
  | [], g, w =>
    if g.pending.isEmpty && g.erasures.isEmpty then finishWriter faults w else finishWriter faults (closeGroup faults (sealDue 0) g w)
  | .empty :: rest, g, w => writerLoop sealDue rest .none (closeGroup faults (sealDue rest.length) g w)
  | .request .shutdown _ :: _, g, w => finishWriter faults (answerGroup faults g.pending w)
  | .request (.append batch encodedBytes) sealedBytes :: rest, g, w =>
    let (g, w) := append C config faults batch encodedBytes sealedBytes g w
    if g.full then writerLoop sealDue rest .none (closeGroup faults (sealDue rest.length) g w)
    else writerLoop sealDue rest g w
  | .request (.erase projectId personId) _ :: rest, g, w =>
    let g := { g with erasures := g.erasures ++ [(projectId, personId)] }
    if g.full then writerLoop sealDue rest .none (closeGroup faults (sealDue rest.length) g w)
    else writerLoop sealDue rest g w

end loop

/-- The log as `open` hands it over; nothing is known to be synced. -/
def Opened.log (opened : Opened) : WriteAheadLog :=
  ⟨opened.sequence, opened.bytes, false, ⟨fun p => (opened.dir p).map fun bytes => ⟨bytes, 0⟩, 0, false⟩⟩

def Opened.writer {β : Type} (opened : Opened) : Writer β := ⟨opened.log, [], []⟩

section acknowledged
variable {β : Type} {C : Codec β} {config : WalConfig} {faults : Faults}
open WriteAheadLog

/-- An answer keeps its promise: Ok stands for a frame that is durable at that moment, on a device on
which nothing has failed. -/
def Answer.Honest (C : Codec β) (a : Answer β) : Prop :=
  ∀ receipt, a.result = .ok receipt → a.device.Durable receipt.span (encodeFrame (C.encode a.batch)) ∧ a.device.failed = false

/-- What every step of the loop keeps: a failure that an answer has seen has poisoned the log. -/
private structure Trusted (C : Codec β) (w : Writer β) : Prop where
  sound : w.log.Sound
  honest : ∀ a ∈ w.answers, a.Honest C
  noticed : ∀ a ∈ w.answers, a.device.failed = true → w.log.poisoned = true
  ordered : w.answers.Pairwise fun a b => a.device.failed = true → ∀ receipt, b.result ≠ .ok receipt

/-- While the log is not poisoned, the group's accepted batches are stored. -/
private def Gathered (C : Codec β) (pending : List (Pending β)) (w : Writer β) : Prop :=
  w.log.poisoned = false → ∀ p ∈ pending, ∀ receipt, p.result = .ok receipt →
    w.log.Stored receipt.span (encodeFrame (C.encode p.batch))

private theorem Trusted.keeps {w w' : Writer β} (h : Trusted C w) (hk : w.log.Keeps w'.log) (ha : w'.answers = w.answers) :
    Trusted C w' := by
  refine ⟨hk.sound h.sound, ha ▸ h.honest, fun a hmem hf => ?_, ha ▸ h.ordered⟩
  by_contra hp
  have := hk.healthy (by simpa using hp)
  rw [h.noticed a (ha ▸ hmem) hf] at this
  cases this

private theorem Gathered.keeps {pending : List (Pending β)} {w w' : Writer β} (h : Gathered C pending w)
    (hk : w.log.Keeps w'.log) : Gathered C pending w' :=
  fun hp p hmem receipt hr => hk.stored hp _ _ (h (hk.healthy hp) p hmem receipt hr)

private theorem run_keeps {α : Type} {x : Writes α} {w : Writer β} {Q : α → WriteAheadLog → Prop}
    (h : Ends x w.log (fun a log' => w.log.Keeps log' ∧ Q a log') fun _ log' => w.log.Keeps log') :
    w.log.Keeps (w.run x).2.log ∧ (w.run x).2.answers = w.answers ∧ ∀ a, (w.run x).1 = .ok a → Q a (w.run x).2.log := by
  unfold Writer.run
  cases hx : x w.log with
  | ok a log' =>
    obtain ⟨hk, hq⟩ := h.ok hx
    exact ⟨hk, rfl, fun _ ha => by cases ha; exact hq⟩
  | error e log' => exact ⟨h.error hx, rfl, fun _ ha => by cases ha⟩

private theorem mapError_ok {ε ε' α : Type} {x : Except ε α} {f : ε → ε'} {a : α} : x.mapError f = .ok a ↔ x = .ok a := by
  cases x <;> simp [Except.mapError]

private theorem append_keeps (config : WalConfig) (faults : Faults) (batch : β) (encodedBytes sealedBytes : Nat) {g : Group β}
    {w : Writer β} (h : Trusted C w) (hg : Gathered C g.pending w) :
    Trusted C (append C config faults batch encodedBytes sealedBytes g w).2 ∧
      Gathered C (append C config faults batch encodedBytes sealedBytes g w).1.pending
        (append C config faults batch encodedBytes sealedBytes g w).2 := by
  unfold append
  simp only
  split
  · refine ⟨h, fun hp p hmem receipt hr => ?_⟩
    rcases List.mem_append.mp hmem with hmem | hmem
    · exact hg hp p hmem receipt hr
    · cases List.mem_singleton.mp hmem
      cases hr
  · have hwrite : Ends (write C config faults batch) w.log _ _ := write_keeps batch w.log h.sound
    obtain ⟨hk, ha, hstored⟩ := run_keeps hwrite
    refine ⟨h.keeps hk ha, fun hp p hmem receipt hr => ?_⟩
    rcases List.mem_append.mp hmem with hmem | hmem
    · exact hg.keeps hk hp p hmem receipt hr
    · cases List.mem_singleton.mp hmem
      exact hstored receipt (mapError_ok.mp hr)

private theorem seal_run (faults : Faults) (w : Writer β) :
    w.log.Keeps (w.run (seal_ faults)).2.log ∧ (w.run (seal_ faults)).2.answers = w.answers := by
  have hseal : Ends (seal_ faults) w.log _ _ := seal_keeps w.log
  have h := run_keeps (w := w) (Q := fun _ _ => True) (hseal.mono (fun _ _ h => ⟨h, trivial⟩) fun _ _ => id)
  exact ⟨h.1, h.2.1⟩

/-- The sync behind the answers makes the whole group durable, whichever segments its frames are in. -/
private theorem answerGroup_trusted {pending : List (Pending β)} {w : Writer β} (h : Trusted C w)
    (hg : Gathered C pending w) : Trusted C (answerGroup faults pending w) := by
  unfold answerGroup
  split
  · exact h
  have hsync : Ends (sync faults) w.log _ _ := sync_keeps w.log h.sound
  simp only [Writer.run]
  cases hx : sync faults w.log with
  | error e log' =>
    have hpoison := hsync.error hx
    have hw : Trusted C { w with log := log' } := h.keeps (.of_poisoned hpoison) rfl
    have herr : ∀ a ∈ pending.map (fun p : Pending β => (⟨p.batch, do
        let receipt ← p.result
        (Except.error e : Except WalError Unit).mapError mapWalError
        return receipt, log'.device⟩ : Answer β)), ∀ receipt, a.result ≠ .ok receipt := by
      intro a hmem receipt hr
      obtain ⟨p, -, rfl⟩ := List.mem_map.mp hmem
      cases hp : p.result <;> simp only [hp] at hr <;> cases hr
    refine ⟨hw.sound, fun a hmem => ?_, fun _ _ _ => hpoison, List.pairwise_append.mpr ⟨hw.ordered, ?_, ?_⟩⟩
    · rcases List.mem_append.mp hmem with hmem | hmem
      · exact hw.honest a hmem
      · exact fun receipt hr => absurd hr (herr a hmem receipt)
    · exact List.pairwise_of_forall_mem_list fun a _ b hb _ => herr b hb
    · exact fun a _ b hb _ => herr b hb
  | ok u log' =>
    obtain ⟨hk, hpoison, hfail, hdurable⟩ := hsync.ok hx
    have hw : Trusted C { w with log := log' } := h.keeps hk rfl
    have hnew : ∀ a ∈ pending.map (fun p : Pending β => (⟨p.batch, do
        let receipt ← p.result
        (Except.ok u : Except WalError Unit).mapError mapWalError
        return receipt, log'.device⟩ : Answer β)), a.Honest C ∧ a.device = log'.device := by
      intro a hmem
      obtain ⟨p, hp, rfl⟩ := List.mem_map.mp hmem
      refine ⟨fun receipt hr => ?_, rfl⟩
      cases hres : p.result with
      | error e => simp only [hres] at hr; cases hr
      | ok r =>
        simp only [hres] at hr
        cases hr
        exact ⟨hdurable _ _ (hg (hk.healthy hpoison) p hp _ hres), hfail⟩
    have hquiet : ∀ a ∈ w.answers, a.device.failed ≠ true := fun a hmem hf => by
      have := hw.noticed a hmem hf
      simp only [hpoison] at this
      cases this
    refine ⟨hw.sound, fun a hmem => ?_, fun a hmem hf => ?_, List.pairwise_append.mpr ⟨hw.ordered, ?_, ?_⟩⟩
    · rcases List.mem_append.mp hmem with hmem | hmem
      · exact hw.honest a hmem
      · exact (hnew a hmem).1
    · rcases List.mem_append.mp hmem with hmem | hmem
      · exact hw.noticed a hmem hf
      · rw [(hnew a hmem).2, hfail] at hf
        cases hf
    · exact List.pairwise_of_forall_mem_list fun a ha _ _ hf => by
        rw [(hnew a ha).2, hfail] at hf
        cases hf
    · exact fun a ha _ _ hf => absurd hf (hquiet a ha)

private theorem sealAndSignal_trusted {sealDue : Bool} {erasures : List (String × String)} {w : Writer β} (h : Trusted C w) :
    Trusted C (sealAndSignal faults sealDue erasures w) := by
  obtain ⟨hk, ha⟩ := seal_run faults w
  have hs := h.keeps hk ha
  unfold sealAndSignal
  split
  · split
    · rename_i hr
      rw [hr] at hs
      exact ⟨hs.sound, hs.honest, hs.noticed, hs.ordered⟩
    · rename_i hr
      rw [hr] at hs
      exact ⟨hs.sound, hs.honest, hs.noticed, hs.ordered⟩
  · exact ⟨h.sound, h.honest, h.noticed, h.ordered⟩

private theorem finishWriter_trusted {w : Writer β} (h : Trusted C w) : Trusted C (finishWriter faults w) := by
  obtain ⟨hk, ha⟩ := seal_run faults w
  have hs := h.keeps hk ha
  exact ⟨hs.sound, hs.honest, hs.noticed, hs.ordered⟩

private theorem closeGroup_trusted {sealDue : Bool} {g : Group β} {w : Writer β} (h : Trusted C w)
    (hg : Gathered C g.pending w) : Trusted C (closeGroup faults sealDue g w) :=
  sealAndSignal_trusted (answerGroup_trusted h hg)

private theorem gathered_none {w : Writer β} : Gathered C (Group.none (β := β)).pending w := by
  intro _ p hp
  cases hp

private theorem writerLoop_trusted (config : WalConfig) (faults : Faults) (sealDue : Nat → Bool) (received : List (Received β)) (g : Group β) (w : Writer β)
    (h : Trusted C w) (hg : Gathered C g.pending w) : Trusted C (writerLoop C config faults sealDue received g w) := by
  induction received generalizing g w with
  | nil =>
    rw [writerLoop]
    split
    · exact finishWriter_trusted h
    · exact finishWriter_trusted (closeGroup_trusted h hg)
  | cons r rest ih =>
    rcases r with ⟨⟨batch, encodedBytes⟩ | ⟨projectId, personId⟩ | _, sealedBytes⟩ | _
    · obtain ⟨h', hg'⟩ := append_keeps config faults batch encodedBytes sealedBytes h hg
      simp only [writerLoop]
      split
      · exact ih _ _ (closeGroup_trusted h' hg') gathered_none
      · exact ih _ _ h' hg'
    · rw [writerLoop]
      split
      · exact ih _ _ (closeGroup_trusted h hg) gathered_none
      · exact ih _ _ h hg
    · rw [writerLoop]
      exact finishWriter_trusted (answerGroup_trusted h hg)
    · rw [writerLoop]
      exact ih _ _ (closeGroup_trusted h hg) gathered_none

private theorem scanRest_ok {sequence : Nat} {offset : Nat} {rest : Bytes} {scan : SegmentScan}
    (h : scanRest C config sequence true offset rest = .ok scan) :
    scan.validBytes ≤ offset + rest.length ∧ (scan.truncatedTail = false → scan.validBytes = offset + rest.length) := by
  induction hn : rest.length using Nat.strong_induction_on generalizing offset rest with
  | _ n ih =>
    rw [scanRest_eq] at h
    cases hp : probe C config rest with
    | eof =>
      obtain rfl := (probe_eof_iff C config rest).mp hp
      simp only [hp, Except.ok.injEq] at h
      subst h hn
      simp
    | bad reason =>
      simp only [hp, Bool.true_and] at h
      split at h <;> cases h
      exact ⟨Nat.le_add_right _ _, by simp⟩
    | record batch framed =>
      obtain ⟨hpos, hle⟩ := probe_record_bounds C config hp
      simp only [hp] at h
      obtain ⟨hvalid, hwhole⟩ := ih _ (by rw [List.length_drop]; omega) h rfl
      rw [List.length_drop] at hvalid hwhole
      exact ⟨by omega, fun hcut => by have := hwhole hcut; omega⟩

private theorem openNewActive_ok {dir dir' : Dir} {s : Nat} (h : openNewActive dir s = .ok dir') :
    dir' (activePath s) = some [] := by
  unfold openNewActive at h
  split at h
  · cases h
  · cases h
    exact if_pos rfl

/-- An opened log writes at the end of its active file. -/
private theorem opened_sound {names : List Path} {dir : Dir} {opened : Opened}
    (h : openLog C config names dir = .ok opened) : opened.log.Sound := by
  refine fun _ => ⟨rfl, ?_⟩
  suffices hfile : ∃ bytes, opened.dir (activePath opened.sequence) = some bytes ∧ bytes.length = opened.bytes by
    obtain ⟨bytes, hb, hlen⟩ := hfile
    exact ⟨⟨bytes, 0⟩, by simp [Opened.log, hb], hlen⟩
  simp only [openLog, bind, Except.bind] at h
  cases hl : discoverSegmentLayout names with
  | error e => simp [hl] at h
  | ok layout =>
    cases hs : scanSealed C config dir layout.sealed with
    | error e => simp [hl, hs] at h
    | ok _ =>
      simp only [hl, hs] at h
      cases ha : layout.active with
      | none =>
        simp only [ha, pure, Except.pure] at h
        split at h
        · cases h
        · rename_i hn
          cases h
          exact ⟨[], openNewActive_ok hn, rfl⟩
      | some s =>
        simp only [ha] at h
        cases hf : openFile dir (activePath s) with
        | error e => simp [hf] at h
        | ok file =>
          simp only [hf] at h
          cases hscan : scanSegment C config file s true with
          | error e => simp [hscan] at h
          | ok scan =>
            simp only [hscan, pure, Except.pure, Except.ok.injEq] at h
            subst h
            obtain ⟨hle, heq⟩ := scanRest_ok hscan
            cases hcut : scan.truncatedTail with
            | true => exact ⟨file.take scan.validBytes, by simp [Dir.set], by simp; omega⟩
            | false =>
              have hlen := heq hcut
              rw [Nat.zero_add] at hlen
              exact ⟨file, by rw [if_neg (by simp)]; exact openFile_ok.mp hf, hlen.symm⟩

/-- Every batch answered Ok has its whole frame in bytes that a sync has made durable, in the active
segment or a sealed one, at the moment of the answer; and once any operation has failed no batch is
answered Ok any more. -/
theorem acknowledged_is_durable {names : List Path} {dir : Dir} {opened : Opened}
    (h : openLog C config names dir = .ok opened) (faults : Faults) (sealDue : Nat → Bool) (received : List (Received β)) :
    (∀ a ∈ (writerLoop C config faults sealDue received .none opened.writer).answers, a.Honest C) ∧
      (writerLoop C config faults sealDue received .none opened.writer).answers.Pairwise
        fun a b => a.device.failed = true → ∀ receipt, b.result ≠ .ok receipt := by
  have hstart : Trusted C (opened.writer (β := β)) := ⟨opened_sound h, fun _ ha => (by cases ha), fun _ ha => (by cases ha), .nil⟩
  have hend := writerLoop_trusted config faults sealDue received .none _ hstart gathered_none
  exact ⟨hend.honest, hend.ordered⟩

/-- One batch on a fresh log. -/
theorem one_batch_is_durable : ∃ opened, openLog (Capture.batchCodec Capture.Crates.small) .standard [] (fun _ => none) = .ok opened ∧
    ∃ a receipt, (writerLoop (Capture.batchCodec Capture.Crates.small) .standard (fun _ => none) (fun _ => false)
        [.request (.append flatRec.batch 100) 0, .empty] .none opened.writer).answers = [a] ∧ a.result = .ok receipt ∧
      a.device.Durable receipt.span (encodeFrame ((Capture.batchCodec Capture.Crates.small).encode a.batch)) := by
  have hopen : openLog (Capture.batchCodec Capture.Crates.small) .standard [] (fun _ => none) =
      .ok ⟨1, 0, false, Dir.set (fun _ => none) (activePath 1) []⟩ := rfl
  have hok : (writerLoop (Capture.batchCodec Capture.Crates.small) .standard (fun _ => none) (fun _ => false)
      [.request (.append flatRec.batch 100) 0, .empty] .none
      (Opened.writer ⟨1, 0, false, Dir.set (fun _ => none) (activePath 1) []⟩)).answers.map (·.result.toBool) = [true] := by
    decide +kernel
  obtain ⟨a, ha, hres⟩ := List.map_eq_singleton_iff.mp hok
  obtain ⟨receipt, hr⟩ : ∃ receipt, a.result = .ok receipt := by
    cases h : a.result with
    | error e => simp [h, Except.toBool] at hres
    | ok receipt => exact ⟨receipt, rfl⟩
  refine ⟨_, hopen, a, receipt, ha, hr, ?_⟩
  exact ((acknowledged_is_durable hopen (fun _ => none) (fun _ => false) [.request (.append flatRec.batch 100) 0, .empty]).1
    a (ha ▸ List.mem_singleton_self a) receipt hr).1

end acknowledged
end Hoglet.Wal
