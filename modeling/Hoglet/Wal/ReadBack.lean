import Hoglet.Capture.Batch
import Hoglet.Wal.Segment

/-! Whether what capture accepts and `write` frames can be read again. -/
namespace Hoglet.Wal
open Capture Json

/-- The nesting a property value may have in a record that reads back. -/
def propertyBudget : Nat := recursionBudget - 4

section readBack
variable {β : Type} (C : Codec β) (config : WalConfig)

/-- The framed payload is read as this batch wherever it stands, and a segment that holds it among
other records passes the scan, with and without repair. -/
def ReadsBackAs (batch : β) (payload : Bytes) : Prop :=
  (∀ segment offset rest, readRecord C config segment offset (encodeFrame payload ++ rest) =
    .ok (some (batch, (encodeFrame payload).length))) ∧
  ∀ (before after : List (Rec C config)) (sequence : Nat) (repair : Bool),
    let file := segBytes C config before ++ encodeFrame payload ++ segBytes C config after
    scanSegment C config file sequence repair = .ok ⟨file.length, false⟩

theorem readsBackAs_iff {batch : β} {payload : Bytes} (h : writePayload C config batch = .ok payload) :
    ReadsBackAs C config batch payload ↔ C.decode payload = some batch := by
  obtain ⟨_, hcount, hfits⟩ := writePayload_ok h
  constructor
  · rintro ⟨hread, _⟩
    have hr := hread 0 0 []
    rw [readRecord, probe_frame C config payload [] hfits] at hr
    cases hd : C.decode payload with
    | none => simp [hd] at hr
    | some batch' =>
      by_cases hz : C.eventCount batch' = 0
      · simp [hd, hz] at hr
      · simp only [hd, hz, if_false, Except.ok.injEq, Option.some.injEq, Prod.mk.injEq] at hr
        rw [hr.1]
  · intro hd
    let r : Rec C config := ⟨batch, payload, hd, hcount, hfits⟩
    refine ⟨fun segment offset rest => readRecord_frame segment offset r rest, fun before after sequence repair => ?_⟩
    have hfile : segBytes C config before ++ encodeFrame payload ++ segBytes C config after =
        segBytes C config (before ++ r :: after) := by
      simp [Rec.frame, r]
    simp only [hfile]
    exact scanSegment_segBytes sequence repair _

end readBack

section capture
variable {ν U : Type} (K : Crates ν U) (config : WalConfig)

/-- The batches capture builds from parsed events: unbound, or authorized for their projects. -/
def BuiltFrom (events : List (CapturedEvent ν U)) (batch : CapturedBatch ν U) : Prop :=
  CapturedBatch.new events = .ok batch ∨
  ∃ bindings historical nowMs, CapturedBatch.authorized events bindings historical nowMs = .ok batch

theorem BuiltFrom.events {events : List (CapturedEvent ν U)} {batch : CapturedBatch ν U}
    (h : BuiltFrom events batch) : batch.events = events := by
  rcases h with h | ⟨bindings, historical, nowMs, h⟩
  · unfold CapturedBatch.new at h
    split at h <;> cases h
    rfl
  · unfold CapturedBatch.authorized at h
    split at h
    · cases h
    split at h <;> cases h
    rfl

/-- A batch `write` accepts reads back exactly when its property values leave room for the four
containers the record wraps around them. -/
theorem parsed_batch_reads_back_iff (newV7 : Nat → DateTime → U) (body : String)
    (sentAt : Option DateTime) (now : DateTime) (parsed : ParsedBatch ν U)
    (_hparse : parseBody K newV7 body sentAt now = .ok parsed) (_hne : parsed.events ≠ [])
    (batch : CapturedBatch ν U) (hbuilt : BuiltFrom parsed.events batch) (payload : Bytes)
    (hwrite : writePayload (batchCodec K) config batch = .ok payload) :
    ReadsBackAs (batchCodec K) config batch payload ↔
      ∀ e ∈ parsed.events, ∀ m ∈ e.properties.members, nesting m.2 ≤ propertyBudget := by
  obtain ⟨rfl, _⟩ := writePayload_ok hwrite
  have hd : (batchCodec K).decode ((batchCodec K).encode batch) =
      if nesting (batch.toValue K) ≤ recursionBudget then some batch else none := decodeBatch_encodeBatch K batch
  rw [readsBackAs_iff _ _ hwrite, hd, ← hbuilt.events, ← nesting_toValue]
  change _ ↔ nesting (batch.toValue K) ≤ recursionBudget
  split <;> simp_all

/-- One event whose property `a` holds `n` nested arrays. -/
def nestedBody (n : Nat) : String :=
  String.ofList ("\x7b\"event\":\"a\",\"distinct_id\":\"u\",\"token\":\"phc_t\",\"properties\":\x7b\"a\":".toList ++
    List.replicate n '[' ++ List.replicate n ']' ++ ['}', '}'])

def zeroUuid : Nat → DateTime → Small.Uuid := fun _ _ => Small.nilUuid

def unbound (events : List (CapturedEvent Int Small.Uuid)) : CapturedBatch Int Small.Uuid :=
  ⟨events, ⟨[], List.Pairwise.nil⟩, false, 0⟩

private def nestedText (n : Nat) : List Char :=
  "\x7b\"event\":\"a\",\"distinct_id\":\"u\",\"token\":\"phc_t\",\"properties\":\x7b\"a\":".toList ++
    List.replicate n '[' ++ List.replicate n ']' ++ ['}', '}']

/-- The text is one event of that nesting, and its record fits. -/
private def nestsTo (n : Nat) : Bool :=
  match parse Crates.small.numbers recursionBudget (nestedText n) with
  | some (.object members) =>
    let obj := Map.ofWritten members
    (obj.get "batch").isNone && obj.contains "event" &&
      match resolveEvents Crates.small zeroUuid none none Small.noon 0 [.object obj.members] with
      | .ok [e] => nestingMembers e.properties.members = n ∧ (encodeBatch Crates.small (unbound [e])).length ≤ 1000
      | _ => false
  | _ => false

private theorem nestedBody_parses {n : Nat} (h : nestsTo n = true) :
    ∃ e historical, parseBody Crates.small zeroUuid (nestedBody n) none Small.noon = .ok ⟨[e], historical⟩ ∧
      nestingMembers e.properties.members = n ∧
      writePayload (batchCodec Crates.small) .standard (unbound [e]) = .ok (encodeBatch Crates.small (unbound [e])) := by
  unfold nestsTo at h
  split at h
  · rename_i members hparse
    simp only [Bool.and_eq_true, Option.isNone_iff_eq_none] at h
    obtain ⟨⟨hbatch, hevent⟩, h⟩ := h
    split at h
    · rename_i e hresolve
      simp only [Bool.decide_and, Bool.and_eq_true, decide_eq_true_eq] at h
      refine ⟨e, false, ?_, h.1, ?_⟩
      · have htext : (nestedBody n).toList = nestedText n := String.toList_ofList
        rw [parseBody, htext, hparse]
        simp only [hbatch, hevent, if_true, hresolve]
        rfl
      · have hlen : ¬ WalConfig.standard.maxRecordBytes < ((batchCodec Crates.small).encode (unbound [e])).length := by
          change ¬ 64 * 1024 * 1024 < (encodeBatch Crates.small (unbound [e])).length
          omega
        rw [writePayload, if_neg (by simp [batchCodec, CapturedBatch.eventCount, unbound]), if_neg hlen]
        rfl
    · cases h
  · cases h

theorem flat_batch_reads_back : ∃ (e : CapturedEvent Int Small.Uuid) (historical : Bool) (payload : Bytes),
    parseBody Crates.small zeroUuid (nestedBody 1) none Small.noon = .ok ⟨[e], historical⟩ ∧
    writePayload (batchCodec Crates.small) .standard (unbound [e]) = .ok payload ∧
    ReadsBackAs (batchCodec Crates.small) .standard (unbound [e]) payload := by
  obtain ⟨e, historical, hparse, hnest, hwrite⟩ := nestedBody_parses (n := 1) (by decide +kernel)
  refine ⟨e, historical, _, hparse, hwrite, ?_⟩
  refine (parsed_batch_reads_back_iff Crates.small .standard zeroUuid (nestedBody 1) none Small.noon _ hparse
    (by simp) (unbound [e]) (.inl rfl) _ hwrite).mpr ?_
  rw [List.forall_mem_singleton, ← nestingMembers_le, hnest]
  decide

/-- 124 nested arrays in a property pass the body's recursion limit and fail the record's. -/
theorem nested_batch_never_reads_back : ∃ (parsed : ParsedBatch Int Small.Uuid)
    (batch : CapturedBatch Int Small.Uuid) (payload : Bytes),
    parseBody Crates.small zeroUuid (nestedBody 124) none Small.noon = .ok parsed ∧ parsed.events ≠ [] ∧
    BuiltFrom parsed.events batch ∧ writePayload (batchCodec Crates.small) .standard batch = .ok payload ∧
    ¬ ReadsBackAs (batchCodec Crates.small) .standard batch payload ∧
    readRecord (batchCodec Crates.small) .standard 1 0 (encodeFrame payload) =
      .error (.corruption 1 0 .invalidPayload) := by
  obtain ⟨e, historical, hparse, hnest, hwrite⟩ := nestedBody_parses (n := 124) (by decide +kernel)
  have hdeep : ¬ nesting ((unbound [e]).toValue Crates.small) ≤ recursionBudget := by
    have h := nesting_toValue Crates.small (unbound [e]) 123
    simp only [unbound, List.forall_mem_singleton, ← nestingMembers_le, hnest] at h
    intro hle
    exact absurd (h.mp hle) (by norm_num)
  have hnone : (batchCodec Crates.small).decode (encodeBatch Crates.small (unbound [e])) = none := by
    change decodeBatch Crates.small (encodeBatch Crates.small (unbound [e])) = none
    rw [decodeBatch_encodeBatch, if_neg hdeep]
  refine ⟨_, unbound [e], _, hparse, by simp, .inl rfl, hwrite, ?_, ?_⟩
  · rw [readsBackAs_iff _ _ hwrite, hnone]
    simp
  · have hp := probe_frame (batchCodec Crates.small) .standard (encodeBatch Crates.small (unbound [e])) []
      (writePayload_ok hwrite).2.2
    rw [List.append_nil, hnone] at hp
    rw [readRecord, hp]

/-- The plainest stored record. -/
def flatRec : Rec (batchCodec Crates.small) .standard where
  batch := unbound [⟨Small.nilUuid, "a", "u", "phc_t", Small.noon, Map.empty⟩]
  payload := encodeBatch Crates.small (unbound [⟨Small.nilUuid, "a", "u", "phc_t", Small.noon, Map.empty⟩])
  decodes := by
    change decodeBatch Crates.small _ = _
    rw [decodeBatch_encodeBatch, if_pos (by decide)]
  nonempty := by decide
  fits := by decide +kernel

end capture
end Hoglet.Wal
