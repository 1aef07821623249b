import Hoglet.Capture.Decompress

/-! What the decoder's looks at a payload's bytes find, for each form that a JSON text is sent in. -/
namespace Hoglet.Capture
open Json Lz

section ascii

/-- The characters of an ASCII text. -/
def asciiText (bytes : List UInt8) : List Char := bytes.map fun b => Char.ofNat b.toNat

private theorem utf8EncodeChar_ascii {b : UInt8} (h : b.toNat < 128) : String.utf8EncodeChar (Char.ofNat b.toNat) = [b] := by
  have hall : ∀ n : Fin 128, String.utf8EncodeChar (Char.ofNat n.val) = [UInt8.ofNat n.val] := by decide
  have := hall ⟨b.toNat, h⟩
  rwa [UInt8.ofNat_toNat] at this

theorem utf8_asciiText {bytes : List UInt8} (h : ∀ b ∈ bytes, b.toNat < 128) : utf8 (asciiText bytes) = bytes := by
  induction bytes with
  | nil => rfl
  | cons b bytes ih =>
    rw [asciiText, List.map_cons, utf8, List.flatMap_cons, utf8EncodeChar_ascii (h b List.mem_cons_self)]
    exact congrArg (b :: ·) (ih fun c hc => h c (List.mem_cons_of_mem _ hc))

theorem ofUtf8_asciiText {bytes : List UInt8} (h : ∀ b ∈ bytes, b.toNat < 128) : ofUtf8 bytes = some (asciiText bytes) := by
  have := ofUtf8_utf8 (asciiText bytes)
  rwa [utf8_asciiText h] at this

theorem utf16_asciiText {bytes : List UInt8} (h : ∀ b ∈ bytes, b.toNat < 128) :
    utf16 (asciiText bytes) = bytes.map UInt8.toNat := by
  have hchar : ∀ n : Fin 128, utf16Char (Char.ofNat n.val) = [n.val] := by decide
  induction bytes with
  | nil => rfl
  | cons b bytes ih =>
    rw [asciiText, List.map_cons, utf16, List.flatMap_cons, hchar ⟨b.toNat, h b List.mem_cons_self⟩, List.map_cons]
    exact congrArg (b.toNat :: ·) (ih fun c hc => h c (List.mem_cons_of_mem _ hc))

/-- A text of base64 digits, its padding included. -/
def Digits (bytes : List UInt8) : Prop := ∀ b ∈ bytes, Base64.isDigit b = true

theorem forall_uint8 {P : UInt8 → Prop} (h : ∀ n : Fin 256, P (UInt8.ofNat n.val)) (b : UInt8) : P b := by
  have := h ⟨b.toNat, b.toNat_lt⟩
  rwa [UInt8.ofNat_toNat] at this

theorem isDigit_lt {b : UInt8} (h : Base64.isDigit b = true) : b.toNat < 128 :=
  forall_uint8 (P := fun b => Base64.isDigit b = true → b.toNat < 128) (by decide +kernel) b h

private theorem isDigit_eq (b : UInt8) :
    Base64.isDigit b = (isAsciiAlphanumeric b || b = 43 || b = 47 || b = 61) :=
  forall_uint8 (P := fun b => Base64.isDigit b = (isAsciiAlphanumeric b || b = 43 || b = 47 || b = 61)) (by decide +kernel) b

theorem Digits.ascii {bytes : List UInt8} (h : Digits bytes) : ∀ b ∈ bytes, b.toNat < 128 :=
  fun b hb => isDigit_lt (h b hb)

theorem looksLikeBase64_iff (payload : List UInt8) :
    looksLikeBase64 payload = true ↔ payload ≠ [] ∧ 4 ∣ payload.length ∧ Digits payload := by
  simp only [looksLikeBase64, ← isDigit_eq, Bool.and_eq_true, Bool.not_eq_true', decide_eq_true_eq, List.all_eq_true,
    List.isEmpty_eq_false_iff, Nat.dvd_iff_mod_eq_zero, and_assoc, Digits]

theorem looksLikeBase64_encode {bytes : List UInt8} (h : bytes ≠ []) : looksLikeBase64 (Base64.encode bytes) = true := by
  refine (looksLikeBase64_iff _).mpr ⟨fun hnil => ?_, Base64.length_encode bytes, Base64.encode_digits bytes⟩
  obtain ⟨b, rest, rfl⟩ := List.exists_cons_of_ne_nil h
  obtain ⟨tail, htail⟩ := Base64.encode_head b rest
  rw [htail] at hnil
  cases hnil

theorem unwrapBase64_encode {bytes : List UInt8} (h : bytes ≠ []) : unwrapBase64 (Base64.encode bytes) = bytes := by
  rw [unwrapBase64, if_pos (looksLikeBase64_encode h), Base64.decode_encode]
  rfl

/-- What does not start with a base64 digit is left as it is. -/
theorem unwrapBase64_of_head {b : UInt8} {rest : List UInt8} (h : Base64.isDigit b = false) :
    unwrapBase64 (b :: rest) = b :: rest := by
  rw [unwrapBase64, if_neg]
  intro hlooks
  have := ((looksLikeBase64_iff _).mp hlooks).2.2 b List.mem_cons_self
  rw [h] at this
  cases this

private theorem mem_asciiText {bytes : List UInt8} (h : Digits bytes) {c : Char} (hc : c ∈ asciiText bytes) :
    c ≠ '&' := by
  obtain ⟨b, hb, rfl⟩ := List.mem_map.mp hc
  exact forall_uint8 (P := fun b => Base64.isDigit b = true → Char.ofNat b.toNat ≠ '&') (by decide +kernel) b (h b hb)

/-- A text of digits is one pair, and so a form with a data field only where it starts with that key. -/
theorem parseForm_digits {b : UInt8} {rest : List UInt8} (h : Digits (b :: rest)) (hdata : b ≠ 100) :
    parseForm (b :: rest) = .error .undecodable := by
  have hone : (asciiText (b :: rest)).splitOn '&' = [asciiText (b :: rest)] :=
    List.splitOn_eq_singleton fun hmem => mem_asciiText h hmem rfl
  have hkey : (splitPair (asciiText (b :: rest))).1 ≠ "data".toList := fun hkey => by
    have hd : Char.ofNat b.toNat = 'd' := by
      rw [splitPair, asciiText, List.map_cons, List.takeWhile_cons] at hkey
      split at hkey
      · exact (List.cons.inj hkey).1
      · cases hkey
    refine hdata (forall_uint8 (P := fun b => Base64.isDigit b = true → Char.ofNat b.toNat = 'd' → b = 100)
      (by decide +kernel) b (h b List.mem_cons_self) hd)
  have htext : orUndecodable (ofUtf8 (b :: rest)) = .ok (asciiText (b :: rest)) := by
    rw [ofUtf8_asciiText h.ascii]
    rfl
  simp only [parseForm, htext, bind, Except.bind, hone, formFields, if_neg hkey]
  by_cases hhint : (splitPair (asciiText (b :: rest))).1 = "compression".toList
  · rw [if_pos hhint]
    rfl
  · rw [if_neg hhint]
    rfl

end ascii

section lz

/-- The key's place of a base64 digit is its value. -/
theorem indexOfUnit_digit (b : UInt8) (h : Base64.isDigit b = true) :
    indexOfUnit b.toNat = some ((Base64.value b).getD 64) :=
  forall_uint8 (P := fun b => Base64.isDigit b = true → indexOfUnit b.toNat = some ((Base64.value b).getD 64))
    (by decide +kernel) b h

theorem mapM_indexOfUnit {bytes : List UInt8} (h : Digits bytes) :
    (utf16 (asciiText bytes)).mapM indexOfUnit = some (bytes.map fun b => (Base64.value b).getD 64) := by
  rw [utf16_asciiText h.ascii]
  induction bytes with
  | nil => rfl
  | cons b bytes ih =>
    rw [List.map_cons, List.mapM_cons, indexOfUnit_digit b (h b List.mem_cons_self), ih fun c hc => h c (List.mem_cons_of_mem _ hc)]
    rfl

/-- The reader's start, once its first two bits are known. -/
theorem decompress_start {payload : List Char} {encoded : List Nat} {bits bits' : Bits} {code : Nat}
    (hkeys : (utf16 payload).mapM indexOfUnit = some encoded) (hnew : Bits.new encoded = some bits)
    (hread : bits.readBits 2 = some (code, bits')) (maxBytes : Nat) :
    decompressLz64Bounded payload maxBytes =
      if code ≤ 1 then orUndecodable (bits'.readBits (code * 8 + 8)) >>= fun (unit, bits) =>
        Decoder.first bits unit maxBytes >>= Decoder.loop
      else if code = 2 then .ok [] else .error .undecodable := by
  rw [decompressLz64Bounded, hkeys]
  change (orUndecodable (Bits.new encoded) >>= _) = _
  rw [hnew]
  change (orUndecodable (bits.readBits 2) >>= _) = _
  rw [hread]
  rfl

/-- A text whose first two bits are a one and a zero, the lower first, closes at once. -/
theorem decompress_closing {b : UInt8} {rest : List UInt8} (h : Digits (b :: rest)) {v : Nat} (hv : Base64.value b = some v)
    (hhigh : v.testBit 5 = false) (hlow : v.testBit 4 = true) (maxBytes : Nat) :
    decompressLz64Bounded (asciiText (b :: rest)) maxBytes = .ok [] := by
  have hkeys := mapM_indexOfUnit h
  rw [List.map_cons, hv] at hkeys
  have hread (input : List Nat) : Bits.readBits ⟨v, input, 5⟩ 2 = some (2, ⟨v, input, 3⟩) := by
    simp only [Bits.readBits, Bits.readBitsFrom, Bits.readBit, Option.bind_eq_bind, Option.bind_some, hhigh, hlow,
      Bool.false_eq_true, if_false, if_true]
    rfl
  rw [decompress_start hkeys rfl (hread _)]
  rfl

/-- A character of no base64 alphabet ends the lz-string route. -/
theorem decompress_not_key {c : Char} {rest : List Char} (h : indexOfUnit c.toNat = none) (hsmall : c.toNat < 0x10000)
    (maxBytes : Nat) : decompressLz64Bounded (c :: rest) maxBytes = .error .undecodable := by
  rw [decompressLz64Bounded, utf16, List.flatMap_cons, utf16Char, if_pos hsmall, List.singleton_append, List.mapM_cons, h]
  rfl

end lz

section utf8

/-- A character's bytes start with its only one, or with a byte that no other character's go on with. -/
private theorem utf8EncodeChar_head (c : Char) :
    ∃ b rest, String.utf8EncodeChar c = b :: rest ∧ (b.toNat < 128 → rest = []) ∧ (b.toNat < 128 ∨ 192 ≤ b.toNat) := by
  unfold String.utf8EncodeChar
  simp only
  split
  · rename_i h
    refine ⟨_, [], rfl, fun _ => rfl, Or.inl ?_⟩
    rw [UInt8.toNat_ofNat']
    omega
  split
  · refine ⟨_, _, rfl, fun h => absurd h ?_, Or.inr ?_⟩ <;> rw [UInt8.toNat_ofNat'] <;> omega
  split
  · refine ⟨_, _, rfl, fun h => absurd h ?_, Or.inr ?_⟩ <;> rw [UInt8.toNat_ofNat'] <;> omega
  · refine ⟨_, _, rfl, fun h => absurd h ?_, Or.inr ?_⟩ <;> rw [UInt8.toNat_ofNat'] <;> omega

/-- What starts with the gzip magic bytes is no UTF-8 text. -/
theorem ofUtf8_gzipMagic {bytes : List UInt8} (h : gzipMagic <+: bytes) : ofUtf8 bytes = none := by
  obtain ⟨rest, rfl⟩ := h
  cases htext : ofUtf8 (gzipMagic ++ rest) with
  | none => rfl
  | some cs =>
    have hbytes := utf8_of_ofUtf8 htext
    cases cs with
    | nil => cases hbytes
    | cons c cs =>
      obtain ⟨b, tail, hc, hone, -⟩ := utf8EncodeChar_head c
      rw [utf8, List.flatMap_cons, hc, gzipMagic] at hbytes
      obtain ⟨hfirst, hsecond⟩ := List.cons.inj hbytes
      rw [hone (by rw [hfirst]; decide)] at hsecond
      cases cs with
      | nil => cases hsecond
      | cons d cs =>
        obtain ⟨lead, tail, hd, -, hlead⟩ := utf8EncodeChar_head d
        rw [List.flatMap_cons, hd] at hsecond
        rw [(List.cons.inj hsecond).1] at hlead
        exact absurd hlead (by decide)

end utf8
end Hoglet.Capture
