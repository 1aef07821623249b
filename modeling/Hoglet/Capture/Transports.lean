import Hoglet.Capture.Lies
import Hoglet.Capture.LzRoundTrip

/-! The forms in which honest clients send a JSON text, and what is decoded from each. -/
namespace Hoglet.Capture
open Json Lz

section bound

/-- An output that keeps its limit. -/
def Bounded (maxBytes : Nat) (o : Utf16Output) : Prop := o.maximumBytes = maxBytes ∧ (utf8 o.text).length ≤ maxBytes

variable {maxBytes : Nat}

private theorem appendUnit_bounded {o o' : Utf16Output} {unit : Nat} (ho : Bounded maxBytes o) (h : o.appendUnit unit = .ok o') :
    Bounded maxBytes o' := by
  unfold Utf16Output.appendUnit at h
  split at h
  · cases h
    exact ho
  split at h
  · cases h
  · rename_i c _
    split at h
    · cases h
    · rename_i hfits
      cases h
      refine ⟨ho.1, ?_⟩
      have hlength := length_utf8_concat o.text c
      have := ho.1
      change (utf8 (o.text ++ [c])).length ≤ maxBytes
      omega

theorem append_bounded {units : List Nat} {o o' : Utf16Output} (ho : Bounded maxBytes o) (h : o.append units = .ok o') :
    Bounded maxBytes o' := by
  induction units generalizing o with
  | nil =>
    cases h
    exact ho
  | cons unit units ih =>
    rw [append_cons] at h
    obtain ⟨o'', hunit, h⟩ := bind_ok.mp h
    exact ih (appendUnit_bounded ho hunit) h

private theorem countDown_output {d d' : Decoder} (h : d.countDown = .ok d') : d'.output = d.output := by
  unfold Decoder.countDown at h
  split at h
  · split at h
    · cases h
    · cases h; rfl
  · cases h; rfl

private theorem apply_bounded {d d' : Decoder} {index : Nat} (hd : Bounded maxBytes d.output) (h : d.apply index = .ok d') :
    Bounded maxBytes d'.output := by
  obtain ⟨entry, -, h⟩ := bind_ok.mp h
  obtain ⟨output, houtput, h⟩ := bind_ok.mp h
  obtain ⟨first, -, h⟩ := bind_ok.mp h
  rw [countDown_output h]
  exact append_bounded hd houtput

private theorem step_bounded {d : Decoder} {answer : List Char ⊕ Decoder} (hd : Bounded maxBytes d.output)
    (h : d.step = .ok answer) :
    match answer with
    | .inl text => (utf8 text).length ≤ maxBytes
    | .inr d' => Bounded maxBytes d'.output := by
  obtain ⟨⟨code, bits⟩, -, h⟩ := bind_ok.mp h
  change (if code ≤ 1 then _ else _) = _ at h
  split at h
  · obtain ⟨⟨code', next⟩, hliteral, h⟩ := bind_ok.mp h
    obtain ⟨d', happly, h⟩ := bind_ok.mp h
    cases h
    obtain ⟨⟨unit, rest⟩, -, hliteral⟩ := bind_ok.mp hliteral
    change (if _ then _ else _) = _ at hliteral
    split at hliteral
    · cases hliteral
    · obtain ⟨counted, hcount, hliteral⟩ := bind_ok.mp hliteral
      cases hliteral
      refine apply_bounded ?_ happly
      rw [countDown_output hcount]
      exact hd
  split at h
  · obtain ⟨text, hfinish, h⟩ := bind_ok.mp h
    cases h
    unfold Utf16Output.finish at hfinish
    split at hfinish
    · cases hfinish
    · cases hfinish
      exact hd.2
  · obtain ⟨d', happly, h⟩ := bind_ok.mp h
    cases h
    exact apply_bounded (d := { d with bits := bits }) hd happly

private theorem loop_bounded {d : Decoder} {text : List Char} (hd : Bounded maxBytes d.output) (h : d.loop = .ok text) :
    (utf8 text).length ≤ maxBytes := by
  induction d using Decoder.loop.induct with
  | case1 d e hstep =>
    rw [Decoder.loop_eq, hstep] at h
    cases h
  | case2 d answer hstep =>
    rw [Decoder.loop_eq, hstep] at h
    cases h
    exact step_bounded hd hstep
  | case3 d d' hstep ih =>
    rw [Decoder.loop_eq, hstep] at h
    exact ih (step_bounded hd hstep) h

theorem decompress_bounded {payload text : List Char} (h : decompressLz64Bounded payload maxBytes = .ok text) :
    (utf8 text).length ≤ maxBytes := by
  obtain ⟨encoded, -, h⟩ := bind_ok.mp h
  obtain ⟨bits, -, h⟩ := bind_ok.mp h
  obtain ⟨⟨code, bits⟩, -, h⟩ := bind_ok.mp h
  change (if code ≤ 1 then _ else _) = _ at h
  split at h
  · obtain ⟨⟨unit, bits⟩, -, h⟩ := bind_ok.mp h
    obtain ⟨d, hfirst, h⟩ := bind_ok.mp h
    obtain ⟨o, ho, hfirst⟩ := bind_ok.mp hfirst
    cases hfirst
    exact loop_bounded (append_bounded ⟨rfl, Nat.zero_le _⟩ ho) h
  split at h
  · cases h
    exact Nat.zero_le _
  · cases h

private theorem gatherChunks_bounded {ends : Bool} {chunks : List (List UInt8)} {out bytes : List UInt8} (hout : out.length ≤ maxBytes)
    (h : gatherChunks ends maxBytes out chunks = .ok bytes) : bytes.length ≤ maxBytes := by
  induction chunks generalizing out with
  | nil =>
    rw [gatherChunks] at h
    split at h
    · cases h
      exact hout
    · cases h
  | cons chunk chunks ih =>
    rw [gatherChunks] at h
    split at h
    · cases h
    · rename_i hfits
      exact ih (by rw [List.length_append]; omega) h

private theorem tryLz_bounded {sent : Option (List Char)} {next : Except DecodeError (List Char)} {text : List Char}
    (hnext : next = .ok text → (utf8 text).length ≤ maxBytes) (h : tryLz sent maxBytes next = .ok text) :
    (utf8 text).length ≤ maxBytes := by
  unfold tryLz at h
  split at h
  · exact hnext h
  · split at h
    · exact hnext h
    · exact decompress_bounded h

variable {gz : Gzip}

theorem decodePayload_bounded {payload : List UInt8} {hint : Option (List Char)} {text : List Char}
    (h : decodePayload gz payload hint maxBytes = .ok text) : (utf8 text).length ≤ maxBytes := by
  have hraw : rawText (unwrapBase64 payload) maxBytes = .ok text → (utf8 text).length ≤ maxBytes := fun hraw => by
    unfold rawText at hraw
    split at hraw
    · cases hraw
    · rw [utf8_of_ofUtf8 (orUndecodable_ok.mp hraw)]
      omega
  unfold decodePayload at h
  simp only at h
  split at h
  · obtain ⟨bytes, hbytes, htext⟩ := bind_ok.mp h
    rw [utf8_of_ofUtf8 (orUndecodable_ok.mp htext)]
    exact gatherChunks_bounded (Nat.zero_le _) hbytes
  split at h
  · exact tryLz_bounded (tryLz_bounded hraw) h
  · exact hraw h

/-- Whatever is sent, what comes out keeps within the limit. -/
theorem decodeLimited_bounded {body : List UInt8} {formEncoded : Bool} {hint : Option (List Char)} {text : List Char}
    (h : decodeLimited gz body formEncoded hint maxBytes = .ok text) : (utf8 text).length ≤ maxBytes := by
  unfold decodeLimited at h
  split at h
  · split at h
    · exact decodePayload_bounded h
    · exact decodePayload_bounded h
  · exact decodePayload_bounded h

end bound

section form

/-- Ways to write bytes in a form field: a byte stands for itself unless it means something there, or as an escape with
hexadecimal digits of either case; a space may be a plus sign. A careless client leaves plus signs as they are. -/
inductive PercentEncoded (careless : Bool) : List UInt8 → List UInt8 → Prop where
  | nil : PercentEncoded careless [] []
  | literal (b : UInt8) {bytes text : List UInt8} (hascii : b.toNat < 128) (hplain : b ≠ 37 ∧ b ≠ 38 ∧ b ≠ 43)
      (h : PercentEncoded careless bytes text) : PercentEncoded careless (b :: bytes) (b :: text)
  | escape (b high low : UInt8) {bytes text : List UInt8} (hhigh : hexValue high = some (b.toNat / 16))
      (hlow : hexValue low = some (b.toNat % 16)) (h : PercentEncoded careless bytes text) :
      PercentEncoded careless (b :: bytes) (37 :: high :: low :: text)
  | space {bytes text : List UInt8} (h : PercentEncoded careless bytes text) : PercentEncoded careless (32 :: bytes) (43 :: text)
  | plus (hcareless : careless = true) {bytes text : List UInt8} (h : PercentEncoded careless bytes text) :
      PercentEncoded careless (43 :: bytes) (43 :: text)

/-- A byte as a form's reader finds it: a plus sign that was left as it is comes out as a space. -/
def Found (careless : Bool) (b found : UInt8) : Prop := found = b ∨ careless = true ∧ b = 43 ∧ found = 32

private theorem percentDecode_cons {b : UInt8} (h : b ≠ 37) (rest : List UInt8) :
    percentDecode (b :: rest) = (percentDecode rest).map (b :: ·) := by
  match rest with
  | [] => rfl
  | [_] => rfl
  | high :: low :: rest =>
    rw [percentDecode, if_neg h]
    cases percentDecode (high :: low :: rest) with
    | none => rfl
    | some bytes => rfl

private theorem hexValue_ne {b : UInt8} {v : Nat} (h : hexValue b = some v) : b ≠ 43 ∧ b ≠ 38 ∧ b.toNat < 128 := by
  have hall := forall_uint8 (P := fun b => hexValue b ≠ none → b ≠ 43 ∧ b ≠ 38 ∧ b.toNat < 128) (by decide +kernel) b
  exact hall (h ▸ Option.some_ne_none v)

/-- A form's reader turns plus signs into spaces before it reads the escapes. -/
def spaced (text : List UInt8) : List UInt8 := text.map fun b => if b = 43 then 32 else b

theorem PercentEncoded.decode {careless : Bool} {bytes text : List UInt8} (h : PercentEncoded careless bytes text) :
    ∃ found, percentDecode (spaced text) = some found ∧ List.Forall₂ (Found careless) bytes found := by
  induction h with
  | nil => exact ⟨[], rfl, .nil⟩
  | literal b hascii hplain h ih =>
    obtain ⟨found, hfound, hall⟩ := ih
    refine ⟨b :: found, ?_, .cons (Or.inl rfl) hall⟩
    rw [spaced, List.map_cons, if_neg hplain.2.2, percentDecode_cons hplain.1]
    exact congrArg (Option.map (b :: ·)) hfound
  | escape b high low hhigh hlow h ih =>
    obtain ⟨found, hfound, hall⟩ := ih
    refine ⟨b :: found, ?_, .cons (Or.inl rfl) hall⟩
    have hbyte : hexByte high low = some b := by
      have hb := b.toNat_lt
      rw [hexByte, if_neg (hexValue_ne hhigh).1, hhigh, hlow]
      change some (UInt8.ofNat (b.toNat / 16 * 16 + b.toNat % 16)) = some b
      rw [show b.toNat / 16 * 16 + b.toNat % 16 = b.toNat by omega, UInt8.ofNat_toNat]
    rw [spaced, List.map_cons, List.map_cons, List.map_cons, if_neg (by decide), if_neg (hexValue_ne hhigh).1,
      if_neg (hexValue_ne hlow).1, percentDecode, if_pos rfl, hbyte]
    change ((percentDecode (spaced _)).bind fun rest => some (b :: rest)) = _
    rw [hfound]
    rfl
  | space h ih =>
    obtain ⟨found, hfound, hall⟩ := ih
    refine ⟨32 :: found, ?_, .cons (Or.inl rfl) hall⟩
    rw [spaced, List.map_cons, if_pos rfl, percentDecode_cons (by decide)]
    exact congrArg (Option.map (32 :: ·)) hfound
  | plus hcareless h ih =>
    obtain ⟨found, hfound, hall⟩ := ih
    refine ⟨32 :: found, ?_, .cons (Or.inr ⟨hcareless, rfl, rfl⟩) hall⟩
    rw [spaced, List.map_cons, if_pos rfl, percentDecode_cons (by decide)]
    exact congrArg (Option.map (32 :: ·)) hfound

/-- A field's text is ASCII and ends no pair. -/
theorem PercentEncoded.plain {careless : Bool} {bytes text : List UInt8} (h : PercentEncoded careless bytes text) :
    ∀ b ∈ text, b.toNat < 128 ∧ b ≠ 38 := by
  induction h with
  | nil => exact fun b hb => absurd hb List.not_mem_nil
  | literal b hascii hplain h ih => exact List.forall_mem_cons.mpr ⟨⟨hascii, hplain.2.1⟩, ih⟩
  | escape b high low hhigh hlow h ih =>
    refine List.forall_mem_cons.mpr ⟨by decide, List.forall_mem_cons.mpr ⟨?_, List.forall_mem_cons.mpr ⟨?_, ih⟩⟩⟩
    · exact ⟨(hexValue_ne hhigh).2.2, (hexValue_ne hhigh).2.1⟩
    · exact ⟨(hexValue_ne hlow).2.2, (hexValue_ne hlow).2.1⟩
  | space h ih => exact List.forall_mem_cons.mpr ⟨by decide, ih⟩
  | plus hcareless h ih => exact List.forall_mem_cons.mpr ⟨by decide, ih⟩

private theorem spaced_ascii {text : List UInt8} (h : ∀ b ∈ text, b.toNat < 128) : ∀ b ∈ spaced text, b.toNat < 128 := by
  intro b hb
  obtain ⟨a, ha, rfl⟩ := List.mem_map.mp hb
  split
  · decide
  · exact h a ha

private theorem map_asciiText {text : List UInt8} (h : ∀ b ∈ text, b.toNat < 128) :
    ((asciiText text).map fun c => if c = '+' then ' ' else c) = asciiText (spaced text) := by
  rw [asciiText, asciiText, spaced, List.map_map, List.map_map]
  refine List.map_congr_left fun b hb => ?_
  exact forall_uint8 (P := fun b => b.toNat < 128 →
    (if Char.ofNat b.toNat = '+' then ' ' else Char.ofNat b.toNat) = Char.ofNat (if b = 43 then 32 else b).toNat)
    (by decide +kernel) b (h b hb)

theorem urlencodingDecode_asciiText {text found : List UInt8} {data : List Char} (htext : ∀ b ∈ text, b.toNat < 128)
    (hfound : percentDecode (spaced text) = some found) (hdata : ofUtf8 found = some data) :
    urlencodingDecode (asciiText text) = .ok data := by
  change orUndecodable ((percentDecode (utf8 ((asciiText text).map fun c => if c = '+' then ' ' else c))).bind ofUtf8) = _
  rw [map_asciiText htext, utf8_asciiText (spaced_ascii htext), hfound]
  change orUndecodable (ofUtf8 found) = _
  rw [hdata]
  rfl

/-- A text that starts with a brace or a bracket keeps its spaces. -/
theorem restorePlus_json {text : List Char} (h : StartsJson text) : restorePlus text = text := by
  unfold restorePlus
  split
  · refine if_neg fun hlooks => ?_
    obtain ⟨b, rest, hbytes, hb⟩ := @StartsJson.bytes (text.map fun c => if c = ' ' then '+' else c) (by
      cases text with
      | nil => exact h
      | cons c text =>
        rcases h with h | h
        · cases h
          exact Or.inl rfl
        · cases h
          exact Or.inr rfl)
    have hdigit := ((looksLikeBase64_iff _).mp hlooks).2.2 b (by rw [hbytes]; exact List.mem_cons_self)
    rcases hb with rfl | rfl <;> cases hdigit
  · rfl

private theorem map_found {careless : Bool} {bytes found : List UInt8} (hdigits : Digits bytes)
    (hall : List.Forall₂ (Found careless) bytes found) :
    (∀ b ∈ found, b.toNat < 128) ∧ ((asciiText found).map fun c => if c = ' ' then '+' else c) = asciiText bytes := by
  induction hall with
  | nil => exact ⟨fun b hb => absurd hb List.not_mem_nil, rfl⟩
  | cons hfound hall ih =>
    rename_i b a bytes found
    obtain ⟨hascii, hmap⟩ := ih fun c hc => hdigits c (List.mem_cons_of_mem _ hc)
    have hb := hdigits b List.mem_cons_self
    have hkeep : Char.ofNat b.toNat ≠ ' ' :=
      forall_uint8 (P := fun b => Base64.isDigit b = true → Char.ofNat b.toNat ≠ ' ') (by decide +kernel) b hb
    rcases hfound with rfl | ⟨-, rfl, rfl⟩
    · refine ⟨List.forall_mem_cons.mpr ⟨isDigit_lt hb, hascii⟩, ?_⟩
      rw [asciiText, List.map_cons, List.map_cons, if_neg hkeep]
      exact congrArg (_ :: ·) hmap
    · refine ⟨List.forall_mem_cons.mpr ⟨by decide, hascii⟩, ?_⟩
      exact congrArg ('+' :: ·) hmap

/-- A text of base64 digits gets its plus signs back. -/
theorem restorePlus_digits {careless : Bool} {bytes found : List UInt8} (hlooks : looksLikeBase64 bytes = true)
    (hall : List.Forall₂ (Found careless) bytes found) :
    ofUtf8 found = some (asciiText found) ∧ restorePlus (asciiText found) = asciiText bytes := by
  have hdigits := ((looksLikeBase64_iff _).mp hlooks).2.2
  obtain ⟨hascii, hmap⟩ := map_found hdigits hall
  refine ⟨ofUtf8_asciiText hascii, ?_⟩
  unfold restorePlus
  by_cases hspace : ' ' ∈ asciiText found
  · rw [if_pos hspace]
    change (if looksLikeBase64 (utf8 ((asciiText found).map fun c => if c = ' ' then '+' else c)) = true then _ else _) = _
    rw [hmap, utf8_asciiText hdigits.ascii]
    exact if_pos hlooks
  · rw [if_neg hspace, ← hmap]
    conv_lhs => rw [← List.map_id (asciiText found)]
    refine List.map_congr_left fun c hc => ?_
    exact (if_neg fun heq => hspace (by rwa [heq] at hc)).symm

/-- The body of a form with the field, and perhaps a hint. -/
def formBody (field : List Char) (name : Option (List Char)) : List UInt8 :=
  utf8 ("data=".toList ++ field ++ match name with
    | some name => '&' :: "compression=".toList ++ name
    | none => [])

theorem parseForm_formBody {field data : List Char} (hfield : '&' ∉ field) (hdata : urlencodingDecode field = .ok data)
    {name : Option (List Char)} (hname : ∀ n ∈ name, '&' ∉ n) :
    parseForm (formBody field name) = .ok (utf8 (restorePlus data), name) := by
  have hpair : splitPair ("data=".toList ++ field) = ("data".toList, field) := rfl
  have hdataPair : '&' ∉ "data=".toList ++ field := by
    rw [List.mem_append]
    exact fun h => h.elim (by decide) hfield
  cases name with
  | none =>
    change parseForm (utf8 ("data=".toList ++ field ++ [])) = _
    rw [parseForm, ofUtf8_utf8, List.append_nil]
    change (formFields none none (("data=".toList ++ field).splitOn '&') >>= _) = _
    rw [List.splitOn_eq_singleton hdataPair, formFields, hpair]
    simp only [if_true, hdata]
    rfl
  | some name =>
    have hhint : splitPair ("compression=".toList ++ name) = ("compression".toList, name) := rfl
    have hhintPair : '&' ∉ "compression=".toList ++ name := by
      rw [List.mem_append]
      exact fun h => h.elim (by decide) (hname name rfl)
    change parseForm (utf8 ("data=".toList ++ field ++ '&' :: ("compression=".toList ++ name))) = _
    rw [parseForm, ofUtf8_utf8]
    change (formFields none none (("data=".toList ++ field ++ '&' :: ("compression=".toList ++ name)).splitOn '&') >>= _) = _
    rw [List.splitOn_append_cons_self_of_not_mem hdataPair, List.splitOn_eq_singleton hhintPair, formFields, hpair]
    simp only [if_true, hdata]
    change (formFields (some data) none ["compression=".toList ++ name] >>= _) = _
    rw [formFields, hhint]
    rfl

end form

section transports
variable (gz : Gzip)

/-- The forms of a text: its wrappings, and lz-string. -/
inductive Transport where
  | wrapped (w : Wrapping)
  | lz64
  deriving DecidableEq, Repr

def Transport.payload (text : List Char) : Transport → List UInt8
  | .wrapped w => w.body gz text
  | .lz64 => compressToBase64 (utf16 text)

/-- What an honest client sends: the payload as it is, or a payload that is text in a form field. The lz-string form
comes with its hint, in the query or in the form; the other forms do not. Plus signs are left as they are in base64
only. -/
inductive Sent (text : List Char) (t : Transport) : List UInt8 → Bool → Option (List Char) → Prop where
  | plain (hint : Option (List Char)) (hhint : isLzHint hint = decide (t = .lz64)) : Sent text t (t.payload gz text) false hint
  | form (hint name : Option (List Char)) (hhint : isLzHint (name.or hint) = decide (t = .lz64)) (hname : ∀ n ∈ name, '&' ∉ n)
      (htext : t ≠ .wrapped .gzip) (careless : Bool) (hcareless : careless = true → t ≠ .wrapped .raw) (field : List UInt8)
      (hfield : PercentEncoded careless (t.payload gz text) field) : Sent text t (formBody (asciiText field) name) true hint

variable {gz} {text : List Char} {maxBytes : Nat}

/-- The lz-string form is no gzip file, with or without a layer of base64 taken off. -/
private theorem lz64_not_magic {first : UInt8} {rest : List UInt8} (hfirst : Base64.value first = some 13) (hne : first ≠ 31) :
    ¬ gzipMagic.isPrefixOf (unwrapBase64 (first :: rest)) = true := by
  intro hmagic
  obtain ⟨tail, hmagic⟩ := List.isPrefixOf_iff_prefix.mp hmagic
  unfold unwrapBase64 at hmagic
  split at hmagic
  · cases hdecode : Base64.decode (first :: rest) with
    | none =>
      rw [hdecode] at hmagic
      exact hne (List.cons.inj hmagic).1.symm
    | some bytes =>
      obtain ⟨r, hr, others, rfl⟩ := Base64.decode_head hfirst hdecode
      rw [hdecode] at hmagic
      have hbyte := (List.cons.inj hmagic).1
      have hall : ∀ r : Fin 4, (31 : UInt8) ≠ UInt8.ofNat (13 * 4 + r.val) := by decide
      exact hall ⟨r, hr⟩ hbyte
  · exact hne (List.cons.inj hmagic).1.symm

/-- A JSON text's units start as its characters do. -/
private theorem StartsJson.units (h : StartsJson text) : ∃ unit rest, utf16 text = unit :: utf16 rest ∧ (unit = 123 ∨ unit = 91) := by
  cases text with
  | nil => rcases h with h | h <;> cases h
  | cons c text =>
    rcases h with h | h
    · cases h
      exact ⟨123, text, rfl, Or.inl rfl⟩
    · cases h
      exact ⟨91, text, rfl, Or.inr rfl⟩

theorem decodePayload_lz64 (hjson : StartsJson text) (hlen : (utf8 text).length ≤ maxBytes) (hmax : maxBytes ≤ 2 ^ 30)
    {hint : Option (List Char)} (hhint : isLzHint hint = true) :
    decodePayload gz (compressToBase64 (utf16 text)) hint maxBytes = .ok text := by
  have hdigits := compressToBase64_digits (utf16 text)
  have hnotMagic : ¬ gzipMagic.isPrefixOf (unwrapBase64 (compressToBase64 (utf16 text))) = true := by
    obtain ⟨unit, rest, hunits, hunit⟩ := hjson.units
    obtain ⟨tail, hhead⟩ := compressToBase64_head (utf16 rest) hunit
    rw [hunits, hhead]
    exact lz64_not_magic (Base64.value_digit 13 (by decide)) (by decide)
  have htext : text ≠ [] := by
    rintro rfl
    rcases hjson with h | h <;> cases h
  unfold decodePayload
  simp only [if_neg hnotMagic, hhint, if_true, ofUtf8_asciiText hdigits.ascii]
  exact tryLz_ok (decompress_compress htext hlen (hlen.trans hmax)) _

/-- A payload is decoded under the hint it is sent with. -/
theorem decodePayload_sent (hjson : StartsJson text) (hlen : (utf8 text).length ≤ maxBytes) (hgz : gz.ReadsBack (utf8 text))
    (t : Transport) (hmax : t = .lz64 → maxBytes ≤ 2 ^ 30) {hint : Option (List Char)} (hhint : isLzHint hint = decide (t = .lz64)) :
    decodePayload gz (t.payload gz text) hint maxBytes = .ok text := by
  obtain ⟨b, rest, hbytes, -⟩ := hjson.bytes
  obtain ⟨packed, hpacked⟩ := hgz.magic
  cases t with
  | lz64 => exact decodePayload_lz64 hjson hlen (hmax rfl) (hhint.trans (decide_eq_true rfl))
  | wrapped w =>
    cases w with
    | raw => exact decodePayload_raw hjson hlen hint
    | gzip =>
      have hunwrap : unwrapBase64 (gz.encode (utf8 text)) = gz.encode (utf8 text) := hpacked ▸ unwrapBase64_of_head (by decide)
      exact decodePayload_gzip hgz hlen hunwrap hint
    | base64 =>
      have hne : utf8 text ≠ [] := hbytes ▸ List.cons_ne_nil b rest
      exact decodePayload_text hjson hlen (unwrapBase64_encode hne) (hhint.trans (decide_eq_false (by decide)))
    | base64Gzip =>
      have hne : gz.encode (utf8 text) ≠ [] := hpacked ▸ List.cons_ne_nil _ _
      exact decodePayload_gzip hgz hlen (unwrapBase64_encode hne) hint

private theorem found_exact {bytes found : List UInt8} (h : List.Forall₂ (Found false) bytes found) : found = bytes := by
  induction h with
  | nil => rfl
  | cons hfound _ ih =>
    rcases hfound with rfl | ⟨hcareless, -⟩
    · rw [ih]
    · cases hcareless

/-- A form's reader finds the payload in the field. -/
theorem parseForm_sent (hjson : StartsJson text) (hgz : gz.ReadsBack (utf8 text)) {t : Transport} (htext : t ≠ .wrapped .gzip)
    {careless : Bool} (hcareless : careless = true → t ≠ .wrapped .raw) {field : List UInt8}
    (hfield : PercentEncoded careless (t.payload gz text) field) {name : Option (List Char)} (hname : ∀ n ∈ name, '&' ∉ n) :
    parseForm (formBody (asciiText field) name) = .ok (t.payload gz text, name) := by
  obtain ⟨found, hfound, hall⟩ := hfield.decode
  have hplain : '&' ∉ asciiText field := fun hmem => by
    obtain ⟨b, hb, hamp⟩ := List.mem_map.mp hmem
    exact forall_uint8 (P := fun b => b.toNat < 128 ∧ b ≠ 38 → Char.ofNat b.toNat ≠ '&') (by decide +kernel) b
      (hfield.plain b hb) hamp
  have hascii : ∀ b ∈ field, b.toNat < 128 := fun b hb => (hfield.plain b hb).1
  have hdigits (hlooks : looksLikeBase64 (t.payload gz text) = true) :
      parseForm (formBody (asciiText field) name) = .ok (t.payload gz text, name) := by
    obtain ⟨hdata, hrestored⟩ := restorePlus_digits hlooks hall
    rw [parseForm_formBody hplain (urlencodingDecode_asciiText hascii hfound hdata) hname, hrestored,
      utf8_asciiText ((looksLikeBase64_iff _).mp hlooks).2.2.ascii]
  cases t with
  | lz64 => exact hdigits (looksLikeBase64_compress _)
  | wrapped w =>
    cases w with
    | raw =>
      cases careless with
      | true => exact absurd rfl (hcareless rfl)
      | false =>
        rw [found_exact hall] at hfound
        rw [parseForm_formBody hplain (urlencodingDecode_asciiText hascii hfound (ofUtf8_utf8 text)) hname, restorePlus_json hjson]
        rfl
    | gzip => exact absurd rfl htext
    | base64 =>
      obtain ⟨b, rest, hbytes, -⟩ := hjson.bytes
      exact hdigits (looksLikeBase64_encode (hbytes ▸ List.cons_ne_nil b rest))
    | base64Gzip =>
      obtain ⟨packed, hpacked⟩ := hgz.magic
      exact hdigits (looksLikeBase64_encode (hpacked ▸ List.cons_ne_nil _ _))

/-- Every honest transport of a JSON text is decoded to the text, and whatever is sent, what is decoded keeps within
the limit. No limit of the callers is past what the lz-string form needs. -/
theorem transports_round_trip (gz : Gzip) (maxBytes : Nat) :
    (∀ text, StartsJson text → (utf8 text).length ≤ maxBytes → gz.ReadsBack (utf8 text) →
      ∀ t, (t = .lz64 → maxBytes ≤ 2 ^ 30) → ∀ body formEncoded hint, Sent gz text t body formEncoded hint →
        decodeLimited gz body formEncoded hint maxBytes = .ok text) ∧
      ∀ body formEncoded hint text, decodeLimited gz body formEncoded hint maxBytes = .ok text →
        (utf8 text).length ≤ maxBytes := by
  refine ⟨fun text hjson hlen hgz t hmax body formEncoded hint hsent => ?_, fun _ _ _ _ => decodeLimited_bounded⟩
  cases hsent with
  | plain _ hhint => exact decodePayload_sent hjson hlen hgz t hmax hhint
  | form _ name hhint hname htext careless hcareless field hfield =>
    rw [decodeLimited, if_pos rfl, parseForm_sent hjson hgz htext hcareless hfield hname]
    exact decodePayload_sent hjson hlen hgz t hmax hhint

theorem emptyObject_lz64 :
    decodeLimited sampleGzip (compressToBase64 (utf16 emptyObject)) false (some "lz64".toList) 64 = .ok emptyObject :=
  (transports_round_trip sampleGzip 64).1 emptyObject (Or.inl rfl) (by decide) sampleGzip_readsBack .lz64 (fun _ => by decide)
    (compressToBase64 (utf16 emptyObject)) false (some "lz64".toList) (.plain _ (by decide))

end transports
end Hoglet.Capture
