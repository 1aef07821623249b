import Hoglet.Capture.Sniffing

/-! What a lying hint or content type does to a payload: which bodies still decode to the text they were made of. -/
namespace Hoglet.Capture
open Json Lz

section lengths

private theorem length_utf8_map {f : Char → Char}
    (h : ∀ c, (String.utf8EncodeChar (f c)).length = (String.utf8EncodeChar c).length) (text : List Char) :
    (utf8 (text.map f)).length = (utf8 text).length := by
  induction text with
  | nil => rfl
  | cons c text ih =>
    rw [List.map_cons, utf8, List.flatMap_cons, List.length_append, h c]
    change _ + (utf8 (text.map f)).length = (utf8 ([c] ++ text)).length
    rw [ih, length_utf8_append]
    simp [utf8]

/-- Spaces and plus signs take one byte each. -/
private theorem length_swapped {a b : Char} (h : (String.utf8EncodeChar a).length = (String.utf8EncodeChar b).length)
    (text : List Char) : (utf8 (text.map fun c => if c = a then b else c)).length = (utf8 text).length := by
  refine length_utf8_map (fun c => ?_) text
  split
  · rename_i hc
    rw [hc, h]
  · rfl

private theorem length_percentDecode {bytes out : List UInt8} (h : percentDecode bytes = some out) :
    out.length ≤ bytes.length := by
  induction bytes using percentDecode.induct generalizing out with
  | case1 high low rest ih =>
    rw [percentDecode, if_pos rfl] at h
    simp only [Option.bind_eq_bind, Option.bind_eq_some_iff, Option.pure_def, Option.some.injEq] at h
    obtain ⟨b, -, decoded, hdecoded, rfl⟩ := h
    have := ih hdecoded
    simp only [List.length_cons]
    omega
  | case2 b high low rest hne ih =>
    rw [percentDecode, if_neg hne] at h
    simp only [Option.bind_eq_bind, Option.bind_eq_some_iff, Option.pure_def, Option.some.injEq] at h
    obtain ⟨decoded, hdecoded, rfl⟩ := h
    exact Nat.succ_le_succ (ih hdecoded)
  | case3 bytes hshort =>
    unfold percentDecode at h
    split at h
    · exact absurd rfl (hshort _ _ _ _)
    · cases h
      exact le_refl _

private theorem length_urlencodingDecode {value data : List Char} (h : urlencodingDecode value = .ok data) :
    (utf8 data).length ≤ (utf8 value).length := by
  obtain ⟨out, hout, htext⟩ := Option.bind_eq_some_iff.mp (orUndecodable_ok.mp h)
  rw [utf8_of_ofUtf8 htext, ← length_swapped (a := '+') (b := ' ') rfl value]
  exact length_percentDecode hout

private theorem length_restorePlus (data : List Char) : (utf8 (restorePlus data)).length = (utf8 data).length := by
  unfold restorePlus
  by_cases hspace : ' ' ∈ data
  · rw [if_pos hspace]
    change (utf8 (if _ then data.map _ else data)).length = _
    split
    · exact length_swapped (a := ' ') (b := '+') rfl data
    · rfl
  · rw [if_neg hspace]

private theorem utf8_ne_nil {text : List Char} (h : text ≠ []) : 0 < (utf8 text).length := by
  obtain ⟨c, text, rfl⟩ := List.exists_cons_of_ne_nil h
  rw [← List.singleton_append, length_utf8_append]
  have := c.utf8Size_pos
  have hc : (utf8 [c]).length = c.utf8Size := by simp [utf8]
  omega

/-- The value of a pair with a key is shorter than the pair. -/
private theorem length_splitPair {pair : List Char} (h : (splitPair pair).1 ≠ []) :
    (utf8 (splitPair pair).2).length < (utf8 pair).length := by
  have hkey := utf8_ne_nil h
  have hpair : (utf8 pair).length = (utf8 (splitPair pair).1).length + (utf8 (pair.dropWhile (· ≠ '='))).length := by
    rw [← length_utf8_append, splitPair, List.takeWhile_append_dropWhile]
  have htail : (utf8 (splitPair pair).2).length ≤ (utf8 (pair.dropWhile (· ≠ '='))).length := by
    rw [splitPair]
    cases pair.dropWhile (· ≠ '=') with
    | nil => exact le_refl _
    | cons c rest =>
      rw [← List.singleton_append, length_utf8_append]
      exact Nat.le_add_left _ _
  omega

/-- A form's data field is one of its pairs. -/
private theorem formFields_data {pairs : List (List Char)} {data hint hint' : Option (List Char)} {found : List Char}
    (h : formFields data hint pairs = .ok (some found, hint')) :
    data = some found ∨ ∃ pair ∈ pairs, (splitPair pair).1 = "data".toList ∧ urlencodingDecode (splitPair pair).2 = .ok found := by
  have hlater {pair : List Char} {pairs : List (List Char)}
      (h : ∃ p ∈ pairs, (splitPair p).1 = "data".toList ∧ urlencodingDecode (splitPair p).2 = .ok found) :
      ∃ p ∈ pair :: pairs, (splitPair p).1 = "data".toList ∧ urlencodingDecode (splitPair p).2 = .ok found := by
    obtain ⟨p, hp, hfound⟩ := h
    exact ⟨p, List.mem_cons_of_mem _ hp, hfound⟩
  induction pairs generalizing data hint with
  | nil =>
    cases h
    exact Or.inl rfl
  | cons pair pairs ih =>
    change (if (splitPair pair).1 = "data".toList then _ else _) = _ at h
    by_cases hkey : (splitPair pair).1 = "data".toList
    · rw [if_pos hkey] at h
      obtain ⟨decoded, hdecoded, h⟩ := bind_ok.mp h
      rcases ih h with hsame | hin
      · cases hsame
        exact Or.inr ⟨pair, List.mem_cons_self, hkey, hdecoded⟩
      · exact Or.inr (hlater hin)
    · rw [if_neg hkey] at h
      split at h
      · exact (ih h).imp_right hlater
      · exact (ih h).imp_right hlater

private theorem length_le_intercalate (pairs : List (List Char)) : ∀ pair ∈ pairs,
    (utf8 pair).length ≤ (utf8 (['&'].intercalate pairs)).length := by
  induction pairs with
  | nil => exact fun pair hpair => absurd hpair List.not_mem_nil
  | cons first rest ih =>
    intro pair hpair
    cases rest with
    | nil =>
      rw [List.mem_singleton.mp hpair, List.intercalate_singleton]
    | cons second rest =>
      rw [List.intercalate_cons_cons, length_utf8_append, length_utf8_append]
      rcases List.mem_cons.mp hpair with rfl | hpair
      · omega
      · have := ih pair hpair
        omega

/-- A form's data field is text. -/
theorem parseForm_text {body data : List UInt8} {hint : Option (List Char)} (h : parseForm body = .ok (data, hint)) :
    ∃ sent, ofUtf8 data = some sent := by
  obtain ⟨text, -, h⟩ := bind_ok.mp h
  obtain ⟨⟨found, hint'⟩, -, h⟩ := bind_ok.mp h
  obtain ⟨field, -, h⟩ := bind_ok.mp h
  cases h
  exact ⟨_, ofUtf8_utf8 _⟩

/-- What a form's data field holds is shorter than the form. -/
theorem parseForm_shorter {body data : List UInt8} {hint : Option (List Char)} (h : parseForm body = .ok (data, hint)) :
    data.length < body.length := by
  obtain ⟨text, htext, h⟩ := bind_ok.mp h
  obtain ⟨⟨found, hint'⟩, hfields, h⟩ := bind_ok.mp h
  obtain ⟨field, hfield, h⟩ := bind_ok.mp h
  cases h
  rw [orUndecodable_ok] at htext hfield
  change found = some field at hfield
  subst hfield
  obtain ⟨pair, hpair, hkey, hdecoded⟩ := (formFields_data hfields).resolve_left (fun h => (by cases h))
  have hvalue := length_urlencodingDecode hdecoded
  have hpairLength := @length_splitPair pair (by rw [hkey]; decide)
  have htextLength := length_le_intercalate _ pair hpair
  rw [List.intercalate_splitOn, utf8_of_ofUtf8 htext] at htextLength
  rw [length_restorePlus]
  omega

theorem length_unwrapBase64 (payload : List UInt8) : (unwrapBase64 payload).length ≤ payload.length := by
  unfold unwrapBase64
  split
  · cases hdecode : Base64.decode payload with
    | none => exact le_refl _
    | some bytes => exact Base64.length_decode hdecode
  · exact le_refl _

end lengths

/-- A text that starts as a JSON object or list does. -/
def StartsJson (text : List Char) : Prop := text.head? = some '{' ∨ text.head? = some '['

/-- What a text is wrapped in, lz-string apart. -/
inductive Wrapping where
  | raw | gzip | base64 | base64Gzip
  deriving DecidableEq, Repr

section wrappings
variable (gz : Gzip)

def Wrapping.body (text : List Char) : Wrapping → List UInt8
  | .raw => utf8 text
  | .gzip => gz.encode (utf8 text)
  | .base64 => Base64.encode (utf8 text)
  | .base64Gzip => Base64.encode (gz.encode (utf8 text))

/-- A text's first byte: an opening brace or bracket. -/
theorem StartsJson.bytes {text : List Char} (h : StartsJson text) :
    ∃ b rest, utf8 text = b :: rest ∧ (b = 123 ∨ b = 91) := by
  cases text with
  | nil => rcases h with h | h <;> cases h
  | cons c text =>
    rcases h with h | h
    · cases h
      exact ⟨123, utf8 text, rfl, Or.inl rfl⟩
    · cases h
      exact ⟨91, utf8 text, rfl, Or.inr rfl⟩

theorem StartsJson.not_magic {text : List Char} (h : StartsJson text) : ¬ gzipMagic.isPrefixOf (utf8 text) = true := by
  obtain ⟨b, rest, hbytes, hb⟩ := h.bytes
  rw [hbytes]
  rcases hb with rfl | rfl
  · exact Bool.false_ne_true
  · exact Bool.false_ne_true

theorem StartsJson.unwrap {text : List Char} (h : StartsJson text) : unwrapBase64 (utf8 text) = utf8 text := by
  obtain ⟨b, rest, hbytes, hb⟩ := h.bytes
  rw [hbytes]
  rcases hb with rfl | rfl
  · exact unwrapBase64_of_head (by decide)
  · exact unwrapBase64_of_head (by decide)

theorem StartsJson.decompress {text : List Char} (h : StartsJson text) (maxBytes : Nat) :
    decompressLz64Bounded text maxBytes = .error .undecodable := by
  cases text with
  | nil => rcases h with h | h <;> cases h
  | cons c text =>
    rcases h with h | h
    · cases h
      exact decompress_not_key (by decide) (by decide) maxBytes
    · cases h
      exact decompress_not_key (by decide) (by decide) maxBytes

theorem rawText_utf8 {text : List Char} {maxBytes : Nat} (h : (utf8 text).length ≤ maxBytes) :
    rawText (utf8 text) maxBytes = .ok text := by
  rw [rawText, if_neg (Nat.not_lt.mpr h), ofUtf8_utf8]
  rfl

private theorem gatherChunks_ok {maxBytes : Nat} (chunks : List (List UInt8)) (out : List UInt8)
    (h : out.length + chunks.flatten.length ≤ maxBytes) :
    gatherChunks true maxBytes out chunks = .ok (out ++ chunks.flatten) := by
  induction chunks generalizing out with
  | nil => exact congrArg Except.ok (List.append_nil out).symm
  | cons chunk chunks ih =>
    rw [List.flatten_cons, List.length_append] at h
    rw [gatherChunks, if_neg (by omega), ih _ (by rw [List.length_append]; omega), List.flatten_cons, List.append_assoc]

theorem tryLz_undecodable {text : List Char} {maxBytes : Nat} (h : decompressLz64Bounded text maxBytes = .error .undecodable)
    (next : Except DecodeError (List Char)) : tryLz (some text) maxBytes next = next := by
  rw [tryLz, h]

theorem tryLz_ok {text answer : List Char} {maxBytes : Nat} (h : decompressLz64Bounded text maxBytes = .ok answer)
    (next : Except DecodeError (List Char)) : tryLz (some text) maxBytes next = .ok answer := by
  rw [tryLz, h]

variable {gz}

theorem Gzip.ReadsBack.gunzip {bytes : List UInt8} (h : gz.ReadsBack bytes) {maxBytes : Nat} (hlen : bytes.length ≤ maxBytes) :
    gunzipBounded gz (gz.encode bytes) maxBytes = .ok bytes := by
  change gatherChunks (gz.read (gz.encode bytes)).ends maxBytes [] (gz.read (gz.encode bytes)).chunks = _
  rw [h.ends, gatherChunks_ok _ [] (by rw [h.chunks]; exact (Nat.zero_add _).le.trans hlen), h.chunks]
  rfl

variable {text : List Char} {maxBytes : Nat}

/-- Gzip wins over any hint. -/
theorem decodePayload_gzip (hgz : gz.ReadsBack (utf8 text)) (hlen : (utf8 text).length ≤ maxBytes) {payload : List UInt8}
    (hunwrap : unwrapBase64 payload = gz.encode (utf8 text)) (hint : Option (List Char)) :
    decodePayload gz payload hint maxBytes = .ok text := by
  have hmagic : gzipMagic.isPrefixOf (gz.encode (utf8 text)) = true := List.isPrefixOf_iff_prefix.mpr hgz.magic
  rw [decodePayload, hunwrap]
  simp only [if_pos hmagic, hgz.gunzip hlen]
  change orUndecodable (ofUtf8 (utf8 text)) = _
  rw [ofUtf8_utf8]
  rfl

/-- Without an lz-string hint a text comes through one layer of base64 or none. -/
theorem decodePayload_text (hjson : StartsJson text) (hlen : (utf8 text).length ≤ maxBytes) {payload : List UInt8}
    (hunwrap : unwrapBase64 payload = utf8 text) {hint : Option (List Char)} (hhint : isLzHint hint = false) :
    decodePayload gz payload hint maxBytes = .ok text := by
  rw [decodePayload, hunwrap]
  simp only [if_neg hjson.not_magic, hhint, Bool.false_eq_true, if_false]
  exact rawText_utf8 hlen

/-- The lz-string route leaves a raw text alone. -/
theorem decodePayload_raw (hjson : StartsJson text) (hlen : (utf8 text).length ≤ maxBytes) (hint : Option (List Char)) :
    decodePayload gz (utf8 text) hint maxBytes = .ok text := by
  cases hhint : isLzHint hint with
  | false => exact decodePayload_text hjson hlen hjson.unwrap hhint
  | true =>
    rw [decodePayload, hjson.unwrap]
    simp only [if_neg hjson.not_magic, hhint, if_true, ofUtf8_utf8]
    have hsame : (some text).filter (fun t => decide (some text ≠ some t)) = none := by simp
    rw [hsame, tryLz_undecodable (hjson.decompress maxBytes)]
    exact rawText_utf8 hlen

/-- Under an lz-string hint a text's base64 form reads as an empty lz-string. -/
theorem decodePayload_base64 (hjson : StartsJson text) {hint : Option (List Char)} (hhint : isLzHint hint = true) :
    decodePayload gz (Base64.encode (utf8 text)) hint maxBytes = .ok [] := by
  obtain ⟨b, rest, hbytes, hb⟩ := hjson.bytes
  obtain ⟨tail, htail⟩ := Base64.encode_head b rest
  have hdigits : Digits (Base64.digit (b.toNat / 4) :: tail) := htail ▸ Base64.encode_digits (b :: rest)
  have hunwrap : unwrapBase64 (Base64.encode (utf8 text)) = utf8 text :=
    unwrapBase64_encode (by rw [hbytes]; exact List.cons_ne_nil _ _)
  rw [decodePayload, hunwrap]
  simp only [if_neg hjson.not_magic, hhint, if_true]
  rw [hbytes, htail, ofUtf8_asciiText hdigits.ascii]
  have hclosing : decompressLz64Bounded (asciiText (Base64.digit (b.toNat / 4) :: tail)) maxBytes = .ok [] := by
    rcases hb with rfl | rfl
    · exact decompress_closing hdigits (Base64.value_digit 30 (by decide)) (by decide) (by decide) maxBytes
    · exact decompress_closing hdigits (Base64.value_digit 22 (by decide)) (by decide) (by decide) maxBytes
  exact tryLz_ok hclosing _

/-- A form's field that is not gzip and goes through no lz-string route: what it decodes to is shorter than the form. -/
private theorem rawText_ne {payload : List UInt8} (h : payload.length < (utf8 text).length) : rawText payload maxBytes ≠ .ok text := by
  intro hraw
  unfold rawText at hraw
  split at hraw
  · cases hraw
  · rw [← utf8_of_ofUtf8 (orUndecodable_ok.mp hraw)] at h
    exact lt_irrefl _ h

end wrappings

section lies
variable (gz : Gzip) (maxBytes : Nat)

/-- A payload that is a compressed form of the text: gzip, or lz-string under its hint, in a layer of base64 or none. -/
def CompressedForm (payload : List UInt8) (hint : Option (List Char)) (text : List Char) : Prop :=
  if gzipMagic.isPrefixOf (unwrapBase64 payload) then gunzipBounded gz (unwrapBase64 payload) maxBytes = .ok (utf8 text)
  else isLzHint hint = true ∧ ∃ sent, ofUtf8 payload = some sent ∧ (decompressLz64Bounded sent maxBytes = .ok text ∨
    decompressLz64Bounded sent maxBytes = .error .undecodable ∧
      ∃ inner, ofUtf8 (unwrapBase64 payload) = some inner ∧ inner ≠ sent ∧ decompressLz64Bounded inner maxBytes = .ok text)

/-- What a text's body may be sent under without being misread. A raw body that a form parser finds a data field in is
read as that field, which is the text itself only where it is a compressed form of the text that contains it. -/
def ReadsRight (text : List Char) (formEncoded : Bool) (hint : Option (List Char)) : Wrapping → Prop
  | .gzip | .base64Gzip => True
  | .base64 => isLzHint hint = false
  | .raw => formEncoded = true → ∀ data formHint, parseForm (utf8 text) = .ok (data, formHint) →
      CompressedForm gz maxBytes data (formHint.or hint) text

private theorem tryLz_some_iff {sent text : List Char} {next : Except DecodeError (List Char)} :
    tryLz (some sent) maxBytes next = .ok text ↔ decompressLz64Bounded sent maxBytes = .ok text ∨
      decompressLz64Bounded sent maxBytes = .error .undecodable ∧ next = .ok text := by
  rw [tryLz]
  cases decompressLz64Bounded sent maxBytes with
  | ok answer => simp
  | error e => cases e <;> simp

private theorem tryLz_filter_iff {inner : Option (List Char)} {sent text : List Char} {next : Except DecodeError (List Char)}
    (hnext : next ≠ .ok text) :
    tryLz (inner.filter fun t => some sent ≠ some t) maxBytes next = .ok text ↔
      ∃ t, inner = some t ∧ t ≠ sent ∧ decompressLz64Bounded t maxBytes = .ok text := by
  cases inner with
  | none => exact ⟨fun h => absurd h hnext, fun ⟨t, ht, _⟩ => by cases ht⟩
  | some t =>
    by_cases heq : t = sent
    · subst heq
      have hnone : (some t).filter (fun t' => decide (some t ≠ some t')) = none := by simp
      rw [hnone]
      exact ⟨fun h => absurd h hnext, fun ⟨t', ht, hne, _⟩ => absurd (Option.some.inj ht).symm hne⟩
    · have hsome : (some t).filter (fun t' => decide (some sent ≠ some t')) = some t := by simp [Ne.symm heq]
      rw [hsome, tryLz_some_iff, or_iff_left fun h => hnext h.2]
      exact ⟨fun h => ⟨t, rfl, heq, h⟩, fun ⟨t', ht, _, h⟩ => (Option.some.inj ht) ▸ h⟩

/-- A field shorter than the text decodes to it only as a compressed form of it. -/
private theorem decodePayload_field {text sent : List Char} {data : List UInt8} (hlt : data.length < (utf8 text).length)
    (hsent : ofUtf8 data = some sent) (hint : Option (List Char)) :
    decodePayload gz data hint maxBytes = .ok text ↔ CompressedForm gz maxBytes data hint text := by
  have hraw : rawText (unwrapBase64 data) maxBytes ≠ .ok text := rawText_ne ((length_unwrapBase64 data).trans_lt hlt)
  unfold decodePayload CompressedForm
  simp only
  by_cases hmagic : gzipMagic.isPrefixOf (unwrapBase64 data) = true
  · rw [if_pos hmagic, if_pos hmagic]
    constructor
    · intro h
      obtain ⟨bytes, hbytes, htext⟩ := bind_ok.mp h
      rw [utf8_of_ofUtf8 (orUndecodable_ok.mp htext), hbytes]
    · intro h
      exact bind_ok.mpr ⟨_, h, orUndecodable_ok.mpr (ofUtf8_utf8 text)⟩
  · rw [if_neg hmagic, if_neg hmagic]
    cases hhint : isLzHint hint with
    | false => exact ⟨fun h => absurd h hraw, fun h => absurd h.1 Bool.false_ne_true⟩
    | true =>
      simp only [if_true, hsent]
      rw [tryLz_some_iff, tryLz_filter_iff maxBytes hraw]
      simp only [true_and, Option.some.injEq, exists_eq_left']

private theorem parseForm_gzip {bytes : List UInt8} (h : gzipMagic <+: bytes) : parseForm bytes = .error .undecodable := by
  rw [parseForm, ofUtf8_gzipMagic h]
  rfl

/-- Base64 of bytes whose first character does not start the data key is no form. -/
private theorem parseForm_encode {b : UInt8} (rest : List UInt8) (h : Base64.digit (b.toNat / 4) ≠ 100) :
    parseForm (Base64.encode (b :: rest)) = .error .undecodable := by
  obtain ⟨tail, htail⟩ := Base64.encode_head b rest
  have hdigits : Digits (Base64.digit (b.toNat / 4) :: tail) := htail ▸ Base64.encode_digits (b :: rest)
  rw [htail]
  exact parseForm_digits hdigits h

private theorem decodeLimited_noForm {body : List UInt8} {e : DecodeError} (h : parseForm body = .error e) (formEncoded : Bool)
    (hint : Option (List Char)) : decodeLimited gz body formEncoded hint maxBytes = decodePayload gz body hint maxBytes := by
  rw [decodeLimited, h]
  exact ite_self _

/-- A body decodes to the text it was made of, under any hint and either content type, exactly when it may be sent
so. -/
theorem wrapping_decodes_iff (text : List Char) (hjson : StartsJson text) (hlen : (utf8 text).length ≤ maxBytes)
    (hgz : gz.ReadsBack (utf8 text)) (w : Wrapping) (formEncoded : Bool) (hint : Option (List Char)) :
    decodeLimited gz (w.body gz text) formEncoded hint maxBytes = .ok text ↔ ReadsRight gz maxBytes text formEncoded hint w := by
  obtain ⟨b, rest, hbytes, hb⟩ := hjson.bytes
  obtain ⟨packed, hpacked⟩ := hgz.magic
  cases w with
  | raw =>
    change decodeLimited gz (utf8 text) formEncoded hint maxBytes = _ ↔ (formEncoded = true → _)
    cases formEncoded with
    | false => exact ⟨fun _ h => absurd h Bool.false_ne_true, fun _ => decodePayload_raw hjson hlen hint⟩
    | true =>
      cases hform : parseForm (utf8 text) with
      | error e =>
        rw [decodeLimited_noForm gz maxBytes hform]
        exact ⟨fun _ _ _ _ h => (by cases h), fun _ => decodePayload_raw hjson hlen hint⟩
      | ok field =>
        obtain ⟨data, formHint⟩ := field
        obtain ⟨sent, hsent⟩ := parseForm_text hform
        rw [decodeLimited, if_pos rfl, hform]
        simp only [decodePayload_field gz maxBytes (parseForm_shorter hform) hsent, Except.ok.injEq, Prod.mk.injEq, true_imp_iff]
        exact ⟨fun h _ _ heq => heq.1 ▸ heq.2 ▸ h, fun h => h _ _ ⟨rfl, rfl⟩⟩
  | gzip =>
    refine iff_of_true ?_ trivial
    change decodeLimited gz (gz.encode (utf8 text)) formEncoded hint maxBytes = _
    rw [decodeLimited_noForm gz maxBytes (parseForm_gzip hgz.magic)]
    exact decodePayload_gzip hgz hlen (hpacked ▸ unwrapBase64_of_head (by decide)) hint
  | base64 =>
    have hform : parseForm (Base64.encode (utf8 text)) = .error .undecodable := by
      rw [hbytes]
      rcases hb with rfl | rfl
      · exact parseForm_encode rest (by decide)
      · exact parseForm_encode rest (by decide)
    change decodeLimited gz (Base64.encode (utf8 text)) formEncoded hint maxBytes = _ ↔ isLzHint hint = false
    rw [decodeLimited_noForm gz maxBytes hform]
    cases hhint : isLzHint hint with
    | false =>
      have hne : utf8 text ≠ [] := hbytes ▸ List.cons_ne_nil b rest
      exact iff_of_true (decodePayload_text hjson hlen (unwrapBase64_encode hne) hhint) rfl
    | true =>
      rw [decodePayload_base64 hjson hhint]
      refine iff_of_false (fun h => ?_) Bool.false_ne_true.symm
      rw [← Except.ok.inj h] at hbytes
      cases hbytes
  | base64Gzip =>
    refine iff_of_true ?_ trivial
    have hform : parseForm (Base64.encode (gz.encode (utf8 text))) = .error .undecodable := by
      rw [← hpacked]
      exact parseForm_encode _ (by decide)
    change decodeLimited gz (Base64.encode (gz.encode (utf8 text))) formEncoded hint maxBytes = _
    rw [decodeLimited_noForm gz maxBytes hform]
    exact decodePayload_gzip hgz hlen (unwrapBase64_encode (hpacked ▸ List.cons_ne_nil _ _)) hint

end lies

def emptyObject : List Char := ['{', '}']

/-- The gzip file of the empty object. -/
def emptyObjectGzip : List UInt8 :=
  [0x1f, 0x8b, 0x08, 0x00, 0x00, 0x00, 0x00, 0x00, 0x00, 0xff, 0xab, 0xae, 0x05, 0x00, 0x43, 0xbf, 0xa6, 0xa3, 0x02, 0x00, 0x00, 0x00]

/-- A gzip library that knows one file. -/
def sampleGzip : Gzip where
  encode _ := emptyObjectGzip
  read payload := if payload = emptyObjectGzip then ⟨[utf8 emptyObject], true⟩ else ⟨[], false⟩

theorem sampleGzip_readsBack : sampleGzip.ReadsBack (utf8 emptyObject) where
  magic := ⟨_, rfl⟩
  chunks := rfl
  ends := rfl

theorem emptyObject_lying_form : decodeLimited sampleGzip (Wrapping.base64.body sampleGzip emptyObject) true none 64 = .ok emptyObject :=
  (wrapping_decodes_iff sampleGzip 64 emptyObject (Or.inl rfl) (by decide) sampleGzip_readsBack .base64 true none).mpr rfl

theorem emptyObject_lying_hint : ¬ ∀ w formEncoded hint,
    decodeLimited sampleGzip (Wrapping.body sampleGzip emptyObject w) formEncoded hint 64 = .ok emptyObject := by
  intro h
  have hread : decodeLimited sampleGzip (Wrapping.base64.body sampleGzip emptyObject) false (some "lz64".toList) 64 = .ok [] := by
    change decodePayload sampleGzip (Base64.encode (utf8 emptyObject)) (some "lz64".toList) 64 = .ok []
    exact decodePayload_base64 (Or.inl rfl) (by decide)
  have := (h .base64 false (some "lz64".toList)).symm.trans hread
  cases this

end Hoglet.Capture
