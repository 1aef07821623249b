import Hoglet.Capture.Transports

/-! The lz-string reader at its limit: it gives back exactly what was written or refuses it as too large, and nothing that it
reads is past what is there. -/
namespace Hoglet.Capture.Lz
open Json
variable {maxBytes : Nat}

/-! A text that does not fit. -/
section overrun
variable {known : List (List Nat)} {e e' : Encoder} {d counted : Decoder} {tail : List Bool}

theorem append_utf16_tooLarge {o : Utf16Output} (hpending : o.pendingHighSurrogate = none) (text : List Char)
    (hfits : (utf8 o.text).length ≤ o.maximumBytes) (hlen : o.maximumBytes < (utf8 o.text).length + (utf8 text).length) :
    o.append (utf16 text) = .error .tooLarge := by
  induction text generalizing o with
  | nil => exact absurd hfits (Nat.not_le.mpr hlen)
  | cons c text ih =>
    rw [length_utf8_cons] at hlen
    rw [utf16, List.flatMap_cons, append_append, append_char hpending, Utf16Output.put]
    by_cases hc : o.maximumBytes < (utf8 o.text).length + c.utf8Size
    · rw [if_pos hc]
      rfl
    · rw [if_neg hc]
      refine @ih { o with text := o.text ++ [c], pendingHighSurrogate := none } rfl ?_ ?_
      · change (utf8 (o.text ++ [c])).length ≤ o.maximumBytes
        rw [length_utf8_concat]
        exact Nat.not_lt.mp hc
      · change o.maximumBytes < (utf8 (o.text ++ [c])).length + _
        rw [length_utf8_concat]
        omega

/-- A text past a limit is already past it a little after the limit. -/
theorem exists_overrun {text : List Char} {n : Nat} (h : n < (utf8 text).length) :
    ∃ cut rest, text = cut ++ rest ∧ n < (utf8 cut).length ∧ (utf8 cut).length ≤ n + 4 := by
  induction text generalizing n with
  | nil => exact absurd h (Nat.not_lt_zero n)
  | cons c text ih =>
    have hsize := c.utf8Size_le_four
    rw [length_utf8_cons] at h
    by_cases hc : n < c.utf8Size
    · exact ⟨[c], text, rfl, by rw [length_utf8_singleton]; exact hc, by rw [length_utf8_singleton]; omega⟩
    · obtain ⟨cut, rest, rfl, hlt, hle⟩ := @ih (n - c.utf8Size) (by omega)
      refine ⟨c :: cut, rest, rfl, ?_, ?_⟩
      · rw [length_utf8_cons]
        omega
      · rw [length_utf8_cons]
        omega

theorem loop_error {error : DecodeError} (h : d.step = .error error) : d.loop = .error error := by rw [Decoder.loop_eq, h]

theorem Fetched.error {code : Nat} {rest : List Bool} {error : DecodeError} (h : Fetched e e' d counted code rest)
    (houtput : d.output.append e.phrase = .error error) : d.step = .error error := by
  rw [h.step, apply_error h.entry (h.output ▸ houtput)]
  rfl

private theorem append_error {o : Utf16Output} {a b : List Nat} {error : DecodeError} (h : o.append a = .error error) :
    o.append (a ++ b) = .error error := by
  rw [append_append, h]
  rfl

/-- The reader stops at the phrase that does not fit; only the units up to there count against its dictionary. -/
theorem loop_compressFrom_error {units : List Nat} {k : Nat} {error : DecodeError} (h : Builds known e d)
    (hunits : ∀ unit ∈ e.phrase ++ units, unit < 2 ^ 16) (hsmall : d.dictionary.length + 2 * k + 2 < 2 ^ 32)
    (hview : d.bits.view = compressFrom e units ++ tail) (htail : tail ≠ [])
    (houtput : d.output.append (e.phrase ++ units.take k) = .error error) : d.loop = .error error := by
  induction units generalizing known e d k with
  | nil =>
    rw [compressFrom, if_neg h.phrase_ne, List.append_assoc] at hview
    rw [List.take_nil, List.append_nil] at houtput
    rw [List.append_nil] at hunits
    obtain ⟨counted, code, -, hfetched⟩ := h.fetch (by omega) hunits (show e.phrase ∉ [] from List.not_mem_nil)
      (by rw [List.append_nil, List.append_nil]) hview (List.append_ne_nil_of_right_ne_nil _ htail)
    exact loop_error (hfetched.error houtput)
  | cons unit units ih =>
    obtain ⟨seen, hseen, hsee⟩ := see_eq e unit
    rw [compressFrom, hsee] at hview
    simp only at hview
    by_cases hlonger : e.phrase ++ [unit] ∈ e.dictionary ++ seen
    · obtain rfl := h.longer_known hseen hlonger
      rw [if_pos hlonger, List.append_nil, List.append_nil] at hview
      rw [List.append_nil] at hlonger
      rw [List.append_cons] at hunits
      refine @ih known { e with phrase := e.phrase ++ [unit] } d (k - 1) (h.longer hlonger) hunits (by omega) hview ?_
      cases k with
      | zero =>
        rw [List.take_zero, List.append_nil] at houtput
        exact append_error (append_error houtput)
      | succ k =>
        rw [List.take_succ_cons, List.append_cons] at houtput
        exact houtput
    · rw [if_neg hlonger, List.append_assoc] at hview
      obtain ⟨counted, code, hcreate, hfetched⟩ := h.fetch (by omega) (fun u hu => hunits u (List.mem_append_left _ hu))
        (h.not_seen hseen) rfl hview (List.append_ne_nil_of_right_ne_nil _ htail)
      cases hphrase : d.output.append e.phrase with
      | error error' =>
        rw [append_error hphrase] at houtput
        cases houtput
        exact loop_error (hfetched.error hphrase)
      | ok o =>
        obtain ⟨d', hstep, hview', hemitted⟩ := h.emit (by omega) hfetched hphrase
        have hle := hemitted.length_le
        rw [append_append, hphrase] at houtput
        cases k with
        | zero => cases houtput
        | succ k =>
          rw [loop_next hstep]
          refine @ih _ _ d' k (hemitted.next hseen hcreate) (fun u hu => hunits u (List.mem_append_right _ hu)) (by omega) hview' ?_
          rw [hemitted.output]
          exact houtput

/-- A text past the limit is refused. -/
theorem decompress_tooLarge {text : List Char} (hlen : maxBytes < (utf8 text).length)
    (hsmall : maxBytes ≤ 2 ^ 30 ∨ (utf8 text).length ≤ 2 ^ 30) :
    decompressLz64Bounded (asciiText (compressToBase64 (utf16 text))) maxBytes = .error .tooLarge := by
  have htext : text ≠ [] := by
    rintro rfl
    exact Nat.not_lt_zero _ hlen
  have hall := utf16_lt text
  obtain ⟨cut, rest, htextIs, hover, hnear⟩ := exists_overrun hlen
  have hcut : (utf16 cut).length ≤ 2 ^ 30 + 4 := by
    have hlength := length_utf16_le cut
    have htotal : (utf8 text).length = (utf8 cut).length + (utf8 rest).length := by rw [htextIs, length_utf8_append]
    omega
  have houtput := append_utf16_tooLarge (o := ⟨[], none, maxBytes⟩) rfl cut (Nat.zero_le _) (by exact hover.trans_eq (Nat.zero_add _).symm)
  have hstart : utf16 cut = (utf16 text).take (utf16 cut).length := by
    rw [htextIs, utf16, utf16, List.flatMap_append, List.take_left]
  obtain ⟨unit, units, hunits⟩ := List.exists_cons_of_ne_nil (utf16_ne_nil htext)
  rw [hstart] at houtput
  rw [hunits] at hall houtput ⊢
  generalize (utf16 cut).length = k at hcut houtput
  obtain ⟨bits, b, tail, hafter, hview, htail, hdecompress⟩ := decompress_first maxBytes unit units hall
  cases k with
  | zero => cases houtput
  | succ k =>
    rw [List.take_succ_cons, append_cons] at houtput
    rw [hdecompress, Decoder.first, append_cons]
    cases hfirst : Utf16Output.appendUnit ⟨[], none, maxBytes⟩ unit with
    | error error =>
      rw [hfirst] at houtput
      cases houtput
      rfl
    | ok o =>
      rw [hfirst] at houtput
      change o.append (units.take k) = _ at houtput
      cases hafter with
      | done =>
        rw [List.take_nil] at houtput
        cases houtput
      | more hphrase hbuilds =>
        cases k with
        | zero => cases houtput
        | succ k =>
          rw [List.take_succ_cons, ← List.singleton_append, ← hphrase] at houtput
          have hall' := fun u hu => hall u (List.mem_cons_of_mem _ hu)
          rw [← List.singleton_append, ← hphrase] at hall'
          refine loop_compressFrom_error (hbuilds _ ⟨rfl, rfl, rfl, rfl⟩) hall' ?_ hview htail houtput
          change 4 + 2 * k + 2 < 2 ^ 32
          omega

end overrun

/-! What one turn of the loop does, whatever is read. -/
section turn
variable {d d' : Decoder}

theorem countDown_ok (h : d.countDown = .ok d') : d'.bits = d.bits ∧ d'.dictionary = d.dictionary ∧ d'.previous = d.previous ∧
    d'.output = d.output ∧ ∀ n, Counts n d.codeWidth d.enlargeIn → Counts (n + 1) d'.codeWidth d'.enlargeIn := by
  unfold Decoder.countDown at h
  split at h
  · rename_i hzero
    split at h
    · cases h
    · cases h
      exact ⟨rfl, rfl, rfl, rfl, fun _ hcounts => hcounts.next.1 hzero⟩
  · rename_i hzero
    cases h
    exact ⟨rfl, rfl, rfl, rfl, fun _ hcounts => hcounts.next.2 hzero⟩

/-- A code and its entry: one the dictionary has, or the one that the turn is about to write. -/
inductive CodeOf (dictionary : List (List Nat)) (previous : List Nat) (index : Nat) : List Nat → Prop where
  | written {entry : List Nat} (h : dictionary[index]? = some entry) : CodeOf dictionary previous index entry
  | next {head : Nat} (h : index = dictionary.length) (hhead : previous.head? = some head) : CodeOf dictionary previous index (previous ++ [head])

theorem entryOf_ok {dictionary : List (List Nat)} {previous entry : List Nat} {index : Nat}
    (h : entryOf dictionary previous index = .ok entry) : CodeOf dictionary previous index entry := by
  unfold entryOf at h
  split at h
  · rename_i hget
    cases h
    exact .written hget
  · split at h
    · rename_i hindex
      obtain ⟨head, hhead, h⟩ := bind_ok.mp h
      cases h
      exact .next hindex (orUndecodable_ok.mp hhead)
    · cases h

/-- The end of a turn, after the code is known. -/
structure Learned (d d' : Decoder) (index : Nat) (entry : List Nat) (head : Nat) : Prop where
  code : CodeOf d.dictionary d.previous index entry
  begins : entry.head? = some head
  bits : d'.bits = d.bits
  dictionary : d'.dictionary = d.dictionary ++ [d.previous ++ [head]]
  previous : d'.previous = entry
  output : d.output.append entry = .ok d'.output
  counts : Counts d.dictionary.length d.codeWidth d.enlargeIn → Counts d'.dictionary.length d'.codeWidth d'.enlargeIn

theorem apply_ok {index : Nat} (h : d.apply index = .ok d') : ∃ entry head, Learned d d' index entry head := by
  obtain ⟨entry, hentry, h⟩ := bind_ok.mp h
  obtain ⟨output, houtput, h⟩ := bind_ok.mp h
  obtain ⟨head, hhead, h⟩ := bind_ok.mp h
  obtain ⟨hbits, hdictionary, hprevious, hout, hcounts⟩ := countDown_ok h
  refine ⟨entry, head, entryOf_ok hentry, orUndecodable_ok.mp hhead, hbits, hdictionary, hprevious, ?_, fun hc => ?_⟩
  · rw [hout]
    exact houtput
  · rw [hdictionary]
    change Counts (d.dictionary ++ [_]).length _ _
    rw [List.length_append]
    exact hcounts _ hc

/-- A turn reads a code that the dictionary knows or is about to know, or one of a unit that it writes down first. -/
inductive ReadsCode (d : Decoder) : Decoder → Nat → Prop where
  | code {code : Nat} {bits : Bits} (hread : d.bits.readBits d.codeWidth = some (code, bits)) (hcode : 3 ≤ code) : ReadsCode d { d with bits := bits } code
  | literal {code unit : Nat} {bits bits' : Bits} {mid : Decoder} (hread : d.bits.readBits d.codeWidth = some (code, bits)) (hcode : code ≤ 1)
      (hunit : bits.readBits (code * 8 + 8) = some (unit, bits'))
      (hcount : Decoder.countDown { d with bits := bits', dictionary := d.dictionary ++ [[unit]] } = .ok mid) : ReadsCode d mid d.dictionary.length

theorem step_ok (h : d.step = .ok (.inr d')) : ∃ mid index, ReadsCode d mid index ∧ mid.apply index = .ok d' := by
  obtain ⟨⟨code, bits⟩, hread, h⟩ := bind_ok.mp h
  have hread := orUndecodable_ok.mp hread
  change (if code ≤ 1 then _ else _) = _ at h
  split at h
  · rename_i hcode
    obtain ⟨⟨index, mid⟩, hliteral, h⟩ := bind_ok.mp h
    obtain ⟨next, happly, h⟩ := bind_ok.mp h
    cases h
    obtain ⟨⟨unit, bits'⟩, hunit, hliteral⟩ := bind_ok.mp hliteral
    change (if _ then _ else _) = _ at hliteral
    split at hliteral
    · cases hliteral
    · obtain ⟨counted, hcount, hliteral⟩ := bind_ok.mp hliteral
      cases hliteral
      exact ⟨_, _, .literal hread hcode (orUndecodable_ok.mp hunit) hcount, happly⟩
  · rename_i hcode
    split at h
    · obtain ⟨text, -, h⟩ := bind_ok.mp h
      cases h
    · rename_i hclose
      obtain ⟨next, happly, h⟩ := bind_ok.mp h
      cases h
      exact ⟨_, _, .code hread (by omega), happly⟩

/-- A turn puts out an entry that is in the dictionary when it is over, none of the three that only take up their codes;
nothing that was written is changed. -/
structure Turn (d d' : Decoder) : Prop where
  entry : ∃ index, 3 ≤ index ∧ d'.dictionary[index]? = some d'.previous
  kept : d.dictionary <+: d'.dictionary
  output : d.output.append d'.previous = .ok d'.output
  fewer : d'.bits.left < d.bits.left

theorem Learned.entry_written {index head : Nat} {entry : List Nat} (h : Learned d d' index entry head) :
    d'.dictionary[index]? = some d'.previous := by
  rw [h.dictionary, h.previous]
  have hhead := h.begins
  cases h.code with
  | written hget => rw [List.getElem?_append_left (List.getElem?_eq_some_iff.mp hget).1, hget]
  | next hindex hprevious =>
    rw [List.head?_append, hprevious] at hhead
    cases hhead
    rw [hindex, List.getElem?_concat_length]

theorem turn_of_step (h : d.step = .ok (.inr d')) (hdictionary : 3 ≤ d.dictionary.length) : Turn d d' := by
  obtain ⟨mid, index, hread, happly⟩ := step_ok h
  obtain ⟨entry, head, hlearned⟩ := apply_ok happly
  have hkept : d.dictionary <+: mid.dictionary ∧ mid.output = d.output ∧ 3 ≤ index := by
    cases hread with
    | code hread hcode => exact ⟨List.prefix_rfl, rfl, hcode⟩
    | literal _ _ _ hcount =>
      obtain ⟨-, hmid, -, hout, -⟩ := countDown_ok hcount
      exact ⟨hmid ▸ List.prefix_append _ _, hout, hdictionary⟩
  refine ⟨⟨index, hkept.2.2, hlearned.entry_written⟩, ?_, ?_, Decoder.step_left h⟩
  · rw [hlearned.dictionary]
    exact hkept.1.trans (List.prefix_append _ _)
  · rw [hlearned.previous, ← hkept.2.1]
    exact hlearned.output

end turn

/-! Every state of the loop. -/
section reached

/-- The states of the loop on a payload. -/
inductive Reached (payload : List Char) (maxBytes : Nat) : Decoder → Prop where
  | first {encoded : List Nat} {bits bits' bits'' : Bits} {code unit : Nat} {d : Decoder} (hencoded : (utf16 payload).mapM indexOfUnit = some encoded)
      (hnew : Bits.new encoded = some bits) (hcode : bits.readBits 2 = some (code, bits')) (hle : code ≤ 1)
      (hunit : bits'.readBits (code * 8 + 8) = some (unit, bits'')) (hfirst : Decoder.first bits'' unit maxBytes = .ok d) :
      Reached payload maxBytes d
  | next {d d' : Decoder} (h : Reached payload maxBytes d) (hstep : d.step = .ok (.inr d')) : Reached payload maxBytes d'

/-- A high surrogate that waits for its other half is one. -/
def Utf16Output.Pending (o : Utf16Output) : Prop := ∀ high, o.pendingHighSurrogate = some high → 0xD800 ≤ high ∧ high ≤ 0xDBFF

/-- Units. -/
def Units (entry : List Nat) : Prop := ∀ unit ∈ entry, unit < 2 ^ 16

/-- The bytes put out, and one for a surrogate that waits. -/
def Utf16Output.weight (o : Utf16Output) : Nat := (utf8 o.text).length + if o.pendingHighSurrogate.isSome then 1 else 0

theorem two_le_utf8Size {c : Char} (h : 0x80 ≤ c.toNat) : 2 ≤ c.utf8Size := by
  rw [Char.utf8Size]
  split
  · rename_i hle
    have hle : c.toNat ≤ 0x7F := UInt32.le_iff_toNat_le.mp hle
    omega
  split
  · exact le_refl 2
  split
  · exact Nat.le_add_right 2 1
  · exact Nat.le_add_right 2 2

private theorem toNat_charFromU32 {n : Nat} {c : Char} (h : charFromU32 n = some c) : c.toNat = n := by
  by_cases hvalid : n.isValidChar
  · rw [charFromU32, dif_pos hvalid] at h
    cases h
    rfl
  · rw [charFromU32, dif_neg hvalid] at h
    cases h

/-- Each unit is worth a byte: a low surrogate's character has more than the one its half stood for. -/
private theorem appendUnit_weight {o o' : Utf16Output} {unit : Nat} (h : o.appendUnit unit = .ok o') :
    o.weight + 1 ≤ o'.weight ∧ (o.Pending → o'.Pending) := by
  unfold Utf16Output.appendUnit at h
  split at h
  · rename_i hhigh
    cases h
    refine ⟨?_, fun _ high heq => ?_⟩
    · simp [Utf16Output.weight, hhigh.1]
    · cases heq
      exact hhigh.2
  split at h
  · cases h
  · rename_i c hscalar
    split at h
    · cases h
    · cases h
      refine ⟨?_, fun _ high heq => by cases heq⟩
      simp only [Utf16Output.weight, length_utf8_concat, Option.isSome_none, Bool.false_eq_true, if_false]
      cases hpending : o.pendingHighSurrogate with
      | none =>
        have := c.utf8Size_pos
        simp only [Option.isSome_none, Bool.false_eq_true, if_false]
        omega
      | some high =>
        rw [hpending, scalarOf] at hscalar
        split at hscalar
        · have := two_le_utf8Size (c := c) (by rw [toNat_charFromU32 hscalar]; omega)
          simp only [Option.isSome_some, if_true]
          omega
        · cases hscalar

private theorem append_weight {units : List Nat} {o o' : Utf16Output} (h : o.append units = .ok o') :
    o.weight + units.length ≤ o'.weight ∧ (o.Pending → o'.Pending) := by
  induction units generalizing o with
  | nil =>
    cases h
    exact ⟨le_refl _, id⟩
  | cons unit units ih =>
    rw [append_cons] at h
    obtain ⟨o'', hunit, h⟩ := bind_ok.mp h
    obtain ⟨hle, hpending⟩ := appendUnit_weight hunit
    obtain ⟨hle', hpending'⟩ := ih h
    rw [List.length_cons]
    exact ⟨by omega, hpending' ∘ hpending⟩

/-- Bits that are read make a number of as many bits. -/
private theorem readBitsFrom_lt {bit count result value : Nat} {b b' : Bits} (hresult : result < 2 ^ bit) (hbit : bit + count ≤ 32)
    (h : Bits.readBitsFrom bit count result b = some (value, b')) : value < 2 ^ (bit + count) := by
  induction count generalizing bit result b with
  | zero =>
    cases h
    exact hresult
  | succ count ih =>
    obtain ⟨⟨set, b''⟩, -, h⟩ := Option.bind_eq_some_iff.mp h
    have hnext : result ||| (if set then 1 <<< (bit % 32) else 0) < 2 ^ (bit + 1) := by
      apply Nat.or_lt_two_pow
      · exact hresult.trans (Nat.pow_lt_pow_right (by decide) (Nat.lt_succ_self bit))
      · rw [Nat.mod_eq_of_lt (by omega : bit < 32), Nat.one_shiftLeft]
        split
        · exact Nat.pow_lt_pow_right (by decide) (Nat.lt_succ_self bit)
        · exact Nat.two_pow_pos _
    have := ih hnext (by omega) h
    rwa [Nat.add_right_comm] at this

theorem readBits_lt {count value : Nat} {b b' : Bits} (hcount : count ≤ 32) (h : b.readBits count = some (value, b')) : value < 2 ^ count := by
  have hlt : value < 2 ^ (0 + count) := readBitsFrom_lt Nat.one_pos (by omega) h
  rwa [Nat.zero_add] at hlt

/-- What holds of every state: entries are written, not empty and of units; what is in the dictionary is paid for twice, by
what was put out and by what was read. -/
structure Running (size maxBytes : Nat) (d : Decoder) : Prop where
  three : 3 ≤ d.dictionary.length
  previous : d.previous ≠ [] ∧ Units d.previous
  entries : ∀ entry ∈ d.dictionary, entry ≠ [] ∧ Units entry
  pending : d.output.Pending
  counts : Counts d.dictionary.length d.codeWidth d.enlargeIn
  bounded : Bounded maxBytes d.output
  put : d.dictionary.length ≤ 2 * d.output.weight + 2
  read : d.dictionary.length + d.bits.left ≤ 6 * size + 4

variable {size : Nat} {d d' mid : Decoder} {index : Nat}

/-- A turn up to where its code leads to an entry. -/
theorem Running.reads (h : Running size maxBytes d) (hread : ReadsCode d mid index) : mid.output = d.output ∧ mid.previous = d.previous ∧
    (∀ entry ∈ mid.dictionary, entry ≠ [] ∧ Units entry) ∧ Counts mid.dictionary.length mid.codeWidth mid.enlargeIn ∧
      d.dictionary.length ≤ mid.dictionary.length ∧ mid.dictionary.length ≤ d.dictionary.length + 1 ∧
      mid.dictionary.length + mid.bits.left + 1 ≤ d.dictionary.length + d.bits.left := by
  have hwide := d.wide
  cases hread with
  | code hread hcode =>
    have hleft := Bits.readBitsFrom_left hread
    exact ⟨rfl, rfl, h.entries, h.counts, le_refl _, Nat.le_succ _, by dsimp only; omega⟩
  | literal hread hcode hunit hcount =>
    rename_i code unit _ _
    have hleft := Bits.readBitsFrom_left hread
    have hleft' := Bits.readBitsFrom_left hunit
    have hlt := readBits_lt (by omega) hunit
    have hwidth : 2 ^ (code * 8 + 8) ≤ 2 ^ 16 := Nat.pow_le_pow_right (by decide) (by omega)
    obtain ⟨hbits, hdictionary, hprevious, hout, hcounts⟩ := countDown_ok hcount
    have hlength : mid.dictionary.length = d.dictionary.length + 1 := by rw [hdictionary]; exact List.length_append
    refine ⟨hout, hprevious, ?_, hlength ▸ hcounts _ h.counts, by omega, by omega, ?_⟩
    · rw [hdictionary]
      intro entry hentry
      rcases List.mem_append.mp hentry with hentry | hentry
      · exact h.entries entry hentry
      · rw [List.mem_singleton.mp hentry]
        refine ⟨List.cons_ne_nil _ _, fun u hu => ?_⟩
        rw [List.mem_singleton.mp hu]
        exact hlt.trans_le hwidth
    · rw [hlength, hbits]
      dsimp only
      omega

/-- Every turn keeps what holds of the states. -/
theorem Running.step (h : Running size maxBytes d) (hstep : d.step = .ok (.inr d')) : Running size maxBytes d' := by
  obtain ⟨mid, index, hread, happly⟩ := step_ok hstep
  obtain ⟨entry, head, hlearned⟩ := apply_ok happly
  obtain ⟨hout, hprevious, hentries, hcounts, hgrown, hle, hread⟩ := h.reads hread
  have hmid : Units mid.previous := hprevious ▸ h.previous.2
  have hentry : entry ≠ [] ∧ Units entry := by
    cases hlearned.code with
    | written hget => exact hentries _ (List.mem_of_getElem? hget)
    | next _ hhead =>
      refine ⟨List.append_ne_nil_of_right_ne_nil _ (List.cons_ne_nil _ _), fun u hu => ?_⟩
      rcases List.mem_append.mp hu with hu | hu
      · exact hmid u hu
      · rw [List.mem_singleton.mp hu]
        exact hmid _ (List.mem_of_mem_head? hhead)
  have hlength : d'.dictionary.length = mid.dictionary.length + 1 := by rw [hlearned.dictionary]; exact List.length_append
  have hput := hlearned.output
  rw [hout] at hput
  obtain ⟨hweight, hpending⟩ := append_weight hput
  have hpos := List.length_pos_iff.mpr hentry.1
  have hthree := h.three
  have hold := h.put
  have hinput := h.read
  refine ⟨by omega, hlearned.previous ▸ hentry, ?_, hpending h.pending, hlearned.counts hcounts, append_bounded h.bounded hput, by omega, ?_⟩
  · rw [hlearned.dictionary]
    intro e he
    rcases List.mem_append.mp he with he | he
    · exact hentries e he
    · rw [List.mem_singleton.mp he]
      refine ⟨List.append_ne_nil_of_right_ne_nil _ (List.cons_ne_nil _ _), fun u hu => ?_⟩
      rcases List.mem_append.mp hu with hu | hu
      · exact hmid u hu
      · rw [List.mem_singleton.mp hu]
        exact hentry.2 _ (List.mem_of_mem_head? hlearned.begins)
  · rw [hlength, hlearned.bits]
    omega

private theorem length_of_mapM {α β : Type} {f : α → Option β} {l : List α} {r : List β} (h : l.mapM f = some r) : r.length = l.length := by
  induction l generalizing r with
  | nil =>
    cases h
    rfl
  | cons a l ih =>
    rw [List.mapM_cons] at h
    obtain ⟨b, -, h⟩ := Option.bind_eq_some_iff.mp h
    obtain ⟨rest, hrest, h⟩ := Option.bind_eq_some_iff.mp h
    cases h
    rw [List.length_cons, List.length_cons, ih hrest]

theorem Reached.running {payload : List Char} (h : Reached payload maxBytes d) : Running (utf16 payload).length maxBytes d := by
  induction h with
  | first hencoded hnew hcode hle hunit hfirst =>
    rename_i code unit _
    obtain ⟨o, ho, hfirst⟩ := bind_ok.mp hfirst
    cases hfirst
    have hlt := readBits_lt (by omega) hunit
    have hwidth : 2 ^ (code * 8 + 8) ≤ 2 ^ 16 := Nat.pow_le_pow_right (by decide) (by omega)
    have hunits : Units [unit] := fun u hu => by
      rw [List.mem_singleton.mp hu]
      exact hlt.trans_le hwidth
    obtain ⟨hweight, hpending⟩ := append_weight ho
    have hlength := length_of_mapM hencoded
    have hnewLeft := Bits.new_left hnew
    have hcodeLeft := Bits.readBitsFrom_left hcode
    have hunitLeft := Bits.readBitsFrom_left hunit
    rw [List.length_singleton] at hweight
    have hcounts : Counts 4 3 4 := ⟨rfl, by decide, by decide⟩
    refine ⟨Nat.le_succ 3, ⟨List.cons_ne_nil _ _, hunits⟩, fun entry hentry => ?_, hpending fun _ h => (by cases h), hcounts,
      append_bounded ⟨rfl, Nat.zero_le _⟩ ho, ?_, ?_⟩
    · rcases List.mem_append.mp (show entry ∈ reserved ++ [[unit]] from hentry) with hentry | hentry
      · have hreserved : ∀ e ∈ reserved, e ≠ [] ∧ ∀ u ∈ e, u < 2 ^ 16 := by decide
        exact hreserved entry hentry
      · rw [List.mem_singleton.mp hentry]
        exact ⟨List.cons_ne_nil _ _, hunits⟩
    · change 4 ≤ 2 * o.weight + 2
      omega
    · dsimp only [List.length_cons, List.length_nil]
      omega
  | next _ hstep ih => exact ih.step hstep

/-- Nothing overflows: a code's bits are shifted within 32, a unit is one of 16 bits, the offset of a surrogate is not negative
and neither is the countdown. -/
structure Safe (d : Decoder) : Prop where
  width : d.codeWidth ≤ 32
  units : ∀ entry ∈ d.dictionary, entry ≠ [] ∧ Units entry
  previous : d.previous ≠ [] ∧ Units d.previous
  pending : d.output.Pending
  counts : Counts d.dictionary.length d.codeWidth d.enlargeIn

theorem weight_le {o : Utf16Output} (h : Bounded maxBytes o) : o.weight ≤ maxBytes + 1 := by
  have := h.2
  rw [Utf16Output.weight]
  split
  · omega
  · omega

/-- The dictionary never outgrows what a code can say, be it for the limit or for the payload. -/
theorem Reached.safe {payload : List Char} (h : Reached payload maxBytes d) (hsmall : maxBytes ≤ 2 ^ 30 ∨ (utf16 payload).length ≤ 2 ^ 29) :
    Safe d := by
  have hrun := h.running
  have hput := hrun.put
  have hread := hrun.read
  have hweight := weight_le hrun.bounded
  have hlength : d.dictionary.length < 2 ^ 32 := by omega
  exact ⟨hrun.counts.width_le hlength, hrun.entries, hrun.previous, hrun.pending, hrun.counts⟩

/-- What lz-string wrote is read exactly or refused where it is past the limit; no answer is past it; and on any payload the
loop ends, nothing in it overflows and every entry it puts out is written. The limit is at most 64 MiB wherever one is set. -/
theorem decompress_exact (maxBytes : Nat) :
    (∀ text, maxBytes ≤ 2 ^ 30 ∨ (utf8 text).length ≤ 2 ^ 30 →
      decompressLz64Bounded (asciiText (compressToBase64 (utf16 text))) maxBytes =
        if (utf8 text).length ≤ maxBytes then .ok text else .error .tooLarge) ∧
      (∀ payload text, decompressLz64Bounded payload maxBytes = .ok text → (utf8 text).length ≤ maxBytes) ∧
      ∀ payload d, Reached payload maxBytes d → (maxBytes ≤ 2 ^ 30 ∨ (utf16 payload).length ≤ 2 ^ 29 → Safe d) ∧
        ∀ d', d.step = .ok (.inr d') → Turn d d' := by
  refine ⟨fun text hsmall => ?_, fun payload text => decompress_bounded, fun payload d h => ⟨h.safe, fun d' hstep => ?_⟩⟩
  · split
    · rename_i hlen
      by_cases htext : text = []
      · subst htext
        rfl
      · exact decompress_compress htext hlen (by omega)
    · rename_i hlen
      exact decompress_tooLarge (Nat.not_le.mp hlen) hsmall
  · exact turn_of_step hstep h.running.three

/-- Six bytes in three characters, one of them of two units, at their own limit and below it. -/
theorem surrogates_exact : decompressLz64Bounded (asciiText (compressToBase64 (utf16 "a😀b".toList))) 6 = .ok "a😀b".toList ∧
    decompressLz64Bounded (asciiText (compressToBase64 (utf16 "a😀b".toList))) 5 = .error .tooLarge :=
  ⟨(decompress_exact 6).1 "a😀b".toList (.inl (by decide)), (decompress_exact 5).1 "a😀b".toList (.inl (by decide))⟩

end reached
end Hoglet.Capture.Lz
