import Hoglet.Capture.LzCompress
import Hoglet.Capture.Sniffing

/-! What lz-string's compressor writes is what the bounded reader reads. -/
namespace Hoglet.Capture.Lz
open Json

section bits

/-- A value's bits from a place down. -/
def bitsDown (value : Nat) : Nat → List Bool
  | 0 => [value.testBit 0]
  | place + 1 => value.testBit (place + 1) :: bitsDown value place

/-- The bits still to be read. -/
def Bits.view (b : Bits) : List Bool := bitsDown b.value b.place ++ b.input.flatMap (bitsDown · 5)

/-- A bit is read as long as another one follows it. -/
private theorem readBit_view {b : Bits} {set : Bool} {rest : List Bool} (h : b.view = set :: rest) (hrest : rest ≠ []) :
    ∃ b', b.readBit = some (set, b') ∧ b'.view = rest := by
  obtain ⟨value, input, place⟩ := b
  cases place with
  | succ place =>
    obtain ⟨hset, hview⟩ := List.cons.inj h
    exact ⟨⟨value, input, place⟩, congrArg (fun s => some (s, _)) hset, hview⟩
  | zero =>
    obtain ⟨hset, hview⟩ := List.cons.inj h
    cases input with
    | nil => exact absurd hview.symm hrest
    | cons next input => exact ⟨⟨next, input, 5⟩, congrArg (fun s => some (s, _)) hset, hview⟩

private theorem mod_or_bit (value bit : Nat) :
    (value % 2 ^ bit ||| if value.testBit bit then 1 <<< bit else 0) = value % 2 ^ (bit + 1) := by
  apply Nat.eq_of_testBit_eq
  intro i
  rw [Nat.testBit_or, Nat.testBit_mod_two_pow, Nat.testBit_mod_two_pow]
  have hone : (1 <<< bit).testBit i = decide (bit = i) := by rw [Nat.one_shiftLeft, Nat.testBit_two_pow]
  by_cases heq : bit = i
  · subst heq
    cases hset : value.testBit bit with
    | false => simp
    | true => simp [hone]
  · have hif : (if value.testBit bit then 1 <<< bit else 0).testBit i = false := by
      split
      · rw [hone]
        exact decide_eq_false heq
      · exact Nat.zero_testBit i
    rw [hif, Bool.or_false]
    have hlt : decide (i < bit) = decide (i < bit + 1) := decide_eq_decide.mpr (by omega)
    rw [hlt]

private theorem readBitsFrom_view (value count : Nat) {bit : Nat} {b : Bits} {rest : List Bool}
    (h : b.view = (List.range' bit count).map value.testBit ++ rest) (hrest : rest ≠ []) (hcount : bit + count ≤ 32) :
    ∃ b', Bits.readBitsFrom bit count (value % 2 ^ bit) b = some (value % 2 ^ (bit + count), b') ∧ b'.view = rest := by
  induction count generalizing bit b with
  | zero => exact ⟨b, rfl, h⟩
  | succ count ih =>
    rw [List.range'_succ, List.map_cons, List.cons_append] at h
    obtain ⟨b', hread, hview⟩ := readBit_view h (List.append_ne_nil_of_right_ne_nil _ hrest)
    obtain ⟨b'', hrun, hview'⟩ := ih hview (by omega)
    refine ⟨b'', ?_, hview'⟩
    rw [Bits.readBitsFrom, hread]
    change Bits.readBitsFrom (bit + 1) count (value % 2 ^ bit ||| if value.testBit bit then 1 <<< (bit % 32) else 0) b' = _
    rw [Nat.mod_eq_of_lt (show bit < 32 by omega), mod_or_bit, hrun, show bit + 1 + count = bit + (count + 1) by omega]

/-- What was written with some bits is read back with as many. -/
theorem readBits_writeBits {count value : Nat} {b : Bits} {rest : List Bool} (h : b.view = writeBits count value ++ rest)
    (hrest : rest ≠ []) (hcount : count ≤ 32) (hvalue : value < 2 ^ count) :
    ∃ b', b.readBits count = some (value, b') ∧ b'.view = rest := by
  obtain ⟨b', hread, hview⟩ := readBitsFrom_view value count h hrest (by omega)
  rw [pow_zero, Nat.mod_one, Nat.zero_add, Nat.mod_eq_of_lt hvalue] at hread
  exact ⟨b', hread, hview⟩

private theorem flush_length (bits : List Bool) : 6 ∣ (flush bits).length := by
  rw [flush, List.length_append, List.length_replicate]
  omega

private theorem bitsDown_six (a b c d e f : Bool) :
    bitsDown (a.toNat * 32 + b.toNat * 16 + c.toNat * 8 + d.toNat * 4 + e.toNat * 2 + f.toNat) 5 = [a, b, c, d, e, f] := by
  revert a b c d e f
  decide

/-- The reader sees the bits that were packed. -/
private theorem pack_view (bits : List Bool) (h : 6 ∣ bits.length) : (pack bits).flatMap (bitsDown · 5) = bits := by
  induction bits using pack.induct with
  | case1 a b c d e f rest ih =>
    rw [pack, List.flatMap_cons, bitsDown_six, ih]
    · rfl
    · simp only [List.length_cons] at h
      omega
  | case2 bits hshort =>
    match bits, h, hshort with
    | [], _, _ => rfl
    | a :: b :: c :: d :: e :: f :: rest, _, hshort => exact absurd rfl (hshort a b c d e f rest)
    | [_], h, _ | [_, _], h, _ | [_, _, _], h, _ | [_, _, _, _], h, _ | [_, _, _, _, _], h, _ =>
      simp only [List.length_cons, List.length_nil] at h
      omega

private theorem pack_lt (bits : List Bool) : ∀ v ∈ pack bits, v < 64 := by
  induction bits using pack.induct with
  | case1 a b c d e f rest ih =>
    rw [pack, List.forall_mem_cons]
    have := a.toNat_lt
    have := b.toNat_lt
    have := c.toNat_lt
    have := d.toNat_lt
    have := e.toNat_lt
    have := f.toNat_lt
    exact ⟨by omega, ih⟩
  | case2 bits hshort =>
    unfold pack
    split
    · exact absurd rfl (hshort _ _ _ _ _ _ _)
    · exact fun v hv => absurd hv List.not_mem_nil

end bits

section output

theorem append_append (o : Utf16Output) (a b : List Nat) : o.append (a ++ b) = o.append a >>= fun o' => o'.append b := by
  induction a generalizing o with
  | nil => rfl
  | cons unit a ih =>
    rw [List.cons_append, Utf16Output.append, Utf16Output.append]
    cases o.appendUnit unit with
    | error e => rfl
    | ok o' => exact ih o'

private theorem charFromU32_toNat (c : Char) : charFromU32 c.toNat = some c := by
  have hvalid : c.toNat.isValidChar := c.valid
  rw [charFromU32, dif_pos hvalid]
  refine congrArg some (Char.ext ?_)
  apply UInt32.toNat_inj.mp
  rfl

variable {o : Utf16Output}

theorem append_cons (o : Utf16Output) (unit : Nat) (units : List Nat) :
    o.append (unit :: units) = o.appendUnit unit >>= fun o' => o'.append units := rfl

private theorem appendUnit_high {unit : Nat} (hpending : o.pendingHighSurrogate = none) (h : 0xD800 ≤ unit ∧ unit ≤ 0xDBFF) :
    o.appendUnit unit = .ok { o with pendingHighSurrogate := some unit } := by
  rw [Utf16Output.appendUnit, if_pos ⟨hpending, h⟩]

/-- An output with one more character, if it fits. -/
def Utf16Output.put (o : Utf16Output) (c : Char) : Except DecodeError Utf16Output :=
  if o.maximumBytes < (utf8 o.text).length + c.utf8Size then .error .tooLarge
  else .ok { o with text := o.text ++ [c], pendingHighSurrogate := none }

private theorem append_scalar {unit : Nat} {c : Char} (hhigh : ¬ (o.pendingHighSurrogate = none ∧ 0xD800 ≤ unit ∧ unit ≤ 0xDBFF))
    (hscalar : scalarOf o.pendingHighSurrogate unit = some c) : o.append [unit] = o.put c := by
  rw [append_cons, Utf16Output.appendUnit, if_neg hhigh, hscalar, Utf16Output.put]
  dsimp only
  split
  · rfl
  · rfl

private theorem append_pair {high low : Nat} {c : Char} (hpending : o.pendingHighSurrogate = none)
    (hhigh : 0xD800 ≤ high ∧ high ≤ 0xDBFF) (hlow : 0xDC00 ≤ low ∧ low ≤ 0xDFFF)
    (hscalar : 0x10000 + (high - 0xD800) * 1024 + (low - 0xDC00) = c.toNat) : o.append [high, low] = o.put c := by
  have hpair : scalarOf (some high) low = some c := by rw [scalarOf, if_pos hlow, hscalar, charFromU32_toNat]
  rw [append_cons, appendUnit_high hpending hhigh]
  change Utf16Output.append { o with pendingHighSurrogate := some high } [low] = _
  exact append_scalar (fun h => by cases h.1) hpair

/-- A whole character is appended, in one unit or two. -/
theorem append_char (hpending : o.pendingHighSurrogate = none) (c : Char) : o.append (utf16Char c) = o.put c := by
  have hvalid : c.toNat < 0xD800 ∨ 0xDFFF < c.toNat ∧ c.toNat < 0x110000 := c.valid
  rw [utf16Char]
  split
  · have hhigh : ¬ (0xD800 ≤ c.toNat ∧ c.toNat ≤ 0xDBFF) := by omega
    have hlow : ¬ (0xDC00 ≤ c.toNat ∧ c.toNat ≤ 0xDFFF) := by omega
    have hscalar : scalarOf o.pendingHighSurrogate c.toNat = some c := by
      rw [hpending, scalarOf, if_neg hlow, charFromU32_toNat]
    exact append_scalar (fun h => hhigh h.2) hscalar
  · have hscalar : 0x10000 + (0xD800 + (c.toNat - 0x10000) / 1024 - 0xD800) * 1024 +
        (0xDC00 + (c.toNat - 0x10000) % 1024 - 0xDC00) = c.toNat := by omega
    exact append_pair hpending (by omega) (by omega) hscalar

theorem append_utf16 (hpending : o.pendingHighSurrogate = none) (text : List Char)
    (hlen : (utf8 o.text).length + (utf8 text).length ≤ o.maximumBytes) :
    o.append (utf16 text) = .ok { o with text := o.text ++ text, pendingHighSurrogate := none } := by
  induction text generalizing o with
  | nil =>
    rw [List.append_nil, ← hpending]
    rfl
  | cons c text ih =>
    rw [length_utf8_cons] at hlen
    rw [utf16, List.flatMap_cons, append_append, append_char hpending c, Utf16Output.put, if_neg (by omega)]
    change Utf16Output.append { o with text := o.text ++ [c], pendingHighSurrogate := none } (utf16 text) = _
    have hrest : (utf8 (o.text ++ [c])).length + (utf8 text).length ≤ o.maximumBytes := by
      rw [length_utf8_concat]
      omega
    rw [@ih { o with text := o.text ++ [c], pendingHighSurrogate := none } rfl hrest, List.append_assoc]
    rfl

/-- A text has no more UTF-16 units than UTF-8 bytes. -/
theorem length_utf16_le (text : List Char) : (utf16 text).length ≤ (utf8 text).length := by
  induction text with
  | nil => exact le_refl _
  | cons c text ih =>
    have hchar : (utf16Char c).length ≤ c.utf8Size := by
      rw [utf16Char]
      split
      · exact c.utf8Size_pos
      · rename_i hlarge
        rw [Char.utf8Size]
        split
        · rename_i h
          have hle : c.toNat ≤ 0x7F := UInt32.le_iff_toNat_le.mp h
          omega
        split
        · exact le_refl 2
        split
        · exact Nat.le_add_right 2 1
        · exact Nat.le_add_right 2 2
    rw [length_utf8_cons, utf16, List.flatMap_cons, List.length_append]
    exact Nat.add_le_add hchar ih

theorem utf16_lt (text : List Char) : ∀ unit ∈ utf16 text, unit < 2 ^ 16 := by
  intro unit hunit
  obtain ⟨c, -, hc⟩ := List.mem_flatMap.mp hunit
  have hvalid : c.toNat < 0xD800 ∨ 0xDFFF < c.toNat ∧ c.toNat < 0x110000 := c.valid
  rw [utf16Char] at hc
  split at hc
  · rw [List.mem_singleton.mp hc]
    assumption
  · rcases List.mem_pair.mp hc with hhigh | hlow
    · rw [hhigh]
      omega
    · rw [hlow]
      omega

end output

section run

/-- The entries that a reader's dictionary has before anything is read. -/
def reserved : List (List Nat) := [[0], [1], [2]]

/-- Every unit of an entry is an entry. -/
def Closed (entries : List (List Nat)) : Prop := ∀ entry ∈ entries, ∀ unit ∈ entry, [unit] ∈ entries

/-- The countdown ends when the dictionary outgrows the codes. -/
structure Counts (entries width countdown : Nat) : Prop where
  sum : countdown + entries = 2 ^ width
  half : 2 * countdown ≤ 2 ^ width
  positive : 0 < countdown

/-- A reader that has read all phrases before the compressor's current one: it knows what the compressor knew when
that phrase began. -/
structure Reads (known : List (List Nat)) (d : Decoder) : Prop where
  dictionary : d.dictionary = reserved ++ known
  previous : d.previous ∈ known
  nonempty : [] ∉ known
  closed : Closed known
  counts : Counts d.dictionary.length d.codeWidth d.enlargeIn

theorem Counts.next {entries width countdown : Nat} (h : Counts entries width countdown) :
    (countdown - 1 = 0 → Counts (entries + 1) (width + 1) (2 ^ width)) ∧
      (countdown - 1 ≠ 0 → Counts (entries + 1) width (countdown - 1)) := by
  obtain ⟨hsum, hhalf, hpositive⟩ := h
  constructor
  · intro hzero
    exact ⟨by rw [pow_succ]; omega, by rw [pow_succ]; omega, Nat.two_pow_pos width⟩
  · intro hzero
    exact ⟨by omega, by omega, by omega⟩

theorem Counts.width_le {entries width countdown : Nat} (h : Counts entries width countdown) (hsmall : entries < 2 ^ 32) :
    width ≤ 32 := by
  obtain ⟨hsum, hhalf, hpositive⟩ := h
  by_contra hwide
  have : 2 ^ 33 ≤ 2 ^ width := Nat.pow_le_pow_right (by decide) (by omega)
  omega

/-- Both sides are at the same width, as far from the next. -/
def Paced (e : Encoder) (d : Decoder) : Prop := e.numBits = d.codeWidth ∧ e.enlargeIn = d.enlargeIn

/-- Both sides count one more entry. -/
theorem countDown_spec {n : Nat} {d : Decoder} (hcounts : Counts n d.codeWidth d.enlargeIn) (hsmall : n < 2 ^ 32) :
    ∃ d', d.countDown = .ok d' ∧ d'.bits = d.bits ∧ d'.dictionary = d.dictionary ∧ d'.previous = d.previous ∧
      d'.output = d.output ∧ Counts (n + 1) d'.codeWidth d'.enlargeIn ∧ ∀ e, Paced e d → Paced e.countDown d' := by
  have hwidth := hcounts.width_le hsmall
  by_cases hzero : d.enlargeIn - 1 = 0
  · rw [Decoder.countDown, dif_pos hzero, if_neg (by omega)]
    refine ⟨_, rfl, rfl, rfl, rfl, rfl, hcounts.next.1 hzero, fun e he => ?_⟩
    rw [Encoder.countDown, if_pos (he.2 ▸ hzero)]
    exact ⟨congrArg (· + 1) he.1, congrArg (2 ^ ·) he.1⟩
  · rw [Decoder.countDown, dif_neg hzero]
    refine ⟨_, rfl, rfl, rfl, rfl, rfl, hcounts.next.2 hzero, fun e he => ?_⟩
    rw [Encoder.countDown, if_neg (he.2 ▸ hzero)]
    exact ⟨he.1, congrArg (· - 1) he.2⟩

/-- The reader after an entry: it has put out the entry and learned the one that the compressor learned before it. -/
structure Applied (d d' : Decoder) (entry : List Nat) (head : Nat) (o : Utf16Output) : Prop where
  bits : d'.bits = d.bits
  dictionary : d'.dictionary = d.dictionary ++ [d.previous ++ [head]]
  previous : d'.previous = entry
  output : d'.output = o
  counts : Counts d'.dictionary.length d'.codeWidth d'.enlargeIn
  paced : ∀ e, Paced e d → Paced e.countDown d'

theorem apply_spec {d : Decoder} {index head : Nat} {entry : List Nat} {o : Utf16Output}
    (hcounts : Counts d.dictionary.length d.codeWidth d.enlargeIn) (hsmall : d.dictionary.length < 2 ^ 32)
    (hentry : entryOf d.dictionary d.previous index = .ok entry) (hhead : entry.head? = some head)
    (houtput : d.output.append entry = .ok o) : ∃ d', d.apply index = .ok d' ∧ Applied d d' entry head o := by
  let next : Decoder := { d with dictionary := d.dictionary ++ [d.previous ++ [head]], previous := entry, output := o }
  obtain ⟨d', hcount, hbits, hdictionary, hprevious, hout, hcounts', hpaced⟩ := countDown_spec (d := next) hcounts hsmall
  refine ⟨d', ?_, hbits, hdictionary, hprevious, hout, ?_, hpaced⟩
  · rw [Decoder.apply, hentry]
    change (d.output.append entry >>= _) = _
    rw [houtput]
    change (orUndecodable entry.head? >>= _) = _
    rw [hhead]
    exact hcount
  · rw [hdictionary]
    change Counts (d.dictionary ++ [d.previous ++ [head]]).length _ _
    rw [List.length_append]
    exact hcounts'

/-- The code of a phrase leads to it, also where the reader is one entry behind. -/
theorem entryOf_phrase {known : List (List Nat)} {previous phrase : List Nat} {head : Nat} (hprevious : previous ≠ [])
    (hhead : phrase.head? = some head) (hmem : phrase ∈ known ++ [previous ++ [head]]) :
    entryOf (reserved ++ known) previous (3 + (known ++ [previous ++ [head]]).idxOf phrase) = .ok phrase := by
  by_cases hknown : phrase ∈ known
  · rw [List.idxOf_append_of_mem hknown, entryOf]
    have hget : (reserved ++ known)[3 + known.idxOf phrase]? = some phrase := by
      rw [List.getElem?_append_right (Nat.le_add_right 3 _)]
      change known[3 + known.idxOf phrase - 3]? = _
      rw [Nat.add_sub_cancel_left, List.getElem?_eq_getElem (List.idxOf_lt_length_of_mem hknown), List.getElem_idxOf]
    rw [hget]
  · obtain rfl : phrase = previous ++ [head] := List.mem_singleton.mp ((List.mem_append.mp hmem).resolve_left hknown)
    rw [List.idxOf_append_of_notMem hknown, List.idxOf_cons_self, entryOf]
    have hlength : 3 + (known.length + 0) = (reserved ++ known).length := by
      rw [List.length_append]
      rfl
    obtain ⟨first, rest, rfl⟩ := List.exists_cons_of_ne_nil hprevious
    cases hhead
    rw [hlength, List.getElem?_eq_none (le_refl _)]
    exact if_pos rfl

section step
variable {d : Decoder} {known : List (List Nat)} {rest : List Bool} {o : Utf16Output}

private theorem three_lt_pow (hcounts : Counts d.dictionary.length d.codeWidth d.enlargeIn) (hdictionary : 3 ≤ d.dictionary.length) :
    3 < 2 ^ d.codeWidth := by
  obtain ⟨hsum, -, hpositive⟩ := hcounts
  omega

/-- An entry that cannot be put out ends the loop. -/
theorem apply_error {d : Decoder} {index : Nat} {entry : List Nat} {error : DecodeError}
    (hentry : entryOf d.dictionary d.previous index = .ok entry) (houtput : d.output.append entry = .error error) :
    d.apply index = .error error := by
  rw [Decoder.apply, hentry]
  change (d.output.append entry >>= _) = _
  rw [houtput]
  rfl

/-- The reader reads the code of a phrase that the compressor had in its dictionary. -/
theorem read_known (hr : Reads known d) (hsmall : d.dictionary.length < 2 ^ 32) {phrase : List Nat} {head : Nat}
    (hhead : phrase.head? = some head) (hmem : phrase ∈ known ++ [d.previous ++ [head]])
    (hview : d.bits.view = writeBits d.codeWidth (3 + (known ++ [d.previous ++ [head]]).idxOf phrase) ++ rest)
    (hrest : rest ≠ []) : ∃ b code, Bits.view b = rest ∧ entryOf d.dictionary d.previous code = .ok phrase ∧
      d.step = Decoder.apply { d with bits := b } code >>= fun d' => .ok (.inr d') := by
  have hprevious : d.previous ≠ [] := fun hnil => hr.nonempty (hnil ▸ hr.previous)
  have hentry := entryOf_phrase hprevious hhead hmem
  have hidx := List.idxOf_lt_length_of_mem hmem
  rw [List.length_append, List.length_singleton] at hidx
  have hlength : d.dictionary.length = 3 + known.length := by rw [hr.dictionary, List.length_append]; rfl
  have hcode : 3 + (known ++ [d.previous ++ [head]]).idxOf phrase < 2 ^ d.codeWidth := by
    obtain ⟨hsum, -, hpositive⟩ := hr.counts
    omega
  generalize hcodeIs : 3 + (known ++ [d.previous ++ [head]]).idxOf phrase = code at hview hentry hcode
  obtain ⟨b, hread, hview'⟩ := readBits_writeBits hview hrest (hr.counts.width_le hsmall) hcode
  refine ⟨b, code, hview', hr.dictionary ▸ hentry, ?_⟩
  rw [Decoder.step, hread]
  change (if code ≤ 1 then _ else _) = _
  rw [if_neg (by omega), if_neg (by omega)]
  rfl

private theorem literalBits_eq (width : Nat) {unit : Nat} (h : unit < 2 ^ 16) :
    ∃ code ≤ 1, literalBits width unit = writeBits width code ++ writeBits (code * 8 + 8) unit ∧ unit < 2 ^ (code * 8 + 8) := by
  rw [literalBits]
  split
  · exact ⟨0, Nat.zero_le 1, rfl, by assumption⟩
  · exact ⟨1, le_refl 1, rfl, h⟩

/-- The reader reads a unit that is new to both dictionaries. -/
theorem read_literal (hr : Reads known d) (hsmall : d.dictionary.length + 1 < 2 ^ 32) {unit : Nat} (hunit : unit < 2 ^ 16)
    (hview : d.bits.view = literalBits d.codeWidth unit ++ rest) (hrest : rest ≠ []) :
    ∃ (counted : Decoder) (code : Nat), counted.bits.view = rest ∧ counted.dictionary = reserved ++ known ++ [[unit]] ∧
      counted.previous = d.previous ∧ counted.output = d.output ∧
      Counts counted.dictionary.length counted.codeWidth counted.enlargeIn ∧ (∀ e, Paced e d → Paced e.countDown counted) ∧
      entryOf counted.dictionary counted.previous code = .ok [unit] ∧ d.step = counted.apply code >>= fun d' => .ok (.inr d') := by
  have hlength : d.dictionary.length = 3 + known.length := by rw [hr.dictionary, List.length_append]; rfl
  have hthree := three_lt_pow hr.counts (by omega)
  obtain ⟨code, hcode, hbits, hunit⟩ := literalBits_eq d.codeWidth hunit
  rw [hbits, List.append_assoc] at hview
  obtain ⟨b, hread, hview⟩ := readBits_writeBits hview (List.append_ne_nil_of_right_ne_nil _ hrest)
    (hr.counts.width_le (by omega)) (by omega)
  obtain ⟨b', hread', hview⟩ := readBits_writeBits hview hrest (by omega) hunit
  let wider : Decoder := { d with bits := b', dictionary := d.dictionary ++ [[unit]] }
  obtain ⟨counted, hcount, hcbits, hcdictionary, hcprevious, hcoutput, hccounts, hcpaced⟩ :=
    countDown_spec (d := wider) hr.counts (by omega)
  have hclength : counted.dictionary.length = d.dictionary.length + 1 := by
    rw [hcdictionary]
    exact List.length_append
  have hentry : entryOf counted.dictionary counted.previous d.dictionary.length = .ok [unit] := by
    have hgrown : counted.dictionary = d.dictionary ++ [[unit]] := hcdictionary
    rw [hgrown, entryOf, List.getElem?_concat_length]
  rw [← hclength] at hccounts
  refine ⟨counted, d.dictionary.length, hcbits ▸ hview, hr.dictionary ▸ hcdictionary, hcprevious, hcoutput, hccounts, hcpaced, hentry, ?_⟩
  rw [Decoder.step, hread]
  change (if code ≤ 1 then _ else _) = _
  rw [if_pos hcode, Decoder.literal, hread']
  change ((if 2 ^ 32 ≤ d.dictionary.length then _ else _) >>= _) = _
  rw [if_neg (by omega), hcount]
  rfl

/-- The reader reads the end mark. -/
theorem step_end (hr : Reads known d) (hsmall : d.dictionary.length < 2 ^ 32)
    (hview : d.bits.view = writeBits d.codeWidth 2 ++ rest) (hrest : rest ≠ []) {text : List Char}
    (hfinish : d.output.finish = .ok text) : d.step = .ok (.inl text) := by
  have hlength : d.dictionary.length = 3 + known.length := by rw [hr.dictionary, List.length_append]; rfl
  have hthree := three_lt_pow hr.counts (by omega)
  obtain ⟨b, hread, -⟩ := readBits_writeBits hview hrest (hr.counts.width_le hsmall) (by omega)
  rw [Decoder.step, hread]
  change (d.output.finish >>= _) = _
  rw [hfinish]
  rfl

end step

theorem loop_next {d d' : Decoder} (h : d.step = .ok (.inr d')) : d.loop = d'.loop := by rw [Decoder.loop_eq, h]

theorem loop_done {d : Decoder} {text : List Char} (h : d.step = .ok (.inl text)) : d.loop = .ok text := by
  rw [Decoder.loop_eq, h]

/-- Where the compressor's phrase comes from: an entry it had before, or a unit that was new when the phrase began. -/
inductive Phrase (known : List (List Nat)) (previous : List Nat) (e : Encoder) (head : Nat) : Prop where
  | found (hcreate : e.toCreate = []) (hdictionary : e.dictionary = known ++ [previous ++ [head]])
      (hmem : e.phrase ∈ e.dictionary) (hknown : [head] ∈ known)
  | fresh (hcreate : e.toCreate = [[head]]) (hdictionary : e.dictionary = known ++ [[head], previous ++ [head]])
      (hphrase : e.phrase = [head]) (hknown : [head] ∉ known)

/-- The compressor in the middle of a phrase, and the reader before that phrase's code. -/
structure Builds (known : List (List Nat)) (e : Encoder) (d : Decoder) : Prop where
  reads : Reads known d
  paced : Paced e d
  phrase : ∃ head, e.phrase.head? = some head ∧ Phrase known d.previous e head

section builds
variable {known : List (List Nat)} {e : Encoder} {d : Decoder}

theorem Builds.phrase_ne (h : Builds known e d) : e.phrase ≠ [] := by
  obtain ⟨head, hhead, -⟩ := h.phrase
  intro hnil
  rw [hnil] at hhead
  cases hhead

private theorem closed_append {entries : List (List Nat)} (h : Closed known) (hsub : ∀ entry ∈ known, entry ∈ entries)
    (hnew : ∀ entry ∈ entries, entry ∉ known → ∀ unit ∈ entry, [unit] ∈ entries) : Closed entries := by
  intro entry hentry unit hunit
  by_cases hknown : entry ∈ known
  · exact hsub _ (h entry hknown unit hunit)
  · exact hnew entry hentry hknown unit hunit

/-- The compressor's dictionary in the middle of a phrase is as closed as the reader's. -/
theorem Builds.dictionary (h : Builds known e d) : e.phrase ∈ e.dictionary ∧ [] ∉ e.dictionary ∧ Closed e.dictionary := by
  have hprevious := h.reads.closed _ h.reads.previous
  obtain ⟨head, -, hphrase⟩ := h.phrase
  cases hphrase with
  | found hcreate hdictionary hmem hknown =>
    refine ⟨hmem, ?_, ?_⟩
    · rw [hdictionary, List.mem_append, List.mem_singleton]
      rintro (hnil | hnil)
      · exact h.reads.nonempty hnil
      · exact List.append_ne_nil_of_right_ne_nil _ (List.cons_ne_nil _ _) hnil.symm
    · rw [hdictionary]
      refine closed_append h.reads.closed (fun entry => List.mem_append_left _) fun entry hentry hout unit hunit => ?_
      rw [List.mem_singleton.mp ((List.mem_append.mp hentry).resolve_left hout), List.mem_append, List.mem_singleton] at hunit
      rcases hunit with hunit | rfl
      · exact List.mem_append_left _ (hprevious unit hunit)
      · exact List.mem_append_left _ hknown
  | fresh hcreate hdictionary hphrase hknown =>
    refine ⟨?_, ?_, ?_⟩
    · rw [hphrase, hdictionary]
      exact List.mem_append_right _ List.mem_cons_self
    · rw [hdictionary, List.mem_append, List.mem_pair]
      rintro (hnil | hnil | hnil)
      · exact h.reads.nonempty hnil
      · cases hnil
      · exact List.append_ne_nil_of_right_ne_nil _ (List.cons_ne_nil _ _) hnil.symm
    · have hhead : [head] ∈ known ++ [[head], d.previous ++ [head]] := List.mem_append_right _ List.mem_cons_self
      rw [hdictionary]
      refine closed_append h.reads.closed (fun entry => List.mem_append_left _) fun entry hentry hout unit hunit => ?_
      rcases List.mem_pair.mp ((List.mem_append.mp hentry).resolve_left hout) with rfl | rfl
      · rw [List.mem_singleton.mp hunit]
        exact hhead
      · rcases List.mem_append.mp hunit with hunit | hunit
        · exact List.mem_append_left _ (hprevious unit hunit)
        · rw [List.mem_singleton.mp hunit]
          exact hhead

/-- The reader between a phrase's code and its entry: the entry is the phrase, and with it the reader will know what the
compressor knew. -/
structure Fetched (e e' : Encoder) (d counted : Decoder) (code : Nat) (rest : List Bool) : Prop where
  view : counted.bits.view = rest
  output : counted.output = d.output
  counts : Counts counted.dictionary.length counted.codeWidth counted.enlargeIn
  length_le : counted.dictionary.length ≤ d.dictionary.length + 1
  entry : entryOf counted.dictionary counted.previous code = .ok e.phrase
  step : d.step = counted.apply code >>= fun d' => .ok (.inr d')
  dictionary : ∀ head, e.phrase.head? = some head → counted.dictionary ++ [counted.previous ++ [head]] = reserved ++ e.dictionary
  paced : ∀ d', (∀ f, Paced f counted → Paced f.countDown d') → Paced e' d'

/-- The reader after a phrase. -/
structure Emitted (e e' : Encoder) (d d' : Decoder) (o : Utf16Output) : Prop where
  reads : Reads e.dictionary d'
  previous : d'.previous = e.phrase
  output : d'.output = o
  paced : Paced e' d'
  length_le : d'.dictionary.length ≤ d.dictionary.length + 2

@[simp] theorem countDown_toCreate (e : Encoder) : e.countDown.toCreate = e.toCreate := by
  unfold Encoder.countDown
  split
  · rfl
  · rfl

/-- The phrase is written and its code is read. What the compressor has seen of the next unit meanwhile changes nothing. -/
theorem Builds.fetch (h : Builds known e d) (hsmall : d.dictionary.length + 2 < 2 ^ 32) (hunits : ∀ unit ∈ e.phrase, unit < 2 ^ 16)
    {seen : List (List Nat)} (hseen : e.phrase ∉ seen) {e' : Encoder}
    (he' : e' = { e with dictionary := e.dictionary ++ seen, toCreate := e.toCreate ++ seen }) {rest : List Bool}
    (hview : d.bits.view = e'.write.1 ++ rest) (hrest : rest ≠ []) :
    ∃ counted code, e'.write.2.toCreate = seen ∧ Fetched e e'.write.2 d counted code rest := by
  have hmem := h.dictionary.1
  obtain ⟨head, hhead, hphrase⟩ := h.phrase
  subst he'
  cases hphrase with
  | found hcreate hdictionary hin hknown =>
    have hnot : e.phrase ∉ e.toCreate ++ seen := by
      rw [hcreate]
      exact hseen
    have hcode : (e.dictionary ++ seen).idxOf e.phrase = (known ++ [d.previous ++ [head]]).idxOf e.phrase := by
      rw [List.idxOf_append_of_mem hmem, hdictionary]
    rw [Encoder.write, if_neg hnot] at hview ⊢
    change d.bits.view = writeBits e.numBits (3 + (e.dictionary ++ seen).idxOf e.phrase) ++ rest at hview
    rw [h.paced.1, hcode] at hview
    obtain ⟨b, code, hview, hentry, hstep⟩ := read_known h.reads (by omega) hhead (hdictionary ▸ hmem) hview hrest
    refine ⟨{ d with bits := b }, code, ?_, hview, rfl, h.reads.counts, Nat.le_succ _, hentry, hstep, fun first hfirst => ?_, fun d' hd' => ?_⟩
    · rw [countDown_toCreate]
      exact congrArg (· ++ seen) hcreate
    · obtain rfl := Option.some.inj (hhead.symm.trans hfirst)
      change d.dictionary ++ _ = _
      rw [h.reads.dictionary, List.append_assoc, hdictionary]
    · exact hd' _ h.paced
  | fresh hcreate hdictionary hphrase hknown =>
    have hin : e.phrase ∈ e.toCreate ++ seen := by
      rw [hcreate, hphrase]
      exact List.mem_append_left _ List.mem_cons_self
    have herase : (e.toCreate ++ seen).erase e.phrase = seen := by
      rw [hcreate, hphrase, List.singleton_append, List.erase_cons_head]
    rw [Encoder.write, if_pos hin] at hview ⊢
    change d.bits.view = literalBits e.numBits (e.phrase.headD 0) ++ rest at hview
    rw [h.paced.1, hphrase] at hview
    rw [hphrase] at hunits
    obtain ⟨counted, code, hview, hd, hprevious, hout, hcounts, hpaced, hentry, hstep⟩ :=
      read_literal h.reads (by omega) (hunits head List.mem_cons_self) hview hrest
    refine ⟨counted, code, ?_, hview, hout, hcounts, ?_, hphrase ▸ hentry, hstep, fun first hfirst => ?_, fun d' hd' => ?_⟩
    · rw [countDown_toCreate, countDown_toCreate]
      exact herase
    · rw [hd, h.reads.dictionary, List.length_append]
      rfl
    · obtain rfl := Option.some.inj (hhead.symm.trans hfirst)
      rw [hd, hprevious, hdictionary, List.append_assoc, List.append_assoc]
      rfl
    · exact hd' _ (hpaced _ h.paced)

/-- The phrase is put out. -/
theorem Builds.emit (h : Builds known e d) (hsmall : d.dictionary.length + 2 < 2 ^ 32) {e' : Encoder} {counted : Decoder} {code : Nat}
    {rest : List Bool} (hfetched : Fetched e e' d counted code rest) {o : Utf16Output} (houtput : d.output.append e.phrase = .ok o) :
    ∃ d', d.step = .ok (.inr d') ∧ d'.bits.view = rest ∧ Emitted e e' d d' o := by
  obtain ⟨hmem, hnonempty, hclosed⟩ := h.dictionary
  obtain ⟨head, hhead, -⟩ := h.phrase
  have hlength := hfetched.length_le
  obtain ⟨d', happly, happlied⟩ := apply_spec hfetched.counts (by omega) hfetched.entry hhead (hfetched.output ▸ houtput)
  have hd := happlied.dictionary.trans (hfetched.dictionary head hhead)
  refine ⟨d', ?_, happlied.bits ▸ hfetched.view, ⟨hd, happlied.previous ▸ hmem, hnonempty, hclosed, happlied.counts⟩,
    happlied.previous, happlied.output, hfetched.paced d' happlied.paced, ?_⟩
  · rw [hfetched.step, happly]
    rfl
  · rw [happlied.dictionary, List.length_append]
    exact Nat.add_le_add_right hlength 1

/-- The phrase goes on only where it was found. -/
theorem Builds.longer (h : Builds known e d) {unit : Nat} (hmem : e.phrase ++ [unit] ∈ e.dictionary) :
    Builds known { e with phrase := e.phrase ++ [unit] } d := by
  obtain ⟨head, hhead, hphrase⟩ := h.phrase
  have hhead' : (e.phrase ++ [unit]).head? = some head := by rw [List.head?_append, hhead]; rfl
  cases hphrase with
  | found hcreate hdictionary _ hknown => exact ⟨h.reads, h.paced, head, hhead', .found hcreate hdictionary hmem hknown⟩
  | fresh hcreate hdictionary hphrase hknown =>
    rw [hphrase, hdictionary, List.mem_append, List.mem_pair] at hmem
    refine absurd ?_ hknown
    rcases hmem with hin | hsame | hsame
    · exact h.reads.closed _ hin head List.mem_cons_self
    · cases hsame
    · have hprevious : [head] = d.previous := (List.append_inj_left' hsame rfl)
      rw [hprevious]
      exact h.reads.previous

end builds

/-- What the compressor sees of the next unit: nothing new, or a unit that its dictionary does not have. -/
inductive Seen (e : Encoder) (unit : Nat) : List (List Nat) → Prop where
  | known (hmem : [unit] ∈ e.dictionary) : Seen e unit []
  | new (hmem : [unit] ∉ e.dictionary) : Seen e unit [[unit]]

theorem see_eq (e : Encoder) (unit : Nat) :
    ∃ seen, Seen e unit seen ∧ e.see unit = { e with dictionary := e.dictionary ++ seen, toCreate := e.toCreate ++ seen } := by
  rw [Encoder.see]
  by_cases hmem : [unit] ∈ e.dictionary
  · refine ⟨[], .known hmem, ?_⟩
    rw [if_pos hmem, List.append_nil, List.append_nil]
  · exact ⟨[[unit]], .new hmem, if_neg hmem⟩

section next
variable {known : List (List Nat)} {e : Encoder} {d : Decoder} {unit : Nat} {seen : List (List Nat)}

theorem Builds.not_seen (h : Builds known e d) (hseen : Seen e unit seen) : e.phrase ∉ seen := by
  cases hseen with
  | known hmem => exact List.not_mem_nil
  | new hmem =>
    intro hin
    rw [List.mem_singleton] at hin
    exact hmem (hin ▸ h.dictionary.1)

/-- A phrase that goes on is in the dictionary already without the unit just seen. -/
theorem Builds.longer_known (h : Builds known e d) (hseen : Seen e unit seen) (hmem : e.phrase ++ [unit] ∈ e.dictionary ++ seen) :
    seen = [] := by
  cases hseen with
  | known _ => rfl
  | new hnew =>
    refine absurd ?_ hnew
    rcases List.mem_append.mp hmem with hin | hin
    · exact h.dictionary.2.2 _ hin unit (List.mem_append_right _ List.mem_cons_self)
    · have hnil := List.append_left_eq_self.mp (List.mem_singleton.mp hin)
      exact absurd hnil h.phrase_ne

/-- The next phrase begins with the unit just seen. -/
theorem Emitted.next {e' : Encoder} {d' : Decoder} {o : Utf16Output} (h : Emitted e e' d d' o) (hseen : Seen e unit seen)
    (hcreate : e'.toCreate = seen) :
    Builds e.dictionary { e' with dictionary := e.dictionary ++ seen ++ [e.phrase ++ [unit]], phrase := [unit] } d' := by
  refine ⟨h.reads, h.paced, unit, rfl, ?_⟩
  cases hseen with
  | known hmem =>
    refine .found hcreate ?_ ?_ hmem
    · rw [h.previous, List.append_nil]
    · exact List.mem_append_left _ (List.mem_append_left _ hmem)
  | new hmem =>
    refine .fresh hcreate ?_ rfl hmem
    rw [h.previous, List.append_assoc]
    rfl

end next

/-- The reader reads what is left of the compressor's output. -/
theorem loop_compressFrom {units : List Nat} {known : List (List Nat)} {e : Encoder} {d : Decoder} {tail : List Bool}
    {o : Utf16Output} {text : List Char} (h : Builds known e d) (hunits : ∀ unit ∈ e.phrase ++ units, unit < 2 ^ 16)
    (hsmall : d.dictionary.length + 2 * units.length + 2 < 2 ^ 32) (hview : d.bits.view = compressFrom e units ++ tail)
    (htail : tail ≠ []) (houtput : d.output.append (e.phrase ++ units) = .ok o) (hfinish : o.finish = .ok text) :
    d.loop = .ok text := by
  induction units generalizing known e d with
  | nil =>
    rw [compressFrom, if_neg h.phrase_ne, List.append_assoc] at hview
    rw [List.append_nil] at houtput hunits
    obtain ⟨counted, code, -, hfetched⟩ := h.fetch hsmall hunits (show e.phrase ∉ [] from List.not_mem_nil)
      (by rw [List.append_nil, List.append_nil]) hview (List.append_ne_nil_of_right_ne_nil _ htail)
    obtain ⟨d', hstep, hview', hemitted⟩ := h.emit hsmall hfetched houtput
    rw [hemitted.paced.1] at hview'
    have hle := hemitted.length_le
    rw [List.length_nil] at hsmall
    rw [loop_next hstep]
    exact loop_done (step_end hemitted.reads (by omega) hview' htail (hemitted.output ▸ hfinish))
  | cons unit units ih =>
    obtain ⟨seen, hseen, hsee⟩ := see_eq e unit
    rw [List.length_cons] at hsmall
    rw [compressFrom, hsee] at hview
    simp only at hview
    by_cases hlonger : e.phrase ++ [unit] ∈ e.dictionary ++ seen
    · obtain rfl := h.longer_known hseen hlonger
      rw [if_pos hlonger, List.append_nil, List.append_nil] at hview
      rw [List.append_nil] at hlonger
      rw [List.append_cons] at houtput hunits
      exact ih (h.longer hlonger) hunits (by omega) hview houtput
    · rw [if_neg hlonger, List.append_assoc] at hview
      rw [append_append] at houtput
      obtain ⟨o', hphrase, houtput⟩ := bind_ok.mp houtput
      obtain ⟨counted, code, hcreate, hfetched⟩ := h.fetch (by omega) (fun u hu => hunits u (List.mem_append_left _ hu))
        (h.not_seen hseen) rfl hview (List.append_ne_nil_of_right_ne_nil _ htail)
      obtain ⟨d', hstep, hview', hemitted⟩ := h.emit (by omega) hfetched hphrase
      have hle := hemitted.length_le
      rw [loop_next hstep]
      refine ih (hemitted.next hseen hcreate) (fun u hu => hunits u (List.mem_append_right _ hu)) (by omega) hview' ?_
      rw [hemitted.output]
      exact houtput

end run

section whole
variable {unit maxBytes : Nat} {units : List Nat}

/-- A reader that knows one unit. -/
structure Started (unit : Nat) (d : Decoder) : Prop where
  dictionary : d.dictionary = reserved ++ [[unit]]
  previous : d.previous = [unit]
  width : d.codeWidth = 3
  enlarge : d.enlargeIn = 4

theorem Started.reads {d : Decoder} (h : Started unit d) : Reads [[unit]] d := by
  refine ⟨h.dictionary, h.previous ▸ List.mem_cons_self, fun hnil => ?_, fun entry hentry u hu => ?_, ?_⟩
  · cases List.mem_singleton.mp hnil
  · rw [List.mem_singleton.mp hentry] at hu
    rw [List.mem_singleton.mp hu]
    exact List.mem_cons_self
  · rw [h.dictionary, h.width, h.enlarge]
    exact ⟨rfl, by decide, by decide⟩

/-- What a compressor writes after its first unit: the end mark, or what it writes from the second unit on. -/
inductive After (unit : Nat) : List Nat → List Bool → Prop where
  | done : After unit [] (writeBits 3 2)
  | more {next : Nat} {rest : List Nat} {e : Encoder} (hphrase : e.phrase = [next])
      (hbuilds : ∀ d, Started unit d → Builds [[unit]] e d) : After unit (next :: rest) (compressFrom e rest)

/-- The first unit is written out with two bits for its kind; what follows is for a reader that knows it. -/
theorem compressFrom_first (unit : Nat) (units : List Nat) :
    ∃ bits, compressFrom .init (unit :: units) = literalBits 2 unit ++ bits ∧ After unit units bits := by
  have hfirst : compressFrom .init (unit :: units) = compressFrom ⟨[[unit]], [[unit]], [unit], 2, 2⟩ units := by
    rw [compressFrom]
    exact if_pos List.mem_cons_self
  cases units with
  | nil =>
    refine ⟨writeBits 3 2, ?_, .done⟩
    rw [hfirst, compressFrom, if_neg (List.cons_ne_nil _ _), Encoder.write, if_pos List.mem_cons_self]
    rfl
  | cons next units =>
    let start : Encoder := ⟨[[unit]], [[unit]], [unit], 2, 2⟩
    obtain ⟨seen, hseen, hsee⟩ := see_eq start next
    have hshort : [unit] ++ [next] ∉ [[unit]] ++ seen := by
      cases hseen with
      | known _ => exact fun h => by cases List.mem_singleton.mp h
      | new _ => exact fun h => by rcases List.mem_pair.mp h with h | h <;> cases h
    have hwrite : Encoder.write ⟨[[unit]] ++ seen, [[unit]] ++ seen, [unit], 2, 2⟩ =
        (literalBits 2 unit, ⟨[[unit]] ++ seen, seen, [unit], 4, 3⟩) := by
      rw [Encoder.write, if_pos (List.mem_append_left _ List.mem_cons_self)]
      change (_, Encoder.countDown (Encoder.countDown ⟨_, ([[unit]] ++ seen).erase [unit], _, _, _⟩)) = _
      rw [List.singleton_append, List.erase_cons_head]
      rfl
    refine ⟨compressFrom ⟨[[unit]] ++ seen ++ [[unit] ++ [next]], seen, [next], 4, 3⟩ units, ?_, .more rfl fun d hstarted => ?_⟩
    · rw [hfirst, compressFrom, hsee]
      simp only
      rw [if_neg hshort, hwrite]
    · have hemitted : Emitted start ⟨[[unit]] ++ seen, seen, [unit], 4, 3⟩ d d d.output :=
        ⟨hstarted.reads, hstarted.previous, rfl, ⟨hstarted.width.symm, hstarted.enlarge.symm⟩, Nat.le_add_right _ 2⟩
      exact hemitted.next hseen rfl

/-- A reader that knows the first unit reads the rest. -/
theorem loop_after {bits tail : List Bool} {d : Decoder} {o : Utf16Output} {text : List Char} (h : After unit units bits)
    (hd : Started unit d) (hunits : ∀ u ∈ units, u < 2 ^ 16) (hsmall : 2 * units.length + 6 < 2 ^ 32) (hview : d.bits.view = bits ++ tail)
    (htail : tail ≠ []) (houtput : d.output.append units = .ok o) (hfinish : o.finish = .ok text) : d.loop = .ok text := by
  cases h with
  | done =>
    cases houtput
    refine loop_done (step_end hd.reads ?_ (hd.width ▸ hview) htail hfinish)
    rw [hd.dictionary]
    exact (by decide : 4 < 2 ^ 32)
  | more hphrase hbuilds =>
    rw [← List.singleton_append, ← hphrase] at hunits houtput
    refine loop_compressFrom (hbuilds d hd) hunits ?_ hview htail houtput hfinish
    rw [List.length_cons] at hsmall
    rw [hd.dictionary]
    change 4 + 2 * _ + 2 < 2 ^ 32
    omega

theorem compressToBase64_digits (units : List Nat) : Digits (compressToBase64 units) := by
  intro b hb
  rcases List.mem_append.mp hb with hb | hb
  · obtain ⟨v, hv, rfl⟩ := List.mem_map.mp hb
    rw [Base64.isDigit, Base64.value_digit v (pack_lt _ v hv)]
    rfl
  · rw [List.eq_of_mem_replicate hb]
    rfl

theorem length_compressToBase64 (units : List Nat) : 4 ∣ (compressToBase64 units).length := by
  rw [compressToBase64]
  simp only [List.length_append, List.length_replicate]
  omega

private theorem keys_compressToBase64 (units : List Nat) : ∃ pads,
    (compressToBase64 units).map (fun b => (Base64.value b).getD 64) =
      pack (flush (compressFrom .init units)) ++ List.replicate pads 64 := by
  refine ⟨(4 - ((pack (flush (compressFrom .init units))).map Base64.digit).length % 4) % 4, ?_⟩
  rw [compressToBase64, List.map_append, List.map_map, List.map_replicate]
  refine congrArg (· ++ _) ?_
  conv_rhs => rw [← List.map_id (pack (flush (compressFrom .init units)))]
  refine List.map_congr_left fun v hv => ?_
  change (Base64.value (Base64.digit v)).getD 64 = v
  rw [Base64.value_digit v (pack_lt _ v hv)]
  rfl

/-- The reader sees the compressor's bits, and more after them. -/
private theorem view_compressToBase64 (units : List Nat) : ∃ b tail,
    Bits.new ((compressToBase64 units).map fun b => (Base64.value b).getD 64) = some b ∧
      b.view = compressFrom .init units ++ tail ∧ tail ≠ [] := by
  obtain ⟨pads, hkeys⟩ := keys_compressToBase64 units
  rw [hkeys]
  generalize compressFrom .init units = bits
  have hview := pack_view (flush bits) (flush_length bits)
  have hpad : List.replicate (6 - bits.length % 6) false ≠ [] := by
    rw [Ne, List.replicate_eq_nil_iff]
    omega
  cases hpack : pack (flush bits) with
  | nil =>
    rw [hpack, flush] at hview
    exact absurd (List.append_eq_nil_iff.mp hview.symm).2 hpad
  | cons v rest =>
    refine ⟨⟨v, rest ++ List.replicate pads 64, 5⟩,
      List.replicate (6 - bits.length % 6) false ++ (List.replicate pads 64).flatMap (bitsDown · 5), rfl, ?_,
      List.append_ne_nil_of_left_ne_nil hpad _⟩
    rw [hpack, flush, List.flatMap_cons] at hview
    rw [Bits.view, List.flatMap_append, ← List.append_assoc, hview, List.append_assoc]

theorem looksLikeBase64_compress (units : List Nat) : looksLikeBase64 (compressToBase64 units) = true := by
  refine (looksLikeBase64_iff _).mpr ⟨fun hnil => ?_, length_compressToBase64 units, compressToBase64_digits units⟩
  obtain ⟨b, tail, hnew, -⟩ := view_compressToBase64 units
  rw [hnil] at hnew
  cases hnew

/-- The reader of what a compressor wrote, from the first unit on. -/
theorem decompress_first (maxBytes : Nat) (unit : Nat) (units : List Nat) (hunits : ∀ u ∈ unit :: units, u < 2 ^ 16) :
    ∃ bits b tail, After unit units bits ∧ Bits.view b = bits ++ tail ∧ tail ≠ [] ∧
      decompressLz64Bounded (asciiText (compressToBase64 (unit :: units))) maxBytes = Decoder.first b unit maxBytes >>= Decoder.loop := by
  have hkeys := mapM_indexOfUnit (compressToBase64_digits (unit :: units))
  obtain ⟨b, tail, hnew, hview, htail⟩ := view_compressToBase64 (unit :: units)
  obtain ⟨bits, hbits, hafter⟩ := compressFrom_first unit units
  obtain ⟨code, hcode, hliteral, hunit⟩ := literalBits_eq 2 (hunits unit List.mem_cons_self)
  rw [hbits, hliteral, List.append_assoc, List.append_assoc] at hview
  have hne := List.append_ne_nil_of_right_ne_nil bits htail
  obtain ⟨b', hread, hview⟩ := readBits_writeBits hview (List.append_ne_nil_of_right_ne_nil _ hne) (by decide) (by omega)
  obtain ⟨b'', hread', hview⟩ := readBits_writeBits hview hne (by omega) hunit
  refine ⟨bits, b'', tail, hafter, hview, htail, ?_⟩
  rw [decompress_start hkeys hnew hread, if_pos hcode, hread']
  rfl

theorem utf16_ne_nil {text : List Char} (h : text ≠ []) : utf16 text ≠ [] := by
  obtain ⟨c, rest, rfl⟩ := List.exists_cons_of_ne_nil h
  rw [utf16, List.flatMap_cons, utf16Char]
  split <;> exact List.cons_ne_nil _ _

/-- What lz-string writes is read as the text it was written from. -/
theorem decompress_compress {text : List Char} {maxBytes : Nat} (htext : text ≠ []) (hlen : (utf8 text).length ≤ maxBytes)
    (hsmall : (utf8 text).length ≤ 2 ^ 30) :
    decompressLz64Bounded (asciiText (compressToBase64 (utf16 text))) maxBytes = .ok text := by
  have hlength := length_utf16_le text
  have hall := utf16_lt text
  have houtput := append_utf16 (o := ⟨[], none, maxBytes⟩) rfl text (by exact (Nat.zero_add _).le.trans hlen)
  obtain ⟨unit, units, hunits⟩ := List.exists_cons_of_ne_nil (utf16_ne_nil htext)
  rw [hunits] at hlength hall houtput ⊢
  rw [List.length_cons] at hlength
  obtain ⟨bits, b, tail, hafter, hview, htail, hdecompress⟩ := decompress_first maxBytes unit units hall
  rw [append_cons] at houtput
  obtain ⟨o, hfirst, houtput⟩ := bind_ok.mp houtput
  rw [hdecompress, Decoder.first, append_cons, hfirst]
  exact loop_after hafter ⟨rfl, rfl, rfl, rfl⟩ (fun u hu => hall u (List.mem_cons_of_mem _ hu)) (by omega) hview htail houtput rfl

/-- The first character of a text's lz-string form, for a text that starts with a brace or a bracket. -/
theorem compressToBase64_head (units : List Nat) (h : unit = 123 ∨ unit = 91) : ∃ rest, compressToBase64 (unit :: units) = Base64.digit 13 :: rest := by
  obtain ⟨bits, hbits, -⟩ := compressFrom_first unit units
  rw [compressToBase64, hbits]
  rcases h with rfl | rfl
  · exact ⟨_, rfl⟩
  · exact ⟨_, rfl⟩

end whole
end Hoglet.Capture.Lz
