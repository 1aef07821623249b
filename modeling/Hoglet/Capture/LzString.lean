import Hoglet.Checks
import Hoglet.Json.Utf8

/-! The bounded reader of lz-string's base64 form. -/
namespace Hoglet.Capture
open Json

inductive DecodeError where
  /-- The payload could not be decoded to text by any accepted route. -/
  | undecodable
  | tooLarge
  deriving DecidableEq, Repr

/-- A character's UTF-16 code units. -/
def utf16Char (c : Char) : List Nat :=
  if c.toNat < 0x10000 then [c.toNat] else [0xD800 + (c.toNat - 0x10000) / 1024, 0xDC00 + (c.toNat - 0x10000) % 1024]

def utf16 (text : List Char) : List Nat := text.flatMap utf16Char

/-- `char::from_u32`. -/
def charFromU32 (n : Nat) : Option Char := if h : n.isValidChar then some (Char.ofNatAux n h) else none

namespace Lz

/-- A character's value is its place; `=` stands for 64, whose low six bits are zero. -/
def base64Key : List Char := "ABCDEFGHIJKLMNOPQRSTUVWXYZabcdefghijklmnopqrstuvwxyz0123456789+/=".toList

def indexOfUnit (unit : Nat) : Option Nat := base64Key.findIdx? (·.toNat = unit)

/-- `position` is `1 << place`. -/
structure Bits where
  value : Nat
  input : List Nat
  place : Nat

def Bits.new : List Nat → Option Bits
  | [] => none
  | value :: input => some ⟨value, input, 5⟩

/-- The next value is fetched together with the last bit of the one before. -/
def Bits.readBit (b : Bits) : Option (Bool × Bits) :=
  match b.place with
  | place + 1 => some (b.value.testBit b.place, { b with place := place })
  | 0 => do return (b.value.testBit 0, ← Bits.new b.input)

/-- The bits from the given one on, shifted into a `u32`. -/
def Bits.readBitsFrom (bit : Nat) : Nat → Nat → Bits → Option (Nat × Bits)
  | 0, result, b => some (result, b)
  | count + 1, result, b => do
    let (set, b) ← b.readBit
    Bits.readBitsFrom (bit + 1) count (result ||| (if set then 1 <<< (bit % 32) else 0)) b

def Bits.readBits (b : Bits) (count : Nat) : Option (Nat × Bits) := Bits.readBitsFrom 0 count 0 b

/-- How many bits are left to read. -/
def Bits.left (b : Bits) : Nat := b.place + 6 * b.input.length

structure Utf16Output where
  text : List Char
  pendingHighSurrogate : Option Nat
  maximumBytes : Nat

/-- The character that a unit ends, after a pending high surrogate if there is one. -/
def scalarOf (pending : Option Nat) (unit : Nat) : Option Char :=
  match pending with
  | some high =>
    if 0xDC00 ≤ unit ∧ unit ≤ 0xDFFF then charFromU32 (0x10000 + (high - 0xD800) * 1024 + (unit - 0xDC00)) else none
  | none => if 0xDC00 ≤ unit ∧ unit ≤ 0xDFFF then none else charFromU32 unit

def Utf16Output.appendUnit (o : Utf16Output) (unit : Nat) : Except DecodeError Utf16Output :=
  if o.pendingHighSurrogate = none ∧ 0xD800 ≤ unit ∧ unit ≤ 0xDBFF then .ok { o with pendingHighSurrogate := some unit }
  else match scalarOf o.pendingHighSurrogate unit with
    | none => .error .undecodable
    | some character =>
      if o.maximumBytes < (utf8 o.text).length + character.utf8Size then .error .tooLarge
      else .ok { o with text := o.text ++ [character], pendingHighSurrogate := none }

def Utf16Output.append (o : Utf16Output) : List Nat → Except DecodeError Utf16Output
  | [] => .ok o
  | unit :: units => do (← o.appendUnit unit).append units

def Utf16Output.finish (o : Utf16Output) : Except DecodeError (List Char) :=
  if o.pendingHighSurrogate.isSome then .error .undecodable else .ok o.text

/-- The reader between two codes. The countdown is never at zero there, so that it is only a literal after which a code
widens before its entry is read. -/
structure Decoder where
  bits : Bits
  dictionary : List (List Nat)
  previous : List Nat
  output : Utf16Output
  codeWidth : Nat
  enlargeIn : Nat
  wide : 0 < codeWidth
  counting : 0 < enlargeIn

def orUndecodable {α : Type} : Option α → Except DecodeError α
  | some a => .ok a
  | none => .error .undecodable

theorem orUndecodable_ok {α : Type} {x : Option α} {a : α} : orUndecodable x = .ok a ↔ x = some a := by
  cases x with
  | none => exact ⟨fun h => (by cases h), fun h => (by cases h)⟩
  | some b => rw [orUndecodable, Except.ok.injEq, Option.some.injEq]

/-- An entry was made: the countdown goes on, and at its end codes get wider and it starts anew. -/
def Decoder.countDown (d : Decoder) : Except DecodeError Decoder :=
  if h : d.enlargeIn - 1 = 0 then
    if 64 ≤ d.codeWidth then .error .tooLarge
    else .ok { d with
      codeWidth := d.codeWidth + 1, enlargeIn := 2 ^ d.codeWidth
      wide := Nat.succ_pos _, counting := Nat.two_pow_pos _ }
  else .ok { d with enlargeIn := d.enlargeIn - 1, counting := Nat.pos_of_ne_zero h }

/-- The entry of a code; the code after the last one repeats the previous entry's first unit. -/
def entryOf (dictionary : List (List Nat)) (previous : List Nat) (index : Nat) : Except DecodeError (List Nat) :=
  match dictionary[index]? with
  | some known => .ok known
  | none =>
    if index = dictionary.length then do return previous ++ [← orUndecodable previous.head?] else .error .undecodable

/-- What follows a code other than the closing one: its entry, and the dictionary's next. -/
def Decoder.apply (d : Decoder) (index : Nat) : Except DecodeError Decoder := do
  let entry ← entryOf d.dictionary d.previous index
  let output ← d.output.append entry
  let next := d.previous ++ [← orUndecodable entry.head?]
  Decoder.countDown { d with dictionary := d.dictionary ++ [next], previous := entry, output := output }

/-- A unit that the dictionary does not have yet, and its code. -/
def Decoder.literal (d : Decoder) (width : Nat) : Except DecodeError (Nat × Decoder) := do
  let (unit, bits) ← orUndecodable (d.bits.readBits width)
  let code := d.dictionary.length
  if 2 ^ 32 ≤ code then .error .tooLarge
  else return (code, ← Decoder.countDown { d with bits := bits, dictionary := d.dictionary ++ [[unit]] })

/-- One turn of the loop: the finished text, or the reader before the next code. -/
def Decoder.step (d : Decoder) : Except DecodeError (List Char ⊕ Decoder) := do
  let (code, bits) ← orUndecodable (d.bits.readBits d.codeWidth)
  let d := { d with bits := bits }
  if code ≤ 1 then
    let (code, d) ← d.literal (code * 8 + 8)
    return .inr (← d.apply code)
  else if code = 2 then return .inl (← d.output.finish)
  else return .inr (← d.apply code)

theorem Bits.new_left {input : List Nat} {b : Bits} (h : Bits.new input = some b) : b.left < 6 * input.length := by
  cases input with
  | nil => cases h
  | cons value input =>
    cases h
    simp only [Bits.left, List.length_cons]
    omega

theorem Bits.readBit_left {b b' : Bits} {set : Bool} (h : b.readBit = some (set, b')) : b'.left < b.left := by
  unfold Bits.readBit at h
  split at h
  · rename_i place hplace
    cases h
    simp only [Bits.left]
    omega
  · rename_i hplace
    obtain ⟨next, hnew, h⟩ := Option.bind_eq_some_iff.mp h
    cases h
    have := Bits.new_left hnew
    simp only [Bits.left, hplace] at this ⊢
    omega

theorem Bits.readBitsFrom_left {bit count result r : Nat} {b b' : Bits}
    (h : Bits.readBitsFrom bit count result b = some (r, b')) : b'.left + count ≤ b.left := by
  induction count generalizing bit result b with
  | zero =>
    cases h
    exact Nat.le_refl _
  | succ count ih =>
    obtain ⟨⟨set, b''⟩, hbit, h⟩ := Option.bind_eq_some_iff.mp h
    have := ih h
    have := Bits.readBit_left hbit
    omega

theorem Decoder.countDown_bits {d d' : Decoder} (h : d.countDown = .ok d') : d'.bits = d.bits := by
  unfold Decoder.countDown at h
  split at h
  · split at h
    · cases h
    · cases h; rfl
  · cases h; rfl

theorem Decoder.apply_bits {d d' : Decoder} {index : Nat} (h : d.apply index = .ok d') : d'.bits = d.bits := by
  obtain ⟨entry, -, h⟩ := bind_ok.mp h
  obtain ⟨output, -, h⟩ := bind_ok.mp h
  obtain ⟨first, -, h⟩ := bind_ok.mp h
  exact (Decoder.countDown_bits h).trans rfl

/-- Every turn of the loop reads at least one bit. -/
theorem Decoder.step_left {d d' : Decoder} (h : d.step = .ok (.inr d')) : d'.bits.left < d.bits.left := by
  obtain ⟨⟨code, bits⟩, hbits, h⟩ := bind_ok.mp h
  have hread := Bits.readBitsFrom_left (orUndecodable_ok.mp hbits)
  have hwide := d.wide
  suffices hle : d'.bits.left ≤ bits.left by omega
  change (if code ≤ 1 then _ else _) = _ at h
  split at h
  · obtain ⟨⟨code', next⟩, hliteral, h⟩ := bind_ok.mp h
    obtain ⟨d'', happly, h⟩ := bind_ok.mp h
    cases h
    obtain ⟨⟨unit, rest⟩, hunit, hliteral⟩ := bind_ok.mp hliteral
    change (if _ then _ else _) = _ at hliteral
    split at hliteral
    · cases hliteral
    · obtain ⟨counted, hcount, hliteral⟩ := bind_ok.mp hliteral
      cases hliteral
      have := Bits.readBitsFrom_left (orUndecodable_ok.mp hunit)
      rw [Decoder.apply_bits happly, Decoder.countDown_bits hcount]
      change rest.left ≤ bits.left
      change rest.left + _ ≤ bits.left at this
      omega
  split at h
  · obtain ⟨text, -, h⟩ := bind_ok.mp h
    cases h
  · obtain ⟨d'', happly, h⟩ := bind_ok.mp h
    cases h
    exact (congrArg Bits.left (Decoder.apply_bits happly)).le

/-- The loop runs until the closing code or an error. -/
def Decoder.loop (d : Decoder) : Except DecodeError (List Char) :=
  match _h : d.step with
  | .error e => .error e
  | .ok (.inl text) => .ok text
  | .ok (.inr d') => d'.loop
termination_by d.bits.left
decreasing_by exact Decoder.step_left _h

theorem Decoder.loop_eq (d : Decoder) : d.loop = match d.step with
    | .error e => .error e
    | .ok (.inl text) => .ok text
    | .ok (.inr d') => d'.loop := by
  rw [Decoder.loop]
  split
  · rename_i h
    rw [h]
  · rename_i h
    rw [h]
  · rename_i h
    rw [h]

/-- The reader after the first unit. -/
def Decoder.first (bits : Bits) (unit maximumBytes : Nat) : Except DecodeError Decoder := do
  let output ← Utf16Output.append ⟨[], none, maximumBytes⟩ [unit]
  return ⟨bits, [[0], [1], [2], [unit]], [unit], output, 3, 4, by decide, by decide⟩

def decompressLz64Bounded (payload : List Char) (maximumBytes : Nat) : Except DecodeError (List Char) := do
  let encoded ← orUndecodable ((utf16 payload).mapM indexOfUnit)
  let bits ← orUndecodable (Bits.new encoded)
  let (initialCode, bits) ← orUndecodable (bits.readBits 2)
  if initialCode ≤ 1 then
    let (unit, bits) ← orUndecodable (bits.readBits (initialCode * 8 + 8))
    (← Decoder.first bits unit maximumBytes).loop
  else if initialCode = 2 then .ok []
  else .error .undecodable

end Lz
end Hoglet.Capture
