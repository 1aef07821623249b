import Hoglet.Capture.Base64
import Hoglet.Capture.LzString

/-! The reference definition of lz-string's compressor, into its base64 form. -/
namespace Hoglet.Capture.Lz

/-- The compressor between two units. Codes count the dictionary's entries from 3 on. -/
structure Encoder where
  dictionary : List (List Nat)
  /-- The entries of one unit that are still to be written out. -/
  toCreate : List (List Nat)
  phrase : List Nat
  enlargeIn : Nat
  numBits : Nat

def Encoder.init : Encoder := ⟨[], [], [], 2, 2⟩

/-- A number's lowest bits, the lowest first. -/
def writeBits (count value : Nat) : List Bool := (List.range' 0 count).map value.testBit

def Encoder.countDown (e : Encoder) : Encoder :=
  if e.enlargeIn - 1 = 0 then { e with enlargeIn := 2 ^ e.numBits, numBits := e.numBits + 1 }
  else { e with enlargeIn := e.enlargeIn - 1 }

/-- A unit that the dictionary does not have yet. -/
def literalBits (numBits unit : Nat) : List Bool :=
  if unit < 256 then writeBits numBits 0 ++ writeBits 8 unit else writeBits numBits 1 ++ writeBits 16 unit

/-- Writes the phrase's code. -/
def Encoder.write (e : Encoder) : List Bool × Encoder :=
  if e.phrase ∈ e.toCreate then
    (literalBits e.numBits (e.phrase.headD 0), { e with toCreate := e.toCreate.erase e.phrase }.countDown.countDown)
  else (writeBits e.numBits (3 + e.dictionary.idxOf e.phrase), e.countDown)

def Encoder.see (e : Encoder) (unit : Nat) : Encoder :=
  if [unit] ∈ e.dictionary then e
  else { e with dictionary := e.dictionary ++ [[unit]], toCreate := e.toCreate ++ [[unit]] }

/-- The bits that a compressor writes for the rest of its input, up to the end mark. -/
def compressFrom (e : Encoder) : List Nat → List Bool
  | [] => if e.phrase = [] then writeBits e.numBits 2 else e.write.1 ++ writeBits e.write.2.numBits 2
  | unit :: rest =>
    let e := e.see unit
    let longer := e.phrase ++ [unit]
    if longer ∈ e.dictionary then compressFrom { e with phrase := longer } rest
    else e.write.1 ++ compressFrom { e.write.2 with dictionary := e.dictionary ++ [longer], phrase := [unit] } rest

/-- The last character is filled up with zeros, at least one. -/
def flush (bits : List Bool) : List Bool := bits ++ List.replicate (6 - bits.length % 6) false

/-- Six bits to a character, the first the highest. -/
def pack : List Bool → List Nat
  | a :: b :: c :: d :: e :: f :: rest =>
    (a.toNat * 32 + b.toNat * 16 + c.toNat * 8 + d.toNat * 4 + e.toNat * 2 + f.toNat) :: pack rest
  | _ => []

def compressToBase64 (units : List Nat) : List UInt8 :=
  let res := (pack (flush (compressFrom .init units))).map Base64.digit
  res ++ List.replicate ((4 - res.length % 4) % 4) Base64.pad

end Hoglet.Capture.Lz
