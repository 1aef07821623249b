import Hoglet.Capture.Base64
import Hoglet.Capture.LzString

/-! Payload decoding for the capture endpoints: the form field, base64, gzip, lz-string and raw text. -/
namespace Hoglet.Capture
open Json Lz

/-- Hard ceiling on the decoded size. -/
def maxDecompressedBytes : Nat := 64 * 1024 * 1024
def maxBatchBodyBytes : Nat := 20 * 1024 * 1024
def maxEventDecodedBytes : Nat := 16 * 1024 * 1024
def maxBatchDecodedBytes : Nat := 32 * 1024 * 1024

/-- The limit that the capture handler decodes a body with. -/
def decodedLimit (batch : Bool) (bodyLength : Nat) : Nat :=
  max (if batch then maxBatchDecodedBytes else maxEventDecodedBytes) bodyLength

def gzipMagic : List UInt8 := [0x1f, 0x8b]

/-- What a gzip decoder's reads return: chunks, and then the end or an error. -/
structure GzipReads where
  chunks : List (List UInt8)
  ends : Bool

/-- The gzip library. -/
structure Gzip where
  encode : List UInt8 → List UInt8
  read : List UInt8 → GzipReads

/-- Gzip is read back: the encoder's output starts with the magic bytes, and the decoder's reads give the input. -/
structure Gzip.ReadsBack (gz : Gzip) (bytes : List UInt8) : Prop where
  magic : gzipMagic <+: gz.encode bytes
  chunks : (gz.read (gz.encode bytes)).chunks.flatten = bytes
  ends : (gz.read (gz.encode bytes)).ends = true

/-- Adds the chunks to the output as long as it stays within the limit. -/
def gatherChunks (ends : Bool) (maxBytes : Nat) (out : List UInt8) : List (List UInt8) → Except DecodeError (List UInt8)
  | [] => if ends then .ok out else .error .undecodable
  | chunk :: rest =>
    if maxBytes < out.length + chunk.length then .error .tooLarge else gatherChunks ends maxBytes (out ++ chunk) rest

def gunzipBounded (gz : Gzip) (payload : List UInt8) (maxBytes : Nat) : Except DecodeError (List UInt8) :=
  let reads := gz.read payload
  gatherChunks reads.ends maxBytes [] reads.chunks

def isAsciiAlphanumeric (b : UInt8) : Bool := (48 ≤ b && b ≤ 57) || (65 ≤ b && b ≤ 90) || (97 ≤ b && b ≤ 122)

def looksLikeBase64 (payload : List UInt8) : Bool :=
  !payload.isEmpty && payload.length % 4 = 0 && payload.all fun b => isAsciiAlphanumeric b || b = 43 || b = 47 || b = 61

def hexValue (b : UInt8) : Option Nat :=
  let n := b.toNat
  if 48 ≤ n ∧ n ≤ 57 then some (n - 48)
  else if 97 ≤ n ∧ n ≤ 102 then some (n - 87)
  else if 65 ≤ n ∧ n ≤ 70 then some (n - 55)
  else none

/-- `u8::from_str_radix(…, 16)` of two bytes: a plus sign may stand in front. -/
def hexByte (high low : UInt8) : Option UInt8 :=
  if high = 43 then (hexValue low).map UInt8.ofNat
  else do return UInt8.ofNat ((← hexValue high) * 16 + (← hexValue low))

/-- A percent sign counts only with two bytes after it. -/
def percentDecode : List UInt8 → Option (List UInt8)
  | b :: high :: low :: rest =>
    if b = 37 then do return (← hexByte high low) :: (← percentDecode rest)
    else do return b :: (← percentDecode (high :: low :: rest))
  | bytes => some bytes

def urlencodingDecode (value : List Char) : Except DecodeError (List Char) :=
  let withSpaces := value.map fun c => if c = '+' then ' ' else c
  orUndecodable ((percentDecode (utf8 withSpaces)).bind ofUtf8)

/-- `pair.split_once('=').unwrap_or((pair, ""))`. -/
def splitPair (pair : List Char) : List Char × List Char :=
  (pair.takeWhile (· ≠ '='), (pair.dropWhile (· ≠ '=')).tail)

/-- The last data and compression fields of the pairs. -/
def formFields (data hint : Option (List Char)) : List (List Char) →
    Except DecodeError (Option (List Char) × Option (List Char))
  | [] => .ok (data, hint)
  | pair :: rest => do
    let (key, value) := splitPair pair
    if key = "data".toList then formFields (some (← urlencodingDecode value)) hint rest
    else if key = "compression".toList then formFields data (some value) rest
    else formFields data hint rest

/-- Spaces are restored to plus signs where that makes the field look like base64. -/
def restorePlus (data : List Char) : List Char :=
  if ' ' ∈ data then
    let restored := data.map fun c => if c = ' ' then '+' else c
    if looksLikeBase64 (utf8 restored) then restored else data
  else data

/-- Parse `data=<json-or-base64>&compression=<hint>`. -/
def parseForm (body : List UInt8) : Except DecodeError (List UInt8 × Option (List Char)) := do
  let text ← orUndecodable (ofUtf8 body)
  let (data, hint) ← formFields none none (text.splitOn '&')
  let data ← orUndecodable data
  return (utf8 (restorePlus data), hint)

/-- The hints that open the lz-string route. -/
def isLzHint (hint : Option (List Char)) : Bool := hint = some "lz64".toList || hint = some "lz-string".toList

/-- The payload with one layer of base64 taken off, where it has one. -/
def unwrapBase64 (payload : List UInt8) : List UInt8 :=
  if looksLikeBase64 payload then (Base64.decode payload).getD payload else payload

/-- An answer of the lz-string route; what cannot be decoded is left to the next route. -/
def tryLz (text : Option (List Char)) (maxBytes : Nat) (next : Except DecodeError (List Char)) : Except DecodeError (List Char) :=
  match text with
  | none => next
  | some text =>
    match decompressLz64Bounded text maxBytes with
    | .error .undecodable => next
    | answer => answer

/-- The raw route. -/
def rawText (payload : List UInt8) (maxBytes : Nat) : Except DecodeError (List Char) :=
  if maxBytes < payload.length then .error .tooLarge else orUndecodable (ofUtf8 payload)

/-- Decodes a payload that came under a hint: gzip by its magic bytes, lz-string under its hint as sent and then without
its base64 wrapper, and else raw text. -/
def decodePayload (gz : Gzip) (payload : List UInt8) (hint : Option (List Char)) (maxBytes : Nat) :
    Except DecodeError (List Char) :=
  let lzPayload := if isLzHint hint then ofUtf8 payload else none
  let payload := unwrapBase64 payload
  if gzipMagic.isPrefixOf payload then do orUndecodable (ofUtf8 (← gunzipBounded gz payload maxBytes))
  else if isLzHint hint then
    let inner := (ofUtf8 payload).filter fun text => lzPayload ≠ some text
    tryLz lzPayload maxBytes (tryLz inner maxBytes (rawText payload maxBytes))
  else rawText payload maxBytes

def decodeLimited (gz : Gzip) (body : List UInt8) (formEncoded : Bool) (compressionHint : Option (List Char)) (maxBytes : Nat) :
    Except DecodeError (List Char) :=
  if formEncoded then
    match parseForm body with
    | .ok (data, formHint) => decodePayload gz data (formHint.or compressionHint) maxBytes
    | .error _ => decodePayload gz body compressionHint maxBytes
  else decodePayload gz body compressionHint maxBytes

/-- No caller's limit goes past the hard ceiling. -/
theorem decodedLimit_le (batch : Bool) {bodyLength : Nat} (h : bodyLength ≤ maxBatchBodyBytes) :
    decodedLimit batch bodyLength ≤ maxDecompressedBytes := by
  unfold decodedLimit maxDecompressedBytes maxEventDecodedBytes maxBatchDecodedBytes
  unfold maxBatchBodyBytes at h
  split <;> omega

end Hoglet.Capture
