import Mathlib.Data.List.Basic
import Mathlib.Tactic

/-! JSON text: a compact printer and a recursive-descent reader with a budget of nested containers.
Numbers are a parameter; objects keep their members in textual order, duplicates included. -/
namespace Hoglet.Json

/-- The characters a number literal is made of. -/
def isNumberChar (c : Char) : Bool := c.isDigit || c ∈ ['+', '-', '.', 'e', 'E']

/-- A text after which no number literal goes on. -/
def EndsNumber (rest : List Char) : Prop := ∀ c ∈ rest.head?, isNumberChar c = false

/-- The characters a number literal begins with. -/
abbrev StartsNumber (c : Char) : Prop := c = '-' ∨ c.isDigit

/-- The numbers of a JSON library: how one is printed and how a literal is read. Literals re-read to
the number they were printed from. -/
structure Numbers (ν : Type) where
  text : ν → List Char
  lex : List Char → Option (ν × List Char)
  text_start : ∀ n, ∃ c cs, text n = c :: cs ∧ StartsNumber c
  lex_text : ∀ n rest, EndsNumber rest → lex (text n ++ rest) = some (n, rest)
  lex_split : ∀ cs n rest, lex cs = some (n, rest) → ∃ pre, cs = pre ++ rest ∧ ∀ c ∈ pre, isNumberChar c

inductive Value (ν : Type) where
  | null
  | bool (b : Bool)
  | number (n : ν)
  | string (s : String)
  | array (items : List (Value ν))
  | object (members : List (String × Value ν))

section nesting
variable {ν : Type}

mutual
/-- How many containers deep a value nests. -/
def nesting : Value ν → Nat
  | .array items => nestingItems items + 1
  | .object members => nestingMembers members + 1
  | _ => 0
def nestingItems : List (Value ν) → Nat
  | [] => 0
  | v :: vs => max (nesting v) (nestingItems vs)
def nestingMembers : List (String × Value ν) → Nat
  | [] => 0
  | m :: ms => max (nesting m.2) (nestingMembers ms)
end

theorem nestingItems_le {d : Nat} (items : List (Value ν)) :
    nestingItems items ≤ d ↔ ∀ v ∈ items, nesting v ≤ d := by
  induction items with
  | nil => simp [nestingItems]
  | cons v vs ih => simp [nestingItems, ih]

theorem nestingMembers_le {d : Nat} (members : List (String × Value ν)) :
    nestingMembers members ≤ d ↔ ∀ m ∈ members, nesting m.2 ≤ d := by
  induction members with
  | nil => simp [nestingMembers]
  | cons m ms ih => simp [nestingMembers, ih]

end nesting

/-! Printing. -/

def hexDigit (n : Nat) : Char := if n < 10 then Char.ofNat (48 + n) else Char.ofNat (87 + n)

def escapeChar (c : Char) : List Char :=
  if c = '"' then ['\\', '"']
  else if c = '\\' then ['\\', '\\']
  else if c = '\x08' then ['\\', 'b']
  else if c = '\t' then ['\\', 't']
  else if c = '\n' then ['\\', 'n']
  else if c = '\x0c' then ['\\', 'f']
  else if c = '\r' then ['\\', 'r']
  else if c.toNat < 32 then ['\\', 'u', '0', '0', hexDigit (c.toNat / 16), hexDigit (c.toNat % 16)]
  else [c]

def printString (s : String) : List Char := '"' :: (s.toList.flatMap escapeChar ++ ['"'])

/-- The elements after the first, and the closing bracket. -/
def printTail (close : Char) : List (List Char) → List Char
  | [] => [close]
  | t :: ts => ',' :: (t ++ printTail close ts)

def printElements (close : Char) : List (List Char) → List Char
  | [] => [close]
  | t :: ts => t ++ printTail close ts

section print
variable {ν : Type} (N : Numbers ν)

mutual
def print : Value ν → List Char
  | .null => ['n', 'u', 'l', 'l']
  | .bool true => ['t', 'r', 'u', 'e']
  | .bool false => ['f', 'a', 'l', 's', 'e']
  | .number n => N.text n
  | .string s => printString s
  | .array items => '[' :: printElements ']' (itemTexts items)
  | .object members => '{' :: printElements '}' (memberTexts members)
def itemTexts : List (Value ν) → List (List Char)
  | [] => []
  | v :: vs => print v :: itemTexts vs
def memberTexts : List (String × Value ν) → List (List Char)
  | [] => []
  | m :: ms => (printString m.1 ++ ':' :: print m.2) :: memberTexts ms
end

theorem itemTexts_eq (items : List (Value ν)) : itemTexts N items = items.map (print N) := by
  induction items with
  | nil => rfl
  | cons v vs ih => simp [itemTexts, ih]

def memberText (m : String × Value ν) : List Char := printString m.1 ++ ':' :: print N m.2

theorem memberTexts_eq (members : List (String × Value ν)) :
    memberTexts N members = members.map (memberText N) := by
  induction members with
  | nil => rfl
  | cons m ms ih => simp [memberTexts, memberText, ih]

end print

/-! Reading. -/

def isWhitespace (c : Char) : Bool := c ∈ [' ', '\n', '\t', '\r']

def skipWhitespace (cs : List Char) : List Char := cs.dropWhile isWhitespace

def hexValue (c : Char) : Option Nat :=
  if c.isDigit then some (c.toNat - 48)
  else if 'a' ≤ c ∧ c ≤ 'f' then some (c.toNat - 87)
  else if 'A' ≤ c ∧ c ≤ 'F' then some (c.toNat - 55)
  else none

def readHex4 : List Char → Option (Nat × List Char)
  | a :: b :: c :: d :: rest => do
    let n := (← hexValue a) * 4096 + (← hexValue b) * 256 + (← hexValue c) * 16 + (← hexValue d)
    return (n, rest)
  | _ => none

/-- A `\u` escape after its `u`: a scalar value, or a surrogate pair. -/
def readUnicode (cs : List Char) : Option (Char × List Char) := do
  let (n, rest) ← readHex4 cs
  if 0xDC00 ≤ n ∧ n ≤ 0xDFFF then none
  else if 0xD800 ≤ n ∧ n ≤ 0xDBFF then
    match rest with
    | '\\' :: 'u' :: rest => do
      let (m, rest) ← readHex4 rest
      if 0xDC00 ≤ m ∧ m ≤ 0xDFFF then
        return (Char.ofNat ((n - 0xD800) * 0x400 + (m - 0xDC00) + 0x10000), rest)
      else none
    | _ => none
  else return (Char.ofNat n, rest)

def readEscape : List Char → Option (Char × List Char)
  | '"' :: rest => some ('"', rest)
  | '\\' :: rest => some ('\\', rest)
  | '/' :: rest => some ('/', rest)
  | 'b' :: rest => some ('\x08', rest)
  | 'f' :: rest => some ('\x0c', rest)
  | 'n' :: rest => some ('\n', rest)
  | 'r' :: rest => some ('\r', rest)
  | 't' :: rest => some ('\t', rest)
  | 'u' :: rest => readUnicode rest
  | _ => none

/-- The characters of a string after its opening quote; each round takes at least one. -/
def readChars : Nat → List Char → Option (List Char × List Char)
  | _, [] => none
  | 0, _ => none
  | fuel + 1, c :: rest =>
    if c = '"' then some ([], rest)
    else if c = '\\' then do
      let (e, rest) ← readEscape rest
      let (es, rest) ← readChars fuel rest
      return (e :: es, rest)
    else if c.toNat < 32 then none
    else do
      let (es, rest) ← readChars fuel rest
      return (c :: es, rest)

def readString (rest : List Char) : Option (String × List Char) := do
  let (cs, rest) ← readChars rest.length rest
  return (String.ofList cs, rest)

section elements
variable {α : Type} (close : Char) (element : List Char → Option (α × List Char))

/-- What follows an element of a list: the closing bracket, or a comma and the next element. -/
def readTail : Nat → List Char → Option (List α × List Char)
  | 0, _ => none
  | fuel + 1, cs =>
    match skipWhitespace cs with
    | [] => none
    | c :: rest =>
      if c = close then some ([], rest)
      else if c = ',' then do
        let (x, rest) ← element rest
        let (xs, rest) ← readTail fuel rest
        return (x :: xs, rest)
      else none

/-- A list after its opening bracket. -/
def readElements (cs : List Char) : Option (List α × List Char) :=
  match skipWhitespace cs with
  | [] => none
  | c :: rest =>
    if c = close then some ([], rest)
    else do
      let (x, rest) ← element (c :: rest)
      let (xs, rest) ← readTail close element rest.length rest
      return (x :: xs, rest)

/-- A quoted key, a colon and a value. -/
def readMember (cs : List Char) : Option ((String × α) × List Char) :=
  match skipWhitespace cs with
  | '"' :: rest => do
    let (key, rest) ← readString rest
    match skipWhitespace rest with
    | ':' :: rest => do
      let (v, rest) ← element rest
      return ((key, v), rest)
    | _ => none
  | _ => none

end elements

section read
variable {ν : Type} (N : Numbers ν)

def readScalar : List Char → Option (Value ν × List Char)
  | 'n' :: 'u' :: 'l' :: 'l' :: rest => some (.null, rest)
  | 't' :: 'r' :: 'u' :: 'e' :: rest => some (.bool true, rest)
  | 'f' :: 'a' :: 'l' :: 's' :: 'e' :: rest => some (.bool false, rest)
  | '"' :: rest => (readString rest).map fun p => (.string p.1, p.2)
  | c :: rest =>
    if StartsNumber c then (N.lex (c :: rest)).map fun p => (.number p.1, p.2) else none
  | [] => none

/-- A value that may nest `budget` containers deep. -/
def readValue : Nat → List Char → Option (Value ν × List Char)
  | 0, cs => readScalar N (skipWhitespace cs)
  | budget + 1, cs =>
    match skipWhitespace cs with
    | '[' :: rest => (readElements ']' (readValue budget) rest).map fun p => (.array p.1, p.2)
    | '{' :: rest => (readElements '}' (readMember (readValue budget)) rest).map fun p => (.object p.1, p.2)
    | cs => readScalar N cs

/-- A whole text: one value, and nothing but whitespace after it. -/
def parse (budget : Nat) (cs : List Char) : Option (Value ν) :=
  match readValue N budget cs with
  | some (v, rest) => if skipWhitespace rest = [] then some v else none
  | none => none

end read
end Hoglet.Json
