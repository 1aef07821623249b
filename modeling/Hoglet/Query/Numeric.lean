import Hoglet.Scanners
import Hoglet.Json.Utf8
import Hoglet.Json.Text
import Hoglet.Query.Floats
import Hoglet.Query.Range
import Mathlib.Data.Bool.AllAny

/-! Texts that count as numeric: the strict decimal parse of filter values, and the pattern of the properties they are compared with. -/
namespace Hoglet.Query
open Json Scanners

def decimalDigits : List Char := ['0', '1', '2', '3', '4', '5', '6', '7', '8', '9']

/-- `-?[0-9]+(\.[0-9]+)?([eE][-+]?[0-9]+)?` -/
def numericPattern : RegularExpression Char :=
  opt (oneOf ['-']) * many1 (oneOf decimalDigits) * opt (oneOf ['.'] * many1 (oneOf decimalDigits)) *
    opt (oneOf ['e', 'E'] * (opt (oneOf ['-', '+']) * many1 (oneOf decimalDigits)))

/-- Bytes of characters that are one byte each. -/
def asciiBytes (marks : List Char) : List UInt8 := marks.map Char.toUInt8

/-- The digits next, of which there must be one. -/
def digits : List UInt8 → Option (List UInt8) := run (asciiBytes decimalDigits)

def pointPart (text : List UInt8) : Option (List UInt8) :=
  if next (asciiBytes ['.']) text then digits text.tail else some text

def exponentPart (text : List UInt8) : Option (List UInt8) :=
  if next (asciiBytes ['e', 'E']) text then digits (skip (asciiBytes ['-', '+']) text.tail) else some text

/-- What follows the number at the start. -/
def scanNumeric (text : List UInt8) : Option (List UInt8) := do
  let rest ← digits (skip (asciiBytes ['-']) text)
  let rest ← pointPart rest
  exponentPart rest

section
variable {F ν : Type} (N : Floats F)

/-- Strict decimal parse shared by filters and the numeric maths. -/
def parseNumeric (text : String) : Option F := do
  let rest ← scanNumeric (utf8 text.toList)
  if rest = [] then N.parse text.toList else none

/-- `Number::as_f64` is given. -/
def filterNumber (asF64 : ν → Option F) (value : Value ν) : Except QueryError F :=
  let number :=
    match value with
    | .number number => asF64 number
    | .string text => parseNumeric N text
    | _ => none
  match number.filter N.isFinite with
  | some number => .ok number
  | none => .error (.invalid "numeric operators need a numeric value")

/-- The value of a property's text in a query, where `tryCast` is the database's `TRY_CAST(text AS DOUBLE)`. -/
def numericExpr (tryCast : String → Option F) (text : Option String) : Option F :=
  text.bind fun text => if numericPattern.rmatch text.toList then tryCast text else none

end

/-- The digits after an optional mark. -/
private theorem scans_digits (marks : List UInt8) (hapart : ∀ b ∈ asciiBytes decimalDigits, b ∉ marks) :
    Scans (opt (oneOf marks) * many1 (oneOf (asciiBytes decimalDigits))) (fun text => digits (skip marks text))
      fun rest => next (asciiBytes decimalDigits) rest = false := by
  apply Scans.seq Scans.skip Scans.run
  intro front hfront rest _
  obtain ⟨hne, hall⟩ := mem_many1_oneOf.mp hfront
  obtain ⟨b, after, rfl⟩ := List.exists_cons_of_ne_nil hne
  rw [List.cons_append, Scans.next_cons]
  exact decide_eq_false (hapart b (hall b List.mem_cons_self))

private theorem scans_point :
    Scans (opt (oneOf (asciiBytes ['.']) * many1 (oneOf (asciiBytes decimalDigits)))) pointPart
      fun rest => next (asciiBytes decimalDigits) rest = false ∧ next (asciiBytes ['.']) rest = false :=
  Scans.run.announced

/-- Nothing follows the exponent of a number. -/
private theorem scans_exponent :
    Scans (opt (oneOf (asciiBytes ['e', 'E']) * (opt (oneOf (asciiBytes ['-', '+'])) * many1 (oneOf (asciiBytes decimalDigits)))))
      exponentPart (· = []) := by
  have hscans : Scans (opt (oneOf (asciiBytes ['e', 'E']) * _)) exponentPart _ := (scans_digits (asciiBytes ['-', '+']) (List.all_iff_forall_prop.mp (by decide))).announced
  apply hscans.mono
  rintro rest rfl
  exact ⟨rfl, rfl⟩

/-- The scanner of bytes takes the texts of the pattern to their end. -/
private theorem scanNumeric_scans : Scans (numericPattern.map Char.toUInt8) scanNumeric (· = []) := by
  have hmap : numericPattern.map Char.toUInt8 = opt (oneOf (asciiBytes ['-'])) * many1 (oneOf (asciiBytes decimalDigits)) *
      opt (oneOf (asciiBytes ['.']) * many1 (oneOf (asciiBytes decimalDigits))) *
        opt (oneOf (asciiBytes ['e', 'E']) * (opt (oneOf (asciiBytes ['-', '+'])) * many1 (oneOf (asciiBytes decimalDigits)))) := by
    simp only [numericPattern, map_seq, map_opt, map_many1, map_oneOf, asciiBytes]
  have hscan : scanNumeric = fun text => ((digits (skip (asciiBytes ['-']) text)).bind pointPart).bind exponentPart := by
    funext text
    rw [Option.bind_assoc]
    rfl
  rw [hmap, hscan]
  -- A point follows the whole digits, an exponent what follows them, and none of their marks starts the other.
  have hdecimal := (scans_digits (asciiBytes ['-']) (List.all_iff_forall_prop.mp (by decide))).seq scans_point fun front hfront rest hrest =>
    Scans.next_announced hfront (List.all_iff_forall_prop.mp (by decide)) hrest.1
  apply hdecimal.seq scans_exponent
  rintro front hfront rest rfl
  exact ⟨Scans.next_announced hfront (List.all_iff_forall_prop.mp (by decide)) rfl,
    Scans.next_announced hfront (List.all_iff_forall_prop.mp (by decide)) rfl⟩

theorem scanNumeric_iff {text : List UInt8} : scanNumeric text = some [] ↔ text ∈ (numericPattern.map Char.toUInt8).matches' :=
  scanNumeric_scans.whole rfl

/-- An expression over ASCII matches a text where it matches the bytes of the text. -/
theorem utf8_mem_iff {P : RegularExpression Char} (hP : madeOf (fun c => decide (c.toNat < 128)) P) {text : List Char} :
    utf8 text ∈ (P.map Char.toUInt8).matches' ↔ text ∈ P.matches' := by
  have hascii {word : List Char} (hword : word ∈ P.matches') : utf8 word = word.map Char.toUInt8 :=
    utf8_ascii fun c hc => by simpa using madeOf_mem hP hword c hc
  rw [RegularExpression.matches'_map]
  constructor
  · rintro ⟨word, hword, hbytes⟩
    have heq : utf8 word = utf8 text := (hascii hword).trans hbytes
    have hdecoded := congrArg ofUtf8 heq
    rw [ofUtf8_utf8, ofUtf8_utf8] at hdecoded
    exact Option.some.inj hdecoded ▸ hword
  · intro h
    exact ⟨text, h, (hascii h).symm⟩

theorem parseNumeric_eq {F : Type} (N : Floats F) (text : String) :
    parseNumeric N text = if numericPattern.rmatch text.toList then N.parse text.toList else none := by
  have hbytes : scanNumeric (utf8 text.toList) = some [] ↔ numericPattern.rmatch text.toList := by
    rw [scanNumeric_iff, utf8_mem_iff (by decide), RegularExpression.rmatch_iff_matches']
  rw [parseNumeric]
  cases hscan : scanNumeric (utf8 text.toList) with
  | none =>
    rw [hscan] at hbytes
    rw [if_neg (fun h => nomatch hbytes.mpr h)]
    rfl
  | some rest =>
    rw [hscan, Option.some.injEq] at hbytes
    exact if_congr hbytes rfl rfl

section
variable {F : Type} {N : Floats F}

private theorem digit_isDigit {c : Char} (h : c ∈ decimalDigits) : c.isDigit := by
  have hall : decimalDigits.all Char.isDigit := by decide
  exact List.all_eq_true.mp hall c h

private theorem digit_unsigned {c : Char} (h : c ∈ decimalDigits) : c ≠ '-' ∧ c ≠ '+' ∧ c.toLower ≠ 'i' ∧ c.toLower ≠ 'n' := by
  have hall : ∀ c ∈ decimalDigits, c ≠ '-' ∧ c ≠ '+' ∧ c.toLower ≠ 'i' ∧ c.toLower ≠ 'n' := List.all_iff_forall_prop.mp (by decide)
  exact hall c h

private theorem signed_skips {marks sign rest : List Char} {c : Char} (hmarks : ∀ d ∈ marks, d = '-' ∨ d = '+')
    (hsign : sign ∈ (opt (oneOf marks)).matches') (hc : c ∈ decimalDigits) : (Floats.signed (sign ++ c :: rest)).2 = c :: rest := by
  obtain ⟨hminus, hplus, -⟩ := digit_unsigned hc
  obtain rfl | h := mem_opt.mp hsign
  · rw [List.nil_append]
    unfold Floats.signed
    split
    case h_1 heq => exact absurd (List.cons.inj heq).1 hminus
    case h_2 heq => exact absurd (List.cons.inj heq).1 hplus
    case h_3 => rfl
  · obtain ⟨d, hd, rfl⟩ := mem_oneOf.mp h
    obtain rfl | rfl := hmarks d hd <;> rfl

/-- What an optional part starts with. -/
private theorem head_announced {marks text : List Char} {P : RegularExpression Char} (h : text ∈ (opt (oneOf marks * P)).matches') :
    ∀ c ∈ text.head?, c ∈ marks := by
  obtain rfl | h := mem_opt.mp h
  · simp
  · obtain ⟨mark, hmark, back, -, rfl⟩ := mem_seq.mp h
    obtain ⟨d, hd, rfl⟩ := mem_oneOf.mp hmark
    rintro c ⟨⟩
    exact hd

private theorem exponent_parses {text : List Char}
    (h : text ∈ (opt (oneOf ['e', 'E'] * (opt (oneOf ['-', '+']) * many1 (oneOf decimalDigits)))).matches') :
    (Floats.exponent text).isSome := by
  obtain rfl | h := mem_opt.mp h
  · rfl
  · obtain ⟨mark, hmark, back, hback, rfl⟩ := mem_seq.mp h
    obtain ⟨c, hc, rfl⟩ := mem_oneOf.mp hmark
    obtain ⟨sign, hsign, digits, hdigits, rfl⟩ := mem_seq.mp hback
    obtain ⟨hne, hall⟩ := mem_many1_oneOf.mp hdigits
    obtain ⟨d, more, rfl⟩ := List.exists_cons_of_ne_nil hne
    have hmark : c = 'e' ∨ c = 'E' := by simpa using hc
    have hsigned : (Floats.signed (sign ++ d :: more)).2 = d :: more := signed_skips (by simp) hsign (hall d List.mem_cons_self)
    have hdigit : (d :: more).all Char.isDigit := List.all_eq_true.mpr fun a ha => digit_isDigit (hall a ha)
    rw [List.singleton_append, Floats.exponent, if_pos hmark]
    simp only [hsigned]
    rw [if_pos ⟨List.cons_ne_nil d more, hdigit⟩]
    rfl

private theorem fraction_parses {text rest : List Char} (h : text ∈ (opt (oneOf ['.'] * many1 (oneOf decimalDigits))).matches')
    (hrest : ∀ c ∈ rest.head?, c.isDigit = false ∧ c ≠ '.') : (Floats.fraction (text ++ rest)).2 = rest := by
  obtain rfl | h := mem_opt.mp h
  · rw [List.nil_append]
    unfold Floats.fraction
    split
    case h_1 => exact absurd rfl (hrest '.' rfl).2
    case h_2 => rfl
  · obtain ⟨mark, hmark, digits, hdigits, rfl⟩ := mem_seq.mp h
    obtain ⟨c, hc, rfl⟩ := mem_oneOf.mp hmark
    obtain rfl : c = '.' := by simpa using hc
    exact (takeWhile_front (fun a ha => digit_isDigit ((mem_many1_oneOf.mp hdigits).2 a ha)) fun a ha => (hrest a ha).1).2

/-- A text that starts with a digit is none of the words for infinities and the like. -/
private theorem parseUnsigned_digit {c : Char} {rest : List Char} (hc : c ∈ decimalDigits) :
    N.parseUnsigned (c :: rest) = N.parseNumber (c :: rest) := by
  obtain ⟨-, -, hi, hn⟩ := digit_unsigned hc
  have hword {d : Char} {word : List Char} (hd : c.toLower ≠ d) : String.ofList ((c :: rest).map Char.toLower) ≠ String.ofList (d :: word) :=
    fun h => hd (List.cons.inj (String.ofList_injective h)).1
  rw [Floats.parseUnsigned, if_neg (not_or.mpr ⟨hword hi, hword hi⟩), if_neg (hword hn)]

/-- Decimal syntax is syntax of floating-point numbers. -/
theorem parse_of_numeric {text : List Char} (h : text ∈ numericPattern.matches') : (N.parse text).isSome := by
  obtain ⟨decimal, hdecimal, exponent, hexponent, rfl⟩ := mem_seq.mp h
  obtain ⟨integer, hinteger, fraction, hfraction, rfl⟩ := mem_seq.mp hdecimal
  obtain ⟨sign, hsign, whole, hwhole, rfl⟩ := mem_seq.mp hinteger
  obtain ⟨hne, hall⟩ := mem_many1_oneOf.mp hwhole
  have hexponentMarks : ∀ c ∈ ['e', 'E'], c.isDigit = false ∧ c ≠ '.' := List.all_iff_forall_prop.mp (by decide)
  have hpointMarks : ∀ c ∈ ['.'], c.isDigit = false := List.all_iff_forall_prop.mp (by decide)
  have hexponentHead (c : Char) (hc : c ∈ exponent.head?) := hexponentMarks c (head_announced hexponent c hc)
  have hhead : ∀ c ∈ (fraction ++ exponent).head?, c.isDigit = false := by
    intro c hc
    rw [List.head?_append] at hc
    obtain h | ⟨-, h⟩ := Option.or_eq_some_iff.mp hc
    · exact hpointMarks c (head_announced hfraction c h)
    · exact (hexponentHead c h).1
  obtain ⟨htake, hdrop⟩ := takeWhile_front (fun c hc => digit_isDigit (hall c hc)) hhead
  have hparse : (N.parseNumber (whole ++ (fraction ++ exponent))).isSome := by
    rw [Floats.parseNumber]
    simp only [htake, hdrop, hne, false_and, if_false, Option.isSome_map, fraction_parses hfraction hexponentHead, exponent_parses hexponent]
  obtain ⟨c, more, rfl⟩ := List.exists_cons_of_ne_nil hne
  have hsigned : (Floats.signed (sign ++ c :: (more ++ (fraction ++ exponent)))).2 = c :: (more ++ (fraction ++ exponent)) :=
    signed_skips (by simp) hsign (hall c List.mem_cons_self)
  have hunsigned : (N.parseUnsigned (Floats.signed (sign ++ c :: more ++ fraction ++ exponent)).2).isSome := by
    rw [List.append_assoc, List.append_assoc, List.cons_append, hsigned, parseUnsigned_digit (hall c List.mem_cons_self)]
    exact hparse
  rw [Floats.parse]
  simp only
  split
  · rw [Option.isSome_map]
    exact hunsigned
  · exact hunsigned

theorem parseNumeric_eq_some {text : String} {number : F} :
    parseNumeric N text = some number ↔ text.toList ∈ numericPattern.matches' ∧ N.parse text.toList = some number := by
  rw [parseNumeric_eq, ← RegularExpression.rmatch_iff_matches']
  by_cases hmatch : numericPattern.rmatch text.toList
  · rw [if_pos hmatch, and_iff_right hmatch]
  · rw [if_neg hmatch, eq_false hmatch, false_and]
    exact iff_false_intro nofun

/-- A text is a number where the pattern matches all of it. -/
theorem parseNumeric_isSome {text : String} : (parseNumeric N text).isSome ↔ text.toList ∈ numericPattern.matches' := by
  rw [Option.isSome_iff_exists]
  constructor
  · rintro ⟨number, h⟩
    exact (parseNumeric_eq_some.mp h).1
  · intro h
    obtain ⟨number, hnumber⟩ := Option.isSome_iff_exists.mp (parse_of_numeric h)
    exact ⟨number, parseNumeric_eq_some.mpr ⟨h, hnumber⟩⟩

theorem filterNumber_ok {ν : Type} {asF64 : ν → Option F} {text : String} {number : F} :
    filterNumber N asF64 (.string text) = .ok number ↔ parseNumeric N text = some number ∧ N.isFinite number := by
  rw [← Option.filter_eq_some_iff, filterNumber]
  cases (parseNumeric N text).filter N.isFinite with
  | none => simp
  | some found => rw [Except.ok.injEq, Option.some.injEq]

/-- The texts that count as numeric are the same for thresholds, which are not infinite besides, and for the properties compared with
them: those that the pattern matches as a whole. -/
theorem numeric_texts {ν : Type} (N : Floats F) (asF64 : ν → Option F) (tryCast : String → Option F) (text : String) :
    ((parseNumeric N text).isSome ↔ text.toList ∈ numericPattern.matches') ∧
    numericExpr tryCast (some text) = (if (parseNumeric N text).isSome then tryCast text else none) ∧
    ∀ number, filterNumber N asF64 (.string text) = .ok number ↔
      text.toList ∈ numericPattern.matches' ∧ N.parse text.toList = some number ∧ N.isFinite number := by
  refine ⟨parseNumeric_isSome, ?_, fun number => ?_⟩
  · rw [numericExpr, Option.bind_some]
    apply if_congr _ rfl rfl
    rw [parseNumeric_isSome, RegularExpression.rmatch_iff_matches']
  · rw [filterNumber_ok, parseNumeric_eq_some, and_assoc]

example : ["12", "-0.25", "1e3", "2.5E-1", " 12", "12.", ".5", "1e+", "-", ""].map (parseNumeric Floats.exact) =
    [some 12, some (-1/4), some 1000, some (1/4), none, none, none, none, none, none] := by decide +kernel

end

end Hoglet.Query
