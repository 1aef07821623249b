import Hoglet.Query.Range
import Hoglet.Scanners
import Hoglet.Query.Floats
import Mathlib.Tactic

/-! The tokens of a formula. -/
namespace Hoglet.Query.Formula

def maxTokens : Nat := 500

inductive Token (F : Type) where
  | number (number : F)
  | letter (series : Nat)
  | op (c : Char)
  | opening
  | closing

def isBlank (c : Char) : Bool := c = ' ' || c = '\t' || c = '\n' || c = '\r'
def isOperator (c : Char) : Bool := c = '+' || c = '-' || c = '*' || c = '/'
def isLiteral (c : Char) : Bool := c.isDigit || c = '.'

/-- The place in the alphabet, in either case. -/
def letterOf (c : Char) : Nat := c.toUpper.toNat - 'A'.toNat

variable {F : Type} (N : Floats F) (series : Nat)

/-- The token that starts with the character, if one does, and what follows it. -/
def readToken (c : Char) (rest : List Char) : Except QueryError (Option (Token F) × List Char) :=
  if isBlank c then .ok (none, rest)
  else if isOperator c then .ok (some (.op c), rest)
  else if c = '(' then .ok (some .opening, rest)
  else if c = ')' then .ok (some .closing, rest)
  else if isLiteral c then
    let literal := (c :: rest).takeWhile isLiteral
    match N.parse literal with
    | none => .error (.invalid ("invalid number `" ++ String.ofList literal ++ "` in formula"))
    | some number => .ok (some (.number number), (c :: rest).dropWhile isLiteral)
  else if c.isAlpha then
    if series ≤ letterOf c then
      .error (.invalid ("formula refers to series " ++ c.toString ++ ", but the query has " ++ toString series ++ " series"))
    else .ok (some (.letter (letterOf c)), rest)
  else .error (.invalid ("unexpected `" ++ c.toString ++ "` in formula"))

/-- Each round takes a character at least, so the characters bound the rounds. -/
def tokenizeFrom : Nat → List Char → List (Token F) → Except QueryError (List (Token F))
  | room + 1, c :: rest, tokens =>
    if maxTokens < tokens.length then .error (.invalid "formula is too long")
    else do
      let (token, rest) ← readToken N series c rest
      tokenizeFrom room rest (tokens ++ token.toList)
  | _, _, tokens => .ok tokens

def tokenize (text : String) : Except QueryError (List (Token F)) :=
  tokenizeFrom N series text.toList.length text.toList []

/-- What one token, or a blank, is made of where the rest of the text follows it: a number takes all characters it can. -/
inductive Lexeme : List Char → List Char → Option (Token F) → Prop where
  | blank {c : Char} {after : List Char} : isBlank c → Lexeme [c] after none
  | op {c : Char} {after : List Char} : isOperator c → Lexeme [c] after (some (.op c))
  | opening {after : List Char} : Lexeme ['('] after (some .opening)
  | closing {after : List Char} : Lexeme [')'] after (some .closing)
  | number {literal after : List Char} {number : F} : literal ≠ [] → (∀ c ∈ literal, isLiteral c) →
      (∀ c ∈ after.head?, isLiteral c = false) → N.parse literal = some number → Lexeme literal after (some (.number number))
  | letter {c : Char} {after : List Char} : c.isAlpha → Lexeme [c] after (some (.letter (letterOf c)))

/-- The tokens a text is made of. -/
inductive Lexes : List Char → List (Token F) → Prop where
  | done : Lexes [] []
  | next {front after : List Char} {token : Option (Token F)} {tokens : List (Token F)} : Lexeme N front after token →
      Lexes after tokens → Lexes (front ++ after) (token.toList ++ tokens)

/-- The token's letter, if it is one, is below the series count. -/
def Token.Below : Token F → Prop
  | .letter i => i < series
  | _ => True

/-- So many tokens, the last of them the text's own, are within the limit: it is checked where a character is left, so one token
more may end the text. -/
def FitsFrom (count : Nat) (text : List Char) (tokens : List (Token F)) : Prop :=
  count + tokens.length ≤ maxTokens ∨ count + tokens.length = maxTokens + 1 ∧ ∀ c ∈ text.getLast?, isBlank c = false

def Fits (text : List Char) (tokens : List (Token F)) : Prop := FitsFrom 0 text tokens

variable {N} {series}

/-- A kind of character to which no blank, operator or bracket belongs. -/
private theorem marks_apart {p : Char → Bool} (hp : [' ', '\t', '\n', '\r', '+', '-', '*', '/', '(', ')'].all (!p ·))
    {c : Char} (hc : p c) : isBlank c = false ∧ isOperator c = false ∧ c ≠ '(' ∧ c ≠ ')' := by
  have apart (d : Char) (hd : d ∈ [' ', '\t', '\n', '\r', '+', '-', '*', '/', '(', ')']) : c ≠ d := by
    rintro rfl
    have hnot := List.all_eq_true.mp hp c hd
    rw [hc] at hnot
    cases hnot
  refine ⟨?_, ?_, apart '(' (by decide), apart ')' (by decide)⟩
  · simp [isBlank, apart ' ' (by decide), apart '\t' (by decide), apart '\n' (by decide), apart '\r' (by decide)]
  · simp [isOperator, apart '+' (by decide), apart '-' (by decide), apart '*' (by decide), apart '/' (by decide)]

private theorem isLiteral_of_isAlpha {c : Char} (h : c.isAlpha) : isLiteral c = false := by
  have hpoint : c ≠ '.' := by
    rintro rfl
    exact absurd h (by decide)
  have hletter : (65 ≤ c.val.toNat ∧ c.val.toNat ≤ 90) ∨ 97 ≤ c.val.toNat ∧ c.val.toNat ≤ 122 := by
    rcases Bool.or_eq_true_iff.mp h with hupper | hlower
    · obtain ⟨hlo, hhi⟩ := of_decide_eq_true hupper
      exact .inl ⟨UInt32.le_iff_toNat_le.mp hlo, UInt32.le_iff_toNat_le.mp hhi⟩
    · obtain ⟨hlo, hhi⟩ := Bool.and_eq_true_iff.mp hlower
      exact .inr ⟨UInt32.le_iff_toNat_le.mp (of_decide_eq_true hlo), UInt32.le_iff_toNat_le.mp (of_decide_eq_true hhi)⟩
  simp only [isLiteral, Char.isDigit, Bool.or_eq_false_iff, Bool.and_eq_false_iff, decide_eq_false_iff_not, ge_iff_le, UInt32.le_iff_toNat_le]
  have hdigits : '0'.val.toNat = 48 ∧ '9'.val.toNat = 57 := by decide
  exact ⟨by omega, hpoint⟩

private theorem isOperator_isBlank {c : Char} (h : isOperator c) : isBlank c = false := by
  simp only [isOperator, Bool.or_eq_true, decide_eq_true_eq] at h
  obtain ((rfl | rfl) | rfl) | rfl := h <;> decide

/-- What is read is a token of the text. -/
private theorem readToken_sound {c : Char} {rest after : List Char} {token : Option (Token F)}
    (h : readToken N series c rest = .ok (token, after)) :
    (∃ front, c :: rest = front ++ after ∧ Lexeme N front after token) ∧ ∀ t ∈ token, t.Below series := by
  unfold readToken at h
  split at h
  case isTrue hc =>
    obtain ⟨rfl, rfl⟩ := Prod.mk.inj (Except.ok.inj h)
    exact ⟨⟨[c], rfl, .blank hc⟩, by simp⟩
  split at h
  case isTrue hc =>
    obtain ⟨rfl, rfl⟩ := Prod.mk.inj (Except.ok.inj h)
    exact ⟨⟨[c], rfl, .op hc⟩, by simp [Token.Below]⟩
  split at h
  case isTrue hc =>
    obtain ⟨rfl, rfl⟩ := Prod.mk.inj (Except.ok.inj h)
    exact ⟨⟨[c], rfl, hc ▸ .opening⟩, by simp [Token.Below]⟩
  split at h
  case isTrue hc =>
    obtain ⟨rfl, rfl⟩ := Prod.mk.inj (Except.ok.inj h)
    exact ⟨⟨[c], rfl, hc ▸ .closing⟩, by simp [Token.Below]⟩
  split at h
  case isTrue hc =>
    simp only at h
    split at h
    case h_1 => cases h
    case h_2 number hnumber =>
      obtain ⟨rfl, rfl⟩ := Prod.mk.inj (Except.ok.inj h)
      refine ⟨⟨_, List.takeWhile_append_dropWhile.symm, .number ?_ ?_ ?_ hnumber⟩, by simp [Token.Below]⟩
      · simp [hc]
      · exact fun d hd => List.mem_takeWhile_imp hd
      · intro d hd
        have hnot := List.head?_dropWhile_not isLiteral (c :: rest)
        rw [Option.mem_def.mp hd] at hnot
        simpa using hnot
  split at h
  case isTrue hc =>
    split at h
    case isTrue => cases h
    case isFalse hbelow =>
      obtain ⟨rfl, rfl⟩ := Prod.mk.inj (Except.ok.inj h)
      exact ⟨⟨[c], rfl, .letter hc⟩, by simpa [Token.Below] using hbelow⟩
  case isFalse => cases h

/-- What the text starts with is read. -/
private theorem readToken_complete {c : Char} {front rest after : List Char} {token : Option (Token F)} (hfront : c :: rest = front ++ after)
    (h : Lexeme N front after token) (hbelow : ∀ t ∈ token, t.Below series) : readToken N series c rest = .ok (token, after) := by
  cases h with
  | blank hc =>
    obtain ⟨rfl, rfl⟩ := List.cons.inj hfront
    simp [readToken, hc]
  | op hc =>
    obtain ⟨rfl, rfl⟩ := List.cons.inj hfront
    simp [readToken, hc, isOperator_isBlank hc]
  | opening =>
    obtain ⟨rfl, rfl⟩ := List.cons.inj hfront
    rfl
  | closing =>
    obtain ⟨rfl, rfl⟩ := List.cons.inj hfront
    rfl
  | number hne hliteral hafter hnumber =>
    obtain ⟨htake, hdrop⟩ := Scanners.takeWhile_front hliteral hafter
    have hc : isLiteral c := by
      obtain ⟨d, ds, rfl⟩ := List.exists_cons_of_ne_nil hne
      obtain ⟨rfl, -⟩ := List.cons.inj hfront
      exact hliteral c List.mem_cons_self
    obtain ⟨hblank, hoperator, hopening, hclosing⟩ := marks_apart (p := isLiteral) (by decide) hc
    simp [readToken, hblank, hoperator, hopening, hclosing, hc, hfront, htake, hdrop, hnumber]
  | letter hc =>
    obtain ⟨rfl, rfl⟩ := List.cons.inj hfront
    obtain ⟨hblank, hoperator, hopening, hclosing⟩ := marks_apart (p := Char.isAlpha) (by decide) hc
    have hletter : ¬ series ≤ letterOf c := not_le.mpr (hbelow _ rfl)
    simp [readToken, hblank, hoperator, hopening, hclosing, isLiteral_of_isAlpha hc, hc, hletter]

theorem Lexeme.ne_nil {front after : List Char} {token : Option (Token F)} (h : Lexeme N front after token) : front ≠ [] := by
  cases h with
  | number hne => exact hne
  | _ => exact List.cons_ne_nil _ _

private theorem literal_isBlank {c : Char} (h : isLiteral c) : isBlank c = false := (marks_apart (p := isLiteral) (by decide) h).1

/-- A token ends in a character that is no blank. -/
theorem Lexeme.last {front after : List Char} {token : Option (Token F)} (h : Lexeme N front after token) :
    ∀ c ∈ front.getLast?, isBlank c = token.isNone := by
  intro c hc
  cases h with
  | number _ hliteral => exact literal_isBlank (hliteral c (List.mem_of_getLast? hc))
  | blank hblank => cases hc; exact hblank
  | op hoperator => cases hc; exact isOperator_isBlank hoperator
  | opening => cases hc; rfl
  | closing => cases hc; rfl
  | letter halpha => cases hc; exact (marks_apart (p := Char.isAlpha) (by decide) halpha).1

private theorem Lexes.of_nil {tokens : List (Token F)} (h : Lexes N [] tokens) : tokens = [] := by
  generalize htext : [] = text at h
  cases h with
  | done => rfl
  | next hlexeme _ => exact absurd (List.append_eq_nil_iff.mp htext.symm).1 hlexeme.ne_nil

/-- A text without tokens ends in a blank. -/
private theorem Lexes.ends_blank {text : List Char} {tokens : List (Token F)} (h : Lexes N text tokens) (htokens : tokens = []) :
    ∀ c ∈ text.getLast?, isBlank c := by
  induction h with
  | done => simp
  | @next front after token tokens hlexeme hlexes ih =>
    obtain ⟨htoken, rfl⟩ := List.append_eq_nil_iff.mp htokens
    intro c hc
    rw [List.getLast?_append] at hc
    cases hlast : after.getLast? with
    | none =>
      rw [hlast, Option.none_or] at hc
      rw [hlexeme.last c hc, Option.isNone_iff_eq_none]
      exact Option.toList_eq_nil_iff.mp htoken
    | some d =>
      rw [hlast, Option.some_or] at hc
      exact ih rfl c (by rw [hlast]; exact hc)

/-- The loop's check at a character, and what the rest needs. -/
private theorem fits_next {front after : List Char} {token : Option (Token F)} {tokens : List (Token F)} {count : Nat}
    (hlexeme : Lexeme N front after token) (hlexes : Lexes N after tokens) :
    FitsFrom count (front ++ after) (token.toList ++ tokens) ↔
      count ≤ maxTokens ∧ (after ≠ [] → FitsFrom (count + token.toList.length) after tokens) := by
  have htotal : count + (token.toList ++ tokens).length = count + token.toList.length + tokens.length := by
    rw [List.length_append, Nat.add_assoc]
  rw [FitsFrom, FitsFrom, htotal, List.getLast?_append]
  cases hlast : after.getLast? with
  | none =>
    -- The token ends the text: it may be one too many, a blank may not follow it.
    obtain rfl : after = [] := List.getLast?_eq_none_iff.mp hlast
    obtain rfl := hlexes.of_nil
    obtain ⟨c, hc⟩ : ∃ c, front.getLast? = some c := Option.isSome_iff_exists.mp (by simpa using hlexeme.ne_nil)
    have hblank := hlexeme.last c hc
    cases token with
    | none => simp_all
    | some token =>
      simp only [Option.toList_some, List.length_singleton, List.length_nil, Option.none_or, hc, Option.mem_some_iff, forall_eq', ne_eq,
        not_true_eq_false, false_implies, and_true, hblank, Option.isNone_some]
      omega
  | some c =>
    have hafter : after ≠ [] := by
      rintro rfl
      cases hlast
    simp only [Option.some_or, Option.mem_some_iff, forall_eq', hafter, ne_eq, not_false_eq_true, true_implies]
    refine ⟨fun h => ⟨?_, h⟩, And.right⟩
    obtain h | ⟨h, hblank⟩ := h
    · omega
    · have htokens : 0 < tokens.length := by
        refine List.length_pos_iff.mpr fun hnil => ?_
        rw [hlexes.ends_blank hnil c hlast] at hblank
        cases hblank
      omega

private theorem tokenizeFrom_nil {room : Nat} {before all : List (Token F)} :
    tokenizeFrom N series room [] before = .ok all ↔
      ∃ tokens, all = before ++ tokens ∧ Lexes N [] tokens ∧ (∀ t ∈ tokens, t.Below series) ∧
        (([] : List Char) ≠ [] → FitsFrom before.length [] tokens) := by
  have hdone : tokenizeFrom N series room [] before = .ok before := by cases room <;> rfl
  rw [hdone]
  constructor
  · rintro h
    cases h
    exact ⟨[], by simp, .done, by simp, fun h => absurd rfl h⟩
  · rintro ⟨tokens, rfl, hlexes, -, -⟩
    rw [hlexes.of_nil, List.append_nil]

private theorem Lexes.cons_iff {c : Char} {rest : List Char} {tokens : List (Token F)} :
    Lexes N (c :: rest) tokens ↔ ∃ front after token more, c :: rest = front ++ after ∧ Lexeme N front after token ∧ Lexes N after more ∧
      tokens = token.toList ++ more := by
  constructor
  · intro h
    generalize htext : c :: rest = text at h
    cases h with
    | done => cases htext
    | @next front after token more hlexeme hlexes => exact ⟨front, after, token, more, rfl, hlexeme, hlexes, rfl⟩
  · rintro ⟨front, after, token, more, htext, hlexeme, hlexes, rfl⟩
    rw [htext]
    exact .next hlexeme hlexes

/-- The loop adds the tokens of the text to those before it, where all of them fit. -/
private theorem tokenizeFrom_iff {room : Nat} {text : List Char} {before all : List (Token F)} (hroom : text.length ≤ room) :
    tokenizeFrom N series room text before = .ok all ↔
      ∃ tokens, all = before ++ tokens ∧ Lexes N text tokens ∧ (∀ t ∈ tokens, t.Below series) ∧
        (text ≠ [] → FitsFrom before.length text tokens) := by
  induction room generalizing text before with
  | zero =>
    obtain rfl : text = [] := List.length_eq_zero_iff.mp (Nat.le_zero.mp hroom)
    exact tokenizeFrom_nil
  | succ room ih =>
    cases text with
    | nil => exact tokenizeFrom_nil
    | cons c rest =>
      have hshort {front after : List Char} {token : Option (Token F)} (hfront : c :: rest = front ++ after)
          (hlexeme : Lexeme N front after token) : after.length ≤ room := by
        have hlength := congrArg List.length hfront
        have hpos := List.length_pos_iff.mpr hlexeme.ne_nil
        rw [List.length_append] at hlength
        omega
      rw [tokenizeFrom]
      split
      case isTrue hfull =>
        constructor
        · intro h
          cases h
        · rintro ⟨tokens, -, hlexes, -, hfits⟩
          obtain ⟨front, after, token, more, htext, hlexeme, hafter, rfl⟩ := Lexes.cons_iff.mp hlexes
          have hle := (fits_next hlexeme hafter).mp (htext ▸ hfits (List.cons_ne_nil c rest))
          exact absurd hle.1 (not_le.mpr hfull)
      case isFalse hfull =>
        rw [bind_ok]
        constructor
        · rintro ⟨⟨token, after⟩, hread, hrest⟩
          obtain ⟨⟨front, htext, hlexeme⟩, hbelow⟩ := readToken_sound hread
          obtain ⟨tokens, rfl, hlexes, hbelows, hfits⟩ := (ih (hshort htext hlexeme)).mp hrest
          refine ⟨token.toList ++ tokens, by simp, htext ▸ .next hlexeme hlexes, ?_, fun _ => ?_⟩
          · intro t ht
            rw [List.mem_append, Option.mem_toList] at ht
            exact ht.elim (hbelow t) (hbelows t)
          · rw [htext, fits_next hlexeme hlexes]
            exact ⟨not_lt.mp hfull, by simpa using hfits⟩
        · rintro ⟨tokens, rfl, hlexes, hbelow, hfits⟩
          obtain ⟨front, after, token, more, htext, hlexeme, hafter, rfl⟩ := Lexes.cons_iff.mp hlexes
          have hread := readToken_complete htext hlexeme fun t ht => hbelow t (List.mem_append_left _ (Option.mem_toList.mpr ht))
          have hmore := ((fits_next hlexeme hafter).mp (htext ▸ hfits (List.cons_ne_nil c rest))).2
          refine ⟨(token, after), hread, (ih (hshort htext hlexeme)).mpr ⟨more, by simp, hafter, ?_, by simpa using hmore⟩⟩
          exact fun t ht => hbelow t (List.mem_append_right _ ht)

/-- A formula's tokens are the tokens of its text, when they are within the limit and their letters below the series count. -/
theorem tokenize_iff {text : String} {tokens : List (Token F)} :
    tokenize N series text = .ok tokens ↔
      Lexes N text.toList tokens ∧ Fits text.toList tokens ∧ ∀ t ∈ tokens, t.Below series := by
  rw [tokenize, tokenizeFrom_iff (Nat.le_refl _)]
  constructor
  · rintro ⟨tokens, rfl, hlexes, hbelow, hfits⟩
    refine ⟨hlexes, ?_, hbelow⟩
    by_cases htext : text.toList = []
    · rw [htext] at hlexes ⊢
      obtain rfl := hlexes.of_nil
      exact .inl (Nat.zero_le _)
    · exact hfits htext
  · rintro ⟨hlexes, hfits, hbelow⟩
    exact ⟨tokens, rfl, hlexes, hbelow, fun _ => hfits⟩

end Hoglet.Query.Formula
