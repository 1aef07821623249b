import Mathlib.Data.List.Basic
import Mathlib.Tactic

/-! The lexical level of JSON5: which characters of a text are in strings and comments, and how many brackets are
open outside them. -/
namespace Hoglet.Json5

inductive Quote where
  | single | double
  deriving DecidableEq, Repr

def Quote.char : Quote → Char
  | .single => '\''
  | .double => '"'

/-- The string that a character opens. -/
def Quote.ofChar (c : Char) : Option Quote :=
  if c = '"' then some .double else if c = '\'' then some .single else none

/-- Where a reader is: the slash may begin a comment, the star may end one. -/
inductive Mode where
  | code | slash
  | string (quote : Quote) (escaped : Bool)
  | line | block | star
  deriving DecidableEq, Repr

def isLineTerminator (c : Char) : Bool := c ∈ ['\n', '\r', '\u2028', '\u2029']

namespace Mode

def nextCode (c : Char) : Mode :=
  match Quote.ofChar c with
  | some quote => .string quote false
  | none => if c = '/' then .slash else .code

def next : Mode → Char → Mode
  | .code, c => nextCode c
  | .slash, c => if c = '/' then .line else if c = '*' then .block else nextCode c
  | .string quote true, _ => .string quote false
  | .string quote false, c => if c = '\\' then .string quote true else if c = quote.char then .code else .string quote false
  | .line, c => if isLineTerminator c then .code else .line
  | .block, c => if c = '*' then .star else .block
  | .star, c => if c = '/' then .code else if c = '*' then .star else .block

def inCode : Mode → Bool
  | .code | .slash => true
  | _ => false

def inComment : Mode → Bool
  | .line | .block | .star => true
  | _ => false

/-- The string that a reader is in, and whether its next character is escaped. -/
def quoted : Mode → Option (Quote × Bool)
  | .string quote escaped => some (quote, escaped)
  | _ => none

theorem quoted_of_inComment {mode : Mode} (h : mode.inComment) : mode.quoted = none := by
  cases mode with
  | code => rfl
  | slash => rfl
  | string _ _ => cases h
  | line => rfl
  | block => rfl
  | star => rfl

theorem quoted_nextCode (c : Char) : (nextCode c).quoted = (Quote.ofChar c).map fun quote => (quote, false) := by
  unfold nextCode
  cases Quote.ofChar c with
  | some quote => rfl
  | none =>
    dsimp only
    split <;> rfl

/-- A comment is left to the code after it. -/
theorem next_eq_code {mode : Mode} {c : Char} (h : mode.inComment) (hnext : (mode.next c).inComment = false) : mode.next c = .code := by
  cases mode with
  | code => cases h
  | slash => cases h
  | string _ _ => cases h
  | line =>
    simp only [next] at hnext ⊢
    split at hnext
    · rename_i hc
      rw [if_pos hc]
    · cases hnext
  | block =>
    simp only [next] at hnext
    split at hnext <;> cases hnext
  | star =>
    simp only [next] at hnext ⊢
    split at hnext
    · rename_i hc
      rw [if_pos hc]
    · split at hnext <;> cases hnext

/-- Comments begin in code, and only a slash does. -/
theorem next_inComment {mode : Mode} {c : Char} (h : mode.inComment = false) (hnext : (mode.next c).inComment) :
    mode = .slash ∧ (mode.next c = .line ∨ mode.next c = .block) := by
  have hcode : ∀ c, (nextCode c).inComment = false := by
    intro c
    unfold nextCode
    split
    · rfl
    · split <;> rfl
  cases mode with
  | code => rw [next, hcode] at hnext; cases hnext
  | slash =>
    simp only [next] at hnext ⊢
    split at hnext
    · rename_i hc
      refine ⟨trivial, .inl ?_⟩
      rw [if_pos hc]
    · rename_i hline
      split at hnext
      · rename_i hblock
        refine ⟨trivial, .inr ?_⟩
        rw [if_neg hline, if_pos hblock]
      · rw [hcode] at hnext
        cases hnext
  | string quote escaped =>
    cases escaped with
    | true => cases hnext
    | false =>
      simp only [next] at hnext
      split at hnext
      · cases hnext
      · split at hnext <;> cases hnext
  | line => cases h
  | block => cases h
  | star => cases h

end Mode

/-- How many brackets are open after a character outside strings and comments. -/
def bracket (c : Char) (depth : Nat) : Nat :=
  if c = '[' ∨ c = '{' then depth + 1 else if c = ']' ∨ c = '}' then depth - 1 else depth

theorem bracket_mono (c : Char) {depth depth' : Nat} (h : depth ≤ depth') : bracket c depth ≤ bracket c depth' := by
  unfold bracket
  split
  · exact Nat.succ_le_succ h
  · split
    · exact Nat.sub_le_sub_right h 1
    · exact h

structure Scan where
  mode : Mode
  depth : Nat

def Scan.step (s : Scan) (c : Char) : Scan := ⟨s.mode.next c, if s.mode.inCode then bracket c s.depth else s.depth⟩

/-- A reader on its way through a text; one that stops at an error has come no further. -/
def scan (text : List Char) : Scan := text.foldl Scan.step ⟨.code, 0⟩

/-- The closed comments from a mode on, each with what ends it; the body is what has been read of the first. -/
def commentsFrom : Mode → List Char → List Char → List (List Char)
  | _, _, [] => []
  | mode, body, c :: text =>
    if mode.inComment then
      if (mode.next c).inComment then commentsFrom (mode.next c) (body ++ [c]) text
      else (body ++ [c]) :: commentsFrom (mode.next c) [] text
    else commentsFrom (mode.next c) [] text

def comments (text : List Char) : List (List Char) := commentsFrom .code [] text

/-- The part of a comment that begins in one mode and has come to another. -/
structure Begins (start : Mode) (body : List Char) (mode : Mode) : Prop where
  opens : start = .line ∨ start = .block
  comments : ∀ text, commentsFrom start [] (body ++ text) = commentsFrom mode body text
  scan : ∀ depth, body.foldl Scan.step ⟨start, depth⟩ = ⟨mode, depth⟩

/-- The whole of a comment that begins in a mode. -/
structure Closes (start : Mode) (comment : List Char) : Prop where
  opens : start = .line ∨ start = .block
  comments : ∀ text, commentsFrom start [] (comment ++ text) = comment :: commentsFrom .code [] text
  scan : ∀ depth, comment.foldl Scan.step ⟨start, depth⟩ = ⟨.code, depth⟩

theorem Mode.inCode_of_inComment {mode : Mode} (h : mode.inComment) : mode.inCode = false := by
  cases mode with
  | code => cases h
  | slash => cases h
  | string _ _ => rfl
  | line => rfl
  | block => rfl
  | star => rfl

theorem Begins.step {start mode : Mode} {body : List Char} {c : Char} (h : Begins start body mode) (hmode : mode.inComment)
    (hnext : (mode.next c).inComment) : Begins start (body ++ [c]) (mode.next c) where
  opens := h.opens
  comments text := by rw [List.append_assoc, h.comments, List.singleton_append, commentsFrom, if_pos hmode, if_pos hnext]
  scan depth := by
    rw [List.foldl_append, h.scan, List.foldl_cons, List.foldl_nil, Scan.step, Mode.inCode_of_inComment hmode]
    rfl

theorem Begins.close {start mode : Mode} {body : List Char} {c : Char} (h : Begins start body mode) (hmode : mode.inComment)
    (hnext : (mode.next c).inComment = false) : Closes start (body ++ [c]) where
  opens := h.opens
  comments text := by
    rw [List.append_assoc, h.comments, List.singleton_append, commentsFrom, if_pos hmode, if_neg (by simp [hnext]),
      Mode.next_eq_code hmode hnext]
  scan depth := by
    rw [List.foldl_append, h.scan, List.foldl_cons, List.foldl_nil, Scan.step, Mode.inCode_of_inComment hmode,
      Mode.next_eq_code hmode hnext]
    rfl

theorem closes_of_mem_commentsFrom {mode : Mode} {body text comment : List Char}
    (hbody : mode.inComment → ∃ start, Begins start body mode) (h : comment ∈ commentsFrom mode body text) :
    ∃ start, Closes start comment := by
  induction text generalizing mode body with
  | nil => cases h
  | cons c text ih =>
    -- outside a comment the next one begins afresh
    have hfresh : ∀ {mode : Mode} {c : Char}, mode.inComment = false → (mode.next c).inComment →
        ∃ start, Begins start [] (mode.next c) := by
      intro mode c hmode hnext
      exact ⟨mode.next c, (Mode.next_inComment hmode hnext).2, fun _ => rfl, fun _ => rfl⟩
    rw [commentsFrom] at h
    split at h
    · rename_i hmode
      obtain ⟨start, hbegins⟩ := hbody hmode
      split at h
      · rename_i hnext
        exact ih (fun _ => ⟨start, hbegins.step hmode hnext⟩) h
      · rename_i hnext
        rw [Bool.not_eq_true] at hnext
        rcases List.mem_cons.mp h with rfl | h
        · exact ⟨start, hbegins.close hmode hnext⟩
        · exact ih (fun hin => absurd hin (by simp [hnext])) h
    · rename_i hmode
      exact ih (hfresh (Bool.not_eq_true _ ▸ hmode)) h

/-- Every comment of a text is the whole of a comment. -/
theorem closes_of_mem_comments {text comment : List Char} (h : comment ∈ comments text) : ∃ start, Closes start comment := by
  apply closes_of_mem_commentsFrom _ h
  intro hcode
  cases hcode

end Hoglet.Json5
