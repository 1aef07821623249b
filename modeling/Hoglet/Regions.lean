import Mathlib.Data.List.Induction
import Mathlib.Tactic.FinCases

/-! The regions of a statement's text: string literals, numbered parameters and the code around them. The scanner refuses a
text in which a quote, a comment or a dollar sign could be read in another way. -/
namespace Hoglet.Regions

abbrev Text := List Char

inductive Token where
  | code (c : Char)
  | literal (content : Text)
  | parameter (n : Nat)
  deriving DecidableEq

/-- Where the scanner is: in code what the last character was, else the region. -/
inductive Mode where
  | mark | word | dash | slash | dollar
  | parameter (digits : Text)
  | literal (content : Text)
  /-- At a quote in a literal: its end, unless another one follows. -/
  | quote (content : Text)
  deriving DecidableEq

structure State where
  mode : Mode
  found : List Token
  deriving DecidableEq

namespace Mode

/-- The region that ends here if code goes on. -/
def pending : Mode → List Token
  | parameter digits => [.parameter (Nat.ofDigitChars 10 digits 0)]
  | quote content => [.literal content]
  | _ => []

/-- A word may not run on from a region. -/
def ended : Mode → Bool
  | parameter _ | quote _ => true
  | _ => false

/-- A region may not start in a word, nor where another one ends. -/
def joins (mode : Mode) : Bool := mode = word || mode.ended

/-- Neither in a literal nor at a dollar sign. -/
def closed : Mode → Bool
  | literal _ | dollar => false
  | _ => true

/-- What a mark that starts no comment may follow. -/
def settled : Mode → Bool
  | dash | slash | literal _ | dollar => false
  | _ => true

end Mode

def State.tokens (s : State) : List Token := s.found ++ s.mode.pending

def isWord (c : Char) : Bool := c.isAlphanum || c = '_' || decide (128 ≤ c.toNat)

/-- The mode after a character of code. -/
def Mode.code (mode : Mode) (c : Char) : Option Mode :=
  if c ∈ ['\'', '"', '$', '\x00'] then none
  else if isWord c then if mode.ended then none else some .word
  else if c = '-' then if mode = .dash then none else some .dash
  else if c = '/' then some .slash
  else if c = '*' ∧ mode = .slash then none
  else some .mark

/-- A character that does not belong to a region that is open. -/
def State.outside (s : State) (c : Char) : Option State :=
  if c = '\'' then if s.mode.joins then none else some ⟨.literal [], s.found⟩
  else if c = '$' then if s.mode.joins then none else some ⟨.dollar, s.found⟩
  else (s.mode.code c).map fun mode => ⟨mode, s.tokens ++ [.code c]⟩

def step (s : State) (c : Char) : Option State :=
  match s.mode with
  | .literal content =>
    if c = '\x00' then none else some ⟨if c = '\'' then .quote content else .literal (content ++ [c]), s.found⟩
  | .quote content => if c = '\'' then some ⟨.literal (content ++ [c]), s.found⟩ else s.outside c
  | .dollar => if c.isDigit then some ⟨.parameter [c], s.found⟩ else none
  | .parameter digits => if c.isDigit then some ⟨.parameter (digits ++ [c]), s.found⟩ else s.outside c
  | _ => s.outside c

/-- The regions of a text as far as it goes, from one of the modes of code. -/
def scan (mode : Mode) (text : Text) : Option State := text.foldlM step ⟨mode, []⟩

/-- The regions of a whole text. -/
def regions (text : Text) : Option (List Token) :=
  (scan .mark text).bind fun s => if s.mode.closed then some s.tokens else none

def literals (tokens : List Token) : List Text :=
  tokens.filterMap fun
    | .literal content => some content
    | _ => none

def parameters (tokens : List Token) : List Nat :=
  tokens.filterMap fun
    | .parameter n => some n
    | _ => none

/-- What there is of a token apart from what its quotes hold. -/
def Token.outline : Token → Token
  | .literal _ => .literal []
  | token => token

/-- A text between quotes, each quote in it doubled. -/
def quoted (content : Text) : Text := '\'' :: content.flatMap (fun c => if c = '\'' then [c, c] else [c]) ++ ['\'']

/-! The rules of what a part of a text adds. -/

/-- From a mode that `pre` allows the text gives the tokens and ends in a mode of `post`. -/
def Reads (pre post : Mode → Prop) (text : Text) (tokens : List Token) : Prop :=
  ∀ s : State, pre s.mode → ∃ s' : State, text.foldlM step s = some s' ∧ post s'.mode ∧ s'.tokens = s.tokens ++ tokens

section reads
variable {pre mid post : Mode → Prop} {text text' : Text} {tokens tokens' : List Token} {mode : Mode} {c : Char} {s : State}

theorem Reads.append (h : Reads pre mid text tokens) (h' : Reads mid post text' tokens') : Reads pre post (text ++ text') (tokens ++ tokens') := by
  intro s hs
  obtain ⟨s₁, hrun, hmid, htokens⟩ := h s hs
  obtain ⟨s₂, hrun', hpost, htokens'⟩ := h' s₁ hmid
  refine ⟨s₂, ?_, hpost, ?_⟩
  · rw [List.foldlM_append, hrun]
    exact hrun'
  · rw [htokens', htokens, List.append_assoc]

theorem Reads.mono {pre' post' : Mode → Prop} (h : Reads pre post text tokens) (hpre : ∀ mode, pre' mode → pre mode)
    (hpost : ∀ mode, post mode → post' mode) : Reads pre' post' text tokens := by
  intro s hs
  obtain ⟨s', hrun, hmode, htokens⟩ := h s (hpre _ hs)
  exact ⟨s', hrun, hpost _ hmode, htokens⟩

/-- A whole text that reads from the start has its tokens for regions. -/
theorem Reads.regions (h : Reads (· = .mark) (·.closed) text tokens) : regions text = some tokens := by
  obtain ⟨s, hrun, hclosed, htokens⟩ := h ⟨.mark, []⟩ rfl
  rw [Regions.regions, scan, hrun, Option.bind_some, if_pos hclosed, htokens]
  rfl

/-- The scanner only adds to what it found. -/
theorem step_found (found : List Token) : step ⟨mode, found⟩ c = (step ⟨mode, []⟩ c).map fun s => ⟨s.mode, found ++ s.found⟩ := by
  have houtside : (State.mk mode found).outside c = ((State.mk mode []).outside c).map fun s => ⟨s.mode, found ++ s.found⟩ := by
    simp only [State.outside, State.tokens]
    split
    · split <;> simp
    · split
      · split <;> simp
      · cases mode.code c <;> simp
  cases mode <;> simp only [step, houtside] <;> split <;> simp

theorem foldlM_found (found : List Token) : text.foldlM step ⟨mode, found⟩ = (scan mode text).map fun s => ⟨s.mode, found ++ s.found⟩ := by
  induction text using List.reverseRecOn with
  | nil => simp [scan]
  | append_singleton text c ih =>
    have hscan : scan mode (text ++ [c]) = (scan mode text).bind fun s => step s c := by
      rw [scan, List.foldlM_append]
      simp [scan]
    rw [hscan, List.foldlM_append, ih]
    cases scan mode text with
    | none => rfl
    | some s =>
      obtain ⟨mode', found'⟩ := s
      simp only [Option.map_some, Option.bind_eq_bind, Option.bind_some, List.foldlM_cons, List.foldlM_nil]
      rw [step_found, step_found found']
      cases step ⟨mode', []⟩ c <;> simp

/-- A text that is known is read by running the scanner on it. -/
theorem Reads.of_scan (hpending : mode.pending = []) (h : scan mode text = some s) : Reads (· = mode) (· = s.mode) text s.tokens := by
  rintro ⟨_, found⟩ rfl
  refine ⟨⟨s.mode, found ++ s.found⟩, ?_, rfl, ?_⟩
  · rw [foldlM_found, h, Option.map_some]
  · simp [State.tokens, hpending]

end reads

/-! The single regions. -/
section single
variable {content digits text : Text} {c : Char} {mode mode' : Mode}

theorem step_code {s : State} (hclosed : s.mode.closed) (h : s.mode.code c = some mode) : step s c = some ⟨mode, s.tokens ++ [.code c]⟩ := by
  have hplain : c ∉ ['\'', '"', '$', '\x00'] := by
    intro hc
    rw [Mode.code, if_pos hc] at h
    cases h
  have hquote : c ≠ '\'' := fun heq => hplain (by simp [heq])
  have hdollar : c ≠ '$' := fun heq => hplain (by simp [heq])
  have houtside : s.outside c = some ⟨mode, s.tokens ++ [.code c]⟩ := by
    rw [State.outside, if_neg hquote, if_neg hdollar, h, Option.map_some]
  obtain ⟨last, found⟩ := s
  cases last with
  | literal content => cases hclosed
  | dollar => cases hclosed
  | quote content => exact (if_neg hquote).trans houtside
  | parameter digits =>
    have hdigit : ¬ c.isDigit = true := by
      intro hdigit
      rw [Mode.code, if_neg hplain, if_pos (by simp [isWord, Char.isAlphanum, hdigit])] at h
      cases h
    exact (if_neg hdigit).trans houtside
  | _ => exact houtside

theorem pending_of_code (h : mode.code c = some mode') : mode'.pending = [] := by
  simp only [Mode.code] at h
  split_ifs at h <;> cases h <;> rfl

theorem Reads.one {pre : Mode → Prop} (hclosed : ∀ mode, pre mode → mode.closed) (h : ∀ mode, pre mode → mode.code c = some mode') :
    Reads pre (· = mode') [c] [.code c] := by
  intro s hs
  refine ⟨_, by rw [List.foldlM_cons, step_code (hclosed _ hs) (h _ hs)]; rfl, rfl, ?_⟩
  rw [State.tokens, pending_of_code (h _ hs), List.append_nil]

/-- A mark may follow whatever has settled. -/
theorem Reads.follow (h : (Mode.parameter []).code c = some .mark) : Reads (fun mode => mode.settled) (· = .mark) [c] [.code c] := by
  refine .one (fun mode hmode => ?_) fun mode hmode => ?_
  · cases mode <;> first | rfl | cases hmode
  · rw [← h]
    have hword : isWord c = false := by
      by_contra hword
      rw [Mode.code] at h
      split_ifs at h <;> simp_all [Mode.ended]
    cases mode <;> first | cases hmode; done | simp [Mode.code, hword]

theorem code_word (hmode : mode.ended = false) (h : isWord c) : mode.code c = some .word := by
  have hplain : c ∉ ['\'', '"', '$', '\x00'] := by
    intro hc
    fin_cases hc <;> cases h
  rw [Mode.code, if_neg hplain, if_pos h, hmode]
  rfl

theorem Reads.word (hne : text ≠ []) (h : ∀ c ∈ text, isWord c) : Reads (· = .mark) (· = .word) text (text.map .code) := by
  have hone : ∀ mode : Mode, mode.closed → mode.ended = false → ∀ c, isWord c → Reads (· = mode) (· = .word) [c] [.code c] :=
    fun mode hclosed hended c hc => .one (fun _ heq => heq ▸ hclosed) fun _ heq => heq ▸ code_word hended hc
  have hrest : ∀ text : Text, (∀ c ∈ text, isWord c) → Reads (· = .word) (· = .word) text (text.map .code) := by
    intro text h
    induction text with
    | nil => exact fun s hs => ⟨s, rfl, hs, by simp⟩
    | cons c text ih => exact (hone .word rfl rfl c (h c List.mem_cons_self)).append (ih fun c hc => h c (List.mem_cons_of_mem _ hc))
  obtain ⟨c, text, rfl⟩ := List.exists_cons_of_ne_nil hne
  exact (hone .mark rfl rfl c (h c List.mem_cons_self)).append (hrest text fun c hc => h c (List.mem_cons_of_mem _ hc))

private theorem foldlM_content (hnul : '\x00' ∉ content) (start : Text) (found : List Token) :
    (content.flatMap fun c => if c = '\'' then [c, c] else [c]).foldlM step ⟨.literal start, found⟩ = some ⟨.literal (start ++ content), found⟩ := by
  induction content generalizing start with
  | nil => simp
  | cons c content ih =>
    obtain ⟨hc, hnul⟩ := not_or.mp (List.mem_cons.not.mp hnul)
    rw [List.flatMap_cons, List.foldlM_append]
    have hone : (if c = '\'' then [c, c] else [c]).foldlM step ⟨.literal start, found⟩ = some ⟨.literal (start ++ [c]), found⟩ := by
      split
      · rename_i heq
        subst heq
        rfl
      · rename_i hquote
        have hstep : step ⟨.literal start, found⟩ c = some ⟨.literal (start ++ [c]), found⟩ :=
          (if_neg (Ne.symm hc)).trans (by rw [if_neg hquote])
        rw [List.foldlM_cons, hstep]
        rfl
    refine (congrArg (· >>= _) hone).trans ?_
    exact (ih hnul (start ++ [c])).trans (by rw [List.append_assoc, List.singleton_append])

/-- A quoted text is one literal, whatever it holds. -/
theorem Reads.literal (hnul : '\x00' ∉ content) : Reads (· = .mark) (· = .quote content) (quoted content) [.literal content] := by
  rintro ⟨_, found⟩ rfl
  refine ⟨⟨.quote content, found⟩, ?_, rfl, by simp [State.tokens, Mode.pending]⟩
  have hopen : step ⟨.mark, found⟩ '\'' = some ⟨.literal [], found⟩ := rfl
  rw [quoted, List.cons_append, List.foldlM_cons, hopen, Option.bind_eq_bind, Option.bind_some, List.foldlM_append, foldlM_content hnul,
    List.nil_append]
  rfl

private theorem foldlM_digits (hdigits : ∀ c ∈ digits, c.isDigit) (start : Text) (found : List Token) :
    digits.foldlM step ⟨.parameter start, found⟩ = some ⟨.parameter (start ++ digits), found⟩ := by
  induction digits generalizing start with
  | nil => simp
  | cons c digits ih =>
    have hstep : step ⟨.parameter start, found⟩ c = some ⟨.parameter (start ++ [c]), found⟩ := if_pos (hdigits c List.mem_cons_self)
    rw [List.foldlM_cons, hstep]
    exact (ih (fun c hc => hdigits c (List.mem_cons_of_mem _ hc)) (start ++ [c])).trans (by rw [List.append_assoc, List.singleton_append])

/-- The number of a parameter is read back. -/
theorem Reads.parameter (n : Nat) : Reads (· = .mark) (· = .parameter (Nat.toDigits 10 n)) ('$' :: Nat.toDigits 10 n) [.parameter n] := by
  rintro ⟨_, found⟩ rfl
  refine ⟨⟨.parameter (Nat.toDigits 10 n), found⟩, ?_, rfl, by simp [State.tokens, Mode.pending, Nat.ofDigitChars_ten_toDigits]⟩
  have hdigits : ∀ c ∈ Nat.toDigits 10 n, c.isDigit := fun c hc => Nat.isDigit_of_mem_toDigits (by decide) (by decide) hc
  obtain ⟨c, digits, heq⟩ := List.exists_cons_of_ne_nil (Nat.toDigits_ne_nil (n := n) (b := 10))
  rw [heq] at hdigits ⊢
  have hopen : step ⟨.mark, found⟩ '$' = some ⟨.dollar, found⟩ := rfl
  have hfirst : step ⟨.dollar, found⟩ c = some ⟨.parameter [c], found⟩ := if_pos (hdigits c List.mem_cons_self)
  rw [List.foldlM_cons, hopen, Option.bind_eq_bind, Option.bind_some, List.foldlM_cons, hfirst]
  exact foldlM_digits (fun c hc => hdigits c (List.mem_cons_of_mem _ hc)) [c] found

end single

@[simp] theorem literals_append (tokens tokens' : List Token) : literals (tokens ++ tokens') = literals tokens ++ literals tokens' :=
  List.filterMap_append

@[simp] theorem parameters_append (tokens tokens' : List Token) : parameters (tokens ++ tokens') = parameters tokens ++ parameters tokens' :=
  List.filterMap_append

@[simp] theorem literals_code (text : Text) : literals (text.map .code) = [] := by
  induction text with
  | nil => rfl
  | cons c text ih => exact ih

@[simp] theorem parameters_code (text : Text) : parameters (text.map .code) = [] := by
  induction text with
  | nil => rfl
  | cons c text ih => exact ih

/-! Two texts that agree outside their literals. -/

/-- The same regions in both texts, up to what literals hold. The parameters are those after the first `n`, up to `m`, each
once; the literals of the first text are allowed ones. -/
def Agree (allowed : Text → Prop) (pre post : Mode → Prop) (n m : Nat) (t u : String) : Prop :=
  n ≤ m ∧ ∃ a b, Reads pre post t.toList a ∧ Reads pre post u.toList b ∧ a.map Token.outline = b.map Token.outline ∧
    (parameters a).Perm (List.range' (n + 1) (m - n)) ∧ ∀ content ∈ literals a, allowed content

/-- A part of a text that may stand after a mark and be followed by one. -/
abbrev Part (allowed : Text → Prop) (n m : Nat) (t u : String) : Prop :=
  Agree allowed (· = .mark) (fun mode => mode.settled) n m t u

/-- No parameter, and no literal but those known. -/
def plain (known : List Text) (tokens : List Token) : Bool :=
  tokens.all fun
    | .code _ => true
    | .literal content => known.contains content
    | .parameter _ => false

/-- The mode that a fixed text leads to, when its literals are among those known and it has no parameters. Every step starts
without the tokens before it, so that a check does not go over them again. -/
def modeAfter (known : List Text) (mode : Mode) : Text → Option Mode
  | [] => if plain known mode.pending then some mode else none
  | c :: text => (step ⟨mode, []⟩ c).bind fun s => if plain known s.found then modeAfter known s.mode text else none

def knownMode (known : List Text) (text : Text) : Option Mode := modeAfter known .mark text

/-- The same for a text that comes after whatever has settled. -/
def knownAfter (known : List Text) : Text → Option Mode
  | [] => none
  | c :: text => if (Mode.parameter []).code c = some .mark then knownMode known text else none

section agree
variable {allowed : Text → Prop} {pre mid post : Mode → Prop} {n k m : Nat} {t t' u u' : String} {known : List Text} {mode : Mode}

private theorem range_split (hle : n ≤ k) (hle' : k ≤ m) :
    List.range' (n + 1) (m - n) = List.range' (n + 1) (k - n) ++ List.range' (k + 1) (m - k) := by
  have hfirst : k + 1 = n + 1 + (k - n) := by omega
  have hcount : m - n = k - n + (m - k) := by omega
  rw [hfirst, hcount, List.range'_append_1]

theorem Agree.append (h : Agree allowed pre mid n k t u) (h' : Agree allowed mid post k m t' u') :
    Agree allowed pre post n m (t ++ t') (u ++ u') := by
  obtain ⟨hle, a, b, ha, hb, houtline, hparameters, hallowed⟩ := h
  obtain ⟨hle', a', b', ha', hb', houtline', hparameters', hallowed'⟩ := h'
  refine ⟨hle.trans hle', a ++ a', b ++ b', ?_, ?_, ?_, ?_, ?_⟩
  · rw [String.toList_append]
    exact ha.append ha'
  · rw [String.toList_append]
    exact hb.append hb'
  · rw [List.map_append, List.map_append, houtline, houtline']
  · rw [parameters_append, range_split hle hle']
    exact hparameters.append hparameters'
  · intro content hcontent
    rw [literals_append, List.mem_append] at hcontent
    exact hcontent.elim (hallowed content) (hallowed' content)

/-- The parts of a text need not stand in the order in which their values were bound. -/
theorem Agree.append_swap (h : Agree allowed mid post n k t u) (h' : Agree allowed pre mid k m t' u') :
    Agree allowed pre post n m (t' ++ t) (u' ++ u) := by
  obtain ⟨hle, a, b, ha, hb, houtline, hparameters, hallowed⟩ := h
  obtain ⟨hle', a', b', ha', hb', houtline', hparameters', hallowed'⟩ := h'
  refine ⟨hle.trans hle', a' ++ a, b' ++ b, ?_, ?_, ?_, ?_, ?_⟩
  · rw [String.toList_append]
    exact ha'.append ha
  · rw [String.toList_append]
    exact hb'.append hb
  · rw [List.map_append, List.map_append, houtline, houtline']
  · rw [parameters_append, range_split hle hle']
    exact (hparameters'.append hparameters).trans List.perm_append_comm
  · intro content hcontent
    rw [literals_append, List.mem_append] at hcontent
    exact hcontent.elim (hallowed' content) (hallowed content)

theorem Agree.mono {pre' post' : Mode → Prop} (h : Agree allowed pre post n m t u) (hpre : ∀ mode, pre' mode → pre mode)
    (hpost : ∀ mode, post mode → post' mode) : Agree allowed pre' post' n m t u := by
  obtain ⟨hle, a, b, ha, hb, hrest⟩ := h
  exact ⟨hle, a, b, ha.mono hpre hpost, hb.mono hpre hpost, hrest⟩

private theorem plain_iff {tokens : List Token} :
    plain known tokens ↔ parameters tokens = [] ∧ ∀ content ∈ literals tokens, content ∈ known := by
  induction tokens with
  | nil => simp [plain, parameters, literals]
  | cons token tokens ih =>
    rw [plain, List.all_cons, Bool.and_eq_true, ← plain, ih]
    cases token with
    | code c => simp [parameters, literals]
    | literal content =>
      have hhead : known.contains content ↔ content ∈ known := List.contains_iff_mem
      simp only [hhead, parameters, literals, List.filterMap_cons, List.forall_mem_cons]
      exact and_left_comm
    | parameter n => simp [parameters]

private theorem scan_known {text : Text} {start : Mode} (h : modeAfter known start text = some mode) :
    ∃ s, scan start text = some s ∧ s.mode = mode ∧ plain known s.tokens := by
  induction text generalizing start with
  | nil =>
    rw [modeAfter] at h
    split at h
    · rename_i hplain
      cases h
      exact ⟨⟨mode, []⟩, rfl, rfl, hplain⟩
    · cases h
  | cons c text ih =>
    rw [modeAfter] at h
    obtain ⟨s, hstep, h⟩ := Option.bind_eq_some_iff.mp h
    split at h
    · rename_i hplain
      obtain ⟨r, hscan, hmode, hrest⟩ := ih h
      refine ⟨⟨r.mode, s.found ++ r.found⟩, ?_, hmode, ?_⟩
      · rw [scan, List.foldlM_cons, hstep]
        exact (foldlM_found s.found).trans (by rw [hscan, Option.map_some])
      · rw [State.tokens, plain, List.append_assoc, List.all_append, Bool.and_eq_true]
        exact ⟨hplain, hrest⟩
    · cases h

private theorem reads_known {text : Text} (h : knownMode known text = some mode) :
    ∃ a, Reads (· = .mark) (· = mode) text a ∧ parameters a = [] ∧ ∀ content ∈ literals a, content ∈ known := by
  obtain ⟨s, hscan, rfl, hplain⟩ := scan_known h
  exact ⟨s.tokens, .of_scan rfl hscan, plain_iff.mp hplain⟩

/-- A fixed text agrees with itself. -/
theorem Agree.fixed (hknown : ∀ content ∈ known, allowed content) (h : knownMode known t.toList = some mode) :
    Agree allowed (· = .mark) (· = mode) n n t t := by
  obtain ⟨a, ha, hparameters, hliterals⟩ := reads_known h
  exact ⟨le_rfl, a, a, ha, ha, rfl, by simp [hparameters], fun content hcontent => hknown content (hliterals content hcontent)⟩

theorem Agree.after (hknown : ∀ content ∈ known, allowed content) (h : knownAfter known t.toList = some mode) :
    Agree allowed (fun mode => mode.settled) (· = mode) n n t t := by
  obtain ⟨c, text, htext⟩ : ∃ c text, t.toList = c :: text := by
    cases htext : t.toList with
    | nil =>
      rw [htext] at h
      cases h
    | cons c text => exact ⟨c, text, rfl⟩
  rw [htext, knownAfter] at h
  split at h
  · rename_i hmark
    obtain ⟨a, ha, hparameters, hliterals⟩ := reads_known h
    have hreads := (Reads.follow hmark).append ha
    rw [List.singleton_append, ← htext] at hreads
    refine ⟨le_rfl, _, _, hreads, hreads, rfl, ?_, ?_⟩
    · rw [parameters_append, hparameters, Nat.sub_self]
      rfl
    · intro content hcontent
      rw [literals_append] at hcontent
      exact hknown content (hliterals content hcontent)
  · cases h

theorem Agree.whole (hknown : ∀ content ∈ known, allowed content) (h : (knownMode known t.toList).any Mode.settled) : Part allowed n n t t := by
  obtain ⟨mode, hmode, hsettled⟩ := (Option.any_eq_true _ _).mp h
  exact (Agree.fixed hknown hmode).mono (fun _ => id) fun _ heq => heq ▸ hsettled

theorem Agree.close (hknown : ∀ content ∈ known, allowed content) (h : (knownAfter known t.toList).any Mode.settled) :
    Agree allowed (fun mode => mode.settled) (fun mode => mode.settled) n n t t := by
  obtain ⟨mode, hmode, hsettled⟩ := (Option.any_eq_true _ _).mp h
  exact (Agree.after hknown hmode).mono (fun _ => id) fun _ heq => heq ▸ hsettled

theorem Agree.empty {pre : Mode → Prop} : Agree allowed pre pre n n "" "" := by
  have hreads : Reads pre pre "".toList [] := fun s hs => ⟨s, rfl, hs, (List.append_nil _).symm⟩
  exact ⟨le_rfl, [], [], hreads, hreads, rfl, by rw [Nat.sub_self]; rfl, fun content hcontent => by cases hcontent⟩

/-- A part between two fixed texts. -/
theorem Agree.wrap {opening closing : String} (hknown : ∀ content ∈ known, allowed content) (hopen : knownMode known opening.toList = some .mark)
    (hclose : (knownAfter known closing.toList).any Mode.settled) (h : Part allowed n m t u) :
    Part allowed n m (opening ++ t ++ closing) (opening ++ u ++ closing) :=
  ((Agree.fixed hknown hopen).append h).append (.close hknown hclose)

/-- Two parts with a fixed text between them. -/
theorem Agree.join {between : String} (hknown : ∀ content ∈ known, allowed content) (h : Part allowed n k t u)
    (hbetween : knownAfter known between.toList = some .mark) (h' : Part allowed k m t' u') :
    Part allowed n m (t ++ between ++ t') (u ++ between ++ u') :=
  (h.append (.after hknown hbetween)).append h'

/-- Quoted texts agree whatever they hold. -/
theorem Agree.literal {content content' : Text} (hnul : '\x00' ∉ content) (hnul' : '\x00' ∉ content') (hallowed : allowed content) :
    Part allowed n n (String.ofList (quoted content)) (String.ofList (quoted content')) := by
  refine ⟨le_rfl, [.literal content], [.literal content'], ?_, ?_, rfl, ?_, ?_⟩
  · rw [String.toList_ofList]
    exact (Reads.literal hnul).mono (fun _ => id) fun _ heq => heq ▸ rfl
  · rw [String.toList_ofList]
    exact (Reads.literal hnul').mono (fun _ => id) fun _ heq => heq ▸ rfl
  · rw [Nat.sub_self]
    rfl
  · intro c hc
    cases List.mem_singleton.mp hc
    exact hallowed

theorem Agree.parameter : Part allowed n (n + 1) ("$" ++ toString (n + 1)) ("$" ++ toString (n + 1)) := by
  have htext : ("$" ++ toString (n + 1)).toList = '$' :: Nat.toDigits 10 (n + 1) := by
    rw [String.toList_append]
    exact congrArg ('$' :: ·) Nat.toList_repr
  have hreads := (Reads.parameter (n + 1)).mono (fun _ => id) (fun _ heq => heq ▸ rfl : ∀ mode, mode = _ → mode.settled = true)
  rw [← htext] at hreads
  refine ⟨Nat.le_succ n, _, _, hreads, hreads, rfl, ?_, fun content hcontent => by cases hcontent⟩
  rw [Nat.add_sub_cancel_left]
  rfl

/-- A word that is the same in both texts, like a number. -/
theorem Agree.word (hne : t.toList ≠ []) (h : ∀ c ∈ t.toList, isWord c) : Part allowed n n t t := by
  have hreads := (Reads.word hne h).mono (fun _ => id) (fun _ heq => heq ▸ rfl : ∀ mode, mode = _ → mode.settled = true)
  refine ⟨le_rfl, _, _, hreads, hreads, rfl, ?_, fun content hcontent => ?_⟩
  · rw [parameters_code, Nat.sub_self]
    rfl
  · rw [literals_code] at hcontent
    cases hcontent

theorem Agree.number (value : Nat) : Part allowed n n (toString value) (toString value) := by
  have htext : (toString value).toList = Nat.toDigits 10 value := Nat.toList_repr
  refine .word (htext ▸ Nat.toDigits_ne_nil) fun c hc => ?_
  rw [htext] at hc
  have hdigit : c.isDigit := Nat.isDigit_of_mem_toDigits (by decide) (by decide) hc
  simp [isWord, Char.isAlphanum, hdigit]

/-- Lists of parts that agree in turn. -/
inductive Agreeing (allowed : Text → Prop) : Nat → Nat → List String → List String → Prop
  | nil {n : Nat} : Agreeing allowed n n [] []
  | cons {n k m : Nat} {t u : String} {ts us : List String} : Part allowed n k t u →
      Agreeing allowed k m ts us → Agreeing allowed n m (t :: ts) (u :: us)

theorem Agreeing.append {ts ts' us us' : List String} (h : Agreeing allowed n k ts us) (h' : Agreeing allowed k m ts' us') :
    Agreeing allowed n m (ts ++ ts') (us ++ us') := by
  induction h with
  | nil => exact h'
  | cons hfirst _ ih => exact .cons hfirst (ih h')

theorem Agreeing.of_forall {ts : List String} (h : ∀ t ∈ ts, Part allowed n n t t) : Agreeing allowed n n ts ts := by
  induction ts with
  | nil => exact .nil
  | cons t ts ih => exact .cons (h t List.mem_cons_self) (ih fun t ht => h t (List.mem_cons_of_mem _ ht))

/-- Parts that agree do so with a separator between them. -/
theorem Agreeing.intercalate {ts us : List String} {separator : String} (hknown : ∀ content ∈ known, allowed content)
    (hseparator : knownAfter known separator.toList = some .mark) (h : Agreeing allowed n m ts us) (hne : ts ≠ []) :
    Part allowed n m (separator.intercalate ts) (separator.intercalate us) := by
  induction h with
  | nil => exact absurd rfl hne
  | cons hfirst hrest ih =>
    cases hrest with
    | nil =>
      rw [String.intercalate_singleton, String.intercalate_singleton]
      exact hfirst
    | cons hsecond hrest =>
      rw [String.intercalate_cons_cons, String.intercalate_cons_cons]
      exact hfirst.join hknown hseparator (ih (by simp))

/-- Whole texts that agree have the same regions, up to what literals hold. -/
theorem Agree.regions (h : Part allowed 0 m t u) :
    ∃ a b, regions t.toList = some a ∧ regions u.toList = some b ∧ a.map Token.outline = b.map Token.outline ∧
      (parameters a).Perm (List.range' 1 m) ∧ ∀ content ∈ literals a, allowed content := by
  obtain ⟨-, a, b, ha, hb, hrest⟩ := h
  have hclosed : ∀ mode : Mode, mode.settled → mode.closed := by
    intro mode hmode
    cases mode <;> first | rfl | cases hmode
  exact ⟨a, b, (ha.mono (fun _ => id) hclosed).regions, (hb.mono (fun _ => id) hclosed).regions, hrest⟩

end agree

/-! Two runs of what builds a statement and binds its values. -/
section both
variable {V E α β : Type} {n : Nat}

/-- Started with `n` bound values each, two builders that do not fail bind equally many, and their results are related. -/
def Both (n : Nat) (g g' : StateT (List V) (Except E) α) (Q : Nat → α → α → Prop) : Prop :=
  ∀ bound bound' : List V, bound.length = n → bound'.length = n → ∀ r r', g.run bound = .ok r → g'.run bound' = .ok r' →
    r.2.length = r'.2.length ∧ Q r.2.length r.1 r'.1

variable {g g' : StateT (List V) (Except E) α} {k k' : α → StateT (List V) (Except E) β} {Q R : Nat → α → α → Prop} {S : Nat → β → β → Prop}

theorem Both.pure {a a' : α} (h : Q n a a') : Both n (Pure.pure a : StateT (List V) (Except E) α) (Pure.pure a') Q := by
  rintro bound bound' rfl hlength r r' hr hr'
  cases hr
  cases hr'
  exact ⟨hlength.symm, h⟩

theorem Both.bind (h : Both n g g' Q) (hk : ∀ m a a', Q m a a' → Both m (k a) (k' a') S) : Both n (g >>= k) (g' >>= k') S := by
  intro bound bound' hbound hbound' r r' hr hr'
  rw [StateT.run_bind] at hr hr'
  cases hg : g.run bound with
  | error e =>
    rw [hg] at hr
    cases hr
  | ok p =>
    cases hg' : g'.run bound' with
    | error e =>
      rw [hg'] at hr'
      cases hr'
    | ok p' =>
      rw [hg] at hr
      rw [hg'] at hr'
      obtain ⟨hlength, hQ⟩ := h bound bound' hbound hbound' p p' hg hg'
      exact hk _ _ _ hQ p.2 p'.2 rfl hlength.symm r r' hr hr'

theorem Both.map {f f' : α → β} (h : Both n g g' Q) (hf : ∀ m a a', Q m a a' → S m (f a) (f' a')) : Both n (f <$> g) (f' <$> g') S := by
  rw [← bind_pure_comp, ← bind_pure_comp]
  exact h.bind fun m a a' ha => .pure (hf m a a' ha)

/-- What binds no values. -/
theorem Both.lift {x x' : Except E α} (h : ∀ a a', x = .ok a → x' = .ok a' → Q n a a') :
    Both n (liftM x : StateT (List V) (Except E) α) (liftM x') Q := by
  rintro bound bound' rfl hlength r r' hr hr'
  cases x with
  | error e => cases hr
  | ok a =>
    cases x' with
    | error e => cases hr'
    | ok a' =>
      cases hr
      cases hr'
      exact ⟨hlength.symm, h a a' rfl rfl⟩

theorem Both.lift_bind {γ : Type} {x x' : Except E γ} {k k' : γ → StateT (List V) (Except E) β}
    (h : ∀ a a', x = .ok a → x' = .ok a' → Both n (k a) (k' a') S) : Both n (liftM x >>= k) (liftM x' >>= k') S := by
  refine .bind (Q := fun m a a' => m = n ∧ x = .ok a ∧ x' = .ok a') (.lift fun a a' ha ha' => ⟨rfl, ha, ha'⟩) ?_
  rintro _ a a' ⟨rfl, ha, ha'⟩
  exact h a a' ha ha'

/-- One part after the other, of elements that correspond. -/
theorem Both.mapM {γ : Type} {allowed : Text → Prop} {f f' : γ → StateT (List V) (Except E) String} {xs xs' : List γ} (key key' : γ → β)
    (hkeys : xs.map key = xs'.map key') (hone : ∀ n, ∀ x ∈ xs, ∀ x' ∈ xs', key x = key' x' →
      Both n (f x) (f' x') fun m t u => Part allowed n m t u) :
    Both n (xs.mapM f) (xs'.mapM f') fun m ts us => Agreeing allowed n m ts us ∧ ts.length = xs.length := by
  induction xs generalizing n xs' with
  | nil =>
    cases List.map_eq_nil_iff.mp hkeys.symm
    exact .pure ⟨.nil, rfl⟩
  | cons x xs ih =>
    obtain ⟨x', xs', rfl, hkey, hkeys⟩ := List.map_eq_cons_iff.mp hkeys.symm
    rw [List.mapM_cons, List.mapM_cons]
    refine (hone n x List.mem_cons_self x' List.mem_cons_self hkey.symm).bind fun k t u htu => ?_
    have hrest := ih (n := k) hkeys.symm fun n y hy y' hy' =>
      hone n y (List.mem_cons_of_mem x hy) y' (List.mem_cons_of_mem x' hy')
    exact hrest.bind fun m ts us hts => .pure ⟨.cons htu hts.1, congrArg (· + 1) hts.2⟩

end both

end Hoglet.Regions
