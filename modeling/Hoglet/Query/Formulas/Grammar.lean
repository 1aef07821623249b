import Hoglet.Query.Formulas.Parser

/-! What a formula means: the grammar of formulas with the values of what is derived from it, and the parser against it. -/
namespace Hoglet.Query

namespace Floats
variable {F : Type} (N : Floats F)

/-- A quotient, 0 where the divisor is. -/
def quotient (a b : F) : F := if N.isZero b then N.zero else N.div a b

end Floats

namespace Formula
variable {F : Type} (N : Floats F) (series : Nat) (values : List F)

def additive : Token F → Option (F → F → F)
  | .op c => if c = '+' then some N.add else if c = '-' then some N.sub else none
  | _ => none

def multiplicative : Token F → Option (F → F → F)
  | .op c => if c = '*' then some N.mul else if c = '/' then some N.quotient else none
  | _ => none

/-- `unary = (+|-) unary | number | letter | ( expression )`. -/
inductive UnaryRule (Unary Expression : List (Token F) → F → Prop) : List (Token F) → F → Prop where
  | negative {tokens : List (Token F)} {value : F} : Unary tokens value → UnaryRule Unary Expression (.op '-' :: tokens) (N.neg value)
  | positive {tokens : List (Token F)} {value : F} : Unary tokens value → UnaryRule Unary Expression (.op '+' :: tokens) value
  | number {number : F} : UnaryRule Unary Expression [.number number] number
  | letter {index : Nat} : index < series → UnaryRule Unary Expression [.letter index] (values[index]?.getD N.zero)
  | bracketed {tokens : List (Token F)} {value : F} : Expression tokens value →
      UnaryRule Unary Expression (.opening :: tokens ++ [.closing]) value

-- What is derived with at most so many rules inside each other, and its value.
mutual
/-- `expression = term ((+|-) term)*`, from the left. -/
def Expression : Nat → List (Token F) → F → Prop
  | 0 => fun _ _ => False
  | depth + 1 => Chain (Term depth) (additive N)

/-- `term = unary ((*|/) unary)*`, from the left. -/
def Term : Nat → List (Token F) → F → Prop
  | 0 => fun _ _ => False
  | depth + 1 => Chain (Unary depth) (multiplicative N)

def Unary : Nat → List (Token F) → F → Prop
  | 0 => UnaryRule N series values (fun _ _ => False) fun _ _ => False
  | depth + 1 => UnaryRule N series values (Unary depth) (Expression depth)
end

variable {N series values}

private theorem joins_additive : Interprets (eval N values) (joins ['+', '-']) (additive N) := by
  rintro (_ | _ | c | _ | _)
  case op =>
    by_cases hplus : c = '+'
    · subst hplus
      exact .some fun _ _ => rfl
    by_cases hminus : c = '-'
    · subst hminus
      exact .some fun _ _ => rfl
    · simp only [joins, additive, List.mem_cons, hplus, hminus, List.not_mem_nil, or_self, if_false]
      exact .none
  all_goals exact .none

private theorem joins_multiplicative : Interprets (eval N values) (joins ['*', '/']) (multiplicative N) := by
  rintro (_ | _ | c | _ | _)
  case op =>
    by_cases htimes : c = '*'
    · subst htimes
      exact .some fun _ _ => rfl
    by_cases hover : c = '/'
    · subst hover
      exact .some fun _ _ => rfl
    · simp only [joins, multiplicative, List.mem_cons, htimes, hover, List.not_mem_nil, or_self, if_false]
      exact .none
  all_goals exact .none

/-- After a term stands no operator that binds tighter than those between terms. -/
private theorem multiplicative_of_additive {t : Token F} (h : additive N t ≠ none) : multiplicative N t = none := by
  cases t with
  | op c =>
    by_cases hplus : c = '+'
    · subst hplus
      rfl
    by_cases hminus : c = '-'
    · subst hminus
      rfl
    · exact absurd (by simp [additive, hplus, hminus]) h
  | _ => rfl

private theorem unary_deep {fuel depth : Nat} (h : maxDepth < depth) (tokens : List (Token F)) (r : Node F × List (Token F)) :
    unary fuel depth tokens ≠ .ok r := by
  cases fuel with
  | zero => exact nofun
  | succ fuel =>
    unfold unary
    rw [if_pos h]
    exact nofun

private theorem term_deep {fuel depth : Nat} (h : maxDepth ≤ depth) (tokens : List (Token F)) (r : Node F × List (Token F)) :
    term fuel depth tokens ≠ .ok r := by
  cases fuel with
  | zero => exact nofun
  | succ fuel => exact readLeft_never (unary_deep (Nat.lt_succ_of_le h)) tokens r

private theorem expression_deep {fuel depth : Nat} (h : maxDepth < depth) (tokens : List (Token F)) (r : Node F × List (Token F)) :
    expression fuel depth tokens ≠ .ok r := by
  cases fuel with
  | zero => exact nofun
  | succ fuel =>
    rw [expression, if_pos h]
    exact nofun

/-- A unary reads what its rule says of the readers one deeper. -/
private theorem unary_reads {fuel depth : Nat} {U E : List (Token F) → F → Prop} {FollowsE : List (Token F) → Prop}
    (hdepth : depth ≤ maxDepth) (hU : Reads (Token.Below series) (unary fuel (depth + 1)) (eval N values) U fun _ => True)
    (hE : Reads (Token.Below series) (expression fuel (depth + 1)) (eval N values) E FollowsE)
    (hclosing : ∀ rest, FollowsE (.closing :: rest)) :
    Reads (Token.Below series) (unary (fuel + 1) depth) (eval N values) (UnaryRule N series values U E) fun _ => True where
  sound {tokens rest node} hgood h := by
    unfold unary at h
    rw [if_neg (not_lt.mpr hdepth)] at h
    split at h
    case h_1 tokens =>
      obtain ⟨⟨inner, after⟩, hinner, hrest⟩ := bind_ok.mp h
      obtain ⟨rfl, rfl⟩ := Prod.mk.inj (Except.ok.inj hrest)
      obtain ⟨front, rfl, hfront⟩ := hU.sound (fun t ht => hgood t (List.mem_cons_of_mem _ ht)) hinner
      exact ⟨.op '-' :: front, rfl, .negative hfront⟩
    case h_2 tokens =>
      obtain ⟨front, rfl, hfront⟩ := hU.sound (fun t ht => hgood t (List.mem_cons_of_mem _ ht)) h
      exact ⟨.op '+' :: front, rfl, .positive hfront⟩
    case h_3 number tokens =>
      obtain ⟨rfl, rfl⟩ := Prod.mk.inj (Except.ok.inj h)
      exact ⟨[.number number], rfl, .number⟩
    case h_4 index tokens =>
      obtain ⟨rfl, rfl⟩ := Prod.mk.inj (Except.ok.inj h)
      exact ⟨[.letter index], rfl, .letter (hgood _ List.mem_cons_self)⟩
    case h_5 tokens =>
      obtain ⟨⟨inner, after⟩, hinner, hrest⟩ := bind_ok.mp h
      obtain ⟨front, rfl, hfront⟩ := hE.sound (fun t ht => hgood t (List.mem_cons_of_mem _ ht)) hinner
      simp only at hrest
      split at hrest
      case h_1 after =>
        obtain ⟨rfl, rfl⟩ := Prod.mk.inj (Except.ok.inj hrest)
        exact ⟨.opening :: front ++ [.closing], by simp, .bracketed hfront⟩
      case h_2 => cases hrest
    case h_6 => cases h
  complete {front rest value} h _ := by
    unfold unary
    rw [if_neg (not_lt.mpr hdepth)]
    cases h with
    | @negative tokens value h =>
      obtain ⟨inner, hinner, rfl⟩ : ∃ inner, unary fuel (depth + 1) (tokens ++ rest) = .ok (inner, rest) ∧ eval N values inner = value :=
        hU.complete h trivial
      exact ⟨.negate inner, by simp [hinner, bind, Except.bind], rfl⟩
    | positive h => exact hU.complete h trivial
    | number => exact ⟨.number _, rfl, rfl⟩
    | letter => exact ⟨.series _, rfl, rfl⟩
    | @bracketed tokens _ h =>
      obtain ⟨inner, hinner, rfl⟩ := hE.complete h (hclosing rest)
      have happend : Token.opening :: tokens ++ [Token.closing] ++ rest = .opening :: (tokens ++ .closing :: rest) := by simp
      exact ⟨inner, by rw [happend]; simp [hinner, bind, Except.bind], rfl⟩

/-- What may follow a term, and an expression. -/
def FollowsTerm (N : Floats F) (rest : List (Token F)) : Prop := True ∧ Ended (multiplicative N) rest
def FollowsExpression (N : Floats F) (rest : List (Token F)) : Prop := FollowsTerm N rest ∧ Ended (additive N) rest

/-- With so much of the depth left the parser reads what is derived with so many rules inside each other. -/
structure Parses (N : Floats F) (series : Nat) (values : List F) (left : Nat) : Prop where
  expression (depth : Nat) : depth + left = maxDepth →
    Reads (Token.Below series) (expression (left + 3) depth) (eval N values) (Expression N series values left) (FollowsExpression N)
  term (depth : Nat) : depth + left = maxDepth →
    Reads (Token.Below series) (term (left + 3) depth) (eval N values) (Term N series values left) (FollowsTerm N)
  unary (depth : Nat) : depth + left = maxDepth →
    Reads (Token.Below series) (unary (left + 3) depth) (eval N values) (Unary N series values left) fun _ => True

theorem follows_closing (rest : List (Token F)) : FollowsExpression N (.closing :: rest) := by
  refine ⟨⟨trivial, ?_⟩, ?_⟩ <;> rintro t ⟨⟩ <;> rfl

theorem parses (left : Nat) : Parses N series values left := by
  induction left with
  | zero =>
    refine ⟨fun depth hdepth => ?_, fun depth hdepth => ?_, fun depth hdepth => ?_⟩
    · refine .never fun tokens r => ?_
      rw [Formula.expression, if_neg (by omega)]
      exact readLeft_never (term_deep (by omega)) tokens r
    · exact .never (term_deep (by omega))
    · have hnone : Reads (Token.Below series) (Formula.expression 2 (depth + 1)) (eval N values) (fun _ _ => False) fun _ => True :=
        .never (expression_deep (by omega))
      exact unary_reads (by omega) (.never (unary_deep (by omega))) hnone fun _ => trivial
  | succ left ih =>
    refine ⟨fun depth hdepth => ?_, fun depth hdepth => ?_, fun depth hdepth => ?_⟩
    · have heq : Formula.expression (left + 1 + 3) depth = readLeft (joins ['+', '-']) (Formula.term (F := F) (left + 3) (depth + 1)) := by
        funext tokens
        rw [Formula.expression, if_neg (by omega)]
      rw [heq]
      apply (ih.term (depth + 1) (by omega)).chain joins_additive
      intro t rest ht
      refine ⟨trivial, ?_⟩
      rintro t' ⟨⟩
      exact multiplicative_of_additive ht
    · exact (ih.unary (depth + 1) (by omega)).chain joins_multiplicative fun _ _ _ => trivial
    · exact unary_reads (by omega) (ih.unary (depth + 1) (by omega)) (ih.expression (depth + 1) (by omega)) follows_closing

private theorem UnaryRule.below {U E : List (Token F) → F → Prop} {tokens : List (Token F)} {value : F}
    (hU : ∀ tokens value, U tokens value → ∀ t ∈ tokens, t.Below series) (hE : ∀ tokens value, E tokens value → ∀ t ∈ tokens, t.Below series)
    (h : UnaryRule N series values U E tokens value) : ∀ t ∈ tokens, t.Below series := by
  intro t ht
  cases h with
  | negative h =>
    obtain rfl | ht := List.mem_cons.mp ht
    · trivial
    · exact hU _ _ h t ht
  | positive h =>
    obtain rfl | ht := List.mem_cons.mp ht
    · trivial
    · exact hU _ _ h t ht
  | number =>
    obtain rfl := List.mem_singleton.mp ht
    trivial
  | letter hindex =>
    obtain rfl := List.mem_singleton.mp ht
    exact hindex
  | bracketed h =>
    simp only [List.cons_append, List.mem_cons, List.mem_append, List.not_mem_nil, or_false] at ht
    obtain rfl | ht | rfl := ht
    · trivial
    · exact hE _ _ h t ht
    · trivial

/-- Letters from the series count on are derived nowhere. -/
private theorem derived_below (left : Nat) :
    (∀ tokens value, Expression N series values left tokens value → ∀ t ∈ tokens, t.Below series) ∧
    (∀ tokens value, Term N series values left tokens value → ∀ t ∈ tokens, t.Below series) ∧
    (∀ tokens value, Unary N series values left tokens value → ∀ t ∈ tokens, t.Below series) := by
  induction left with
  | zero => exact ⟨fun _ _ h => h.elim, fun _ _ h => h.elim, fun _ _ h => h.below (fun _ _ h => h.elim) fun _ _ h => h.elim⟩
  | succ left ih =>
    obtain ⟨hexpression, hterm, hunary⟩ := ih
    have hadditive (t : Token F) (ht : additive N t ≠ none) : t.Below series := by
      cases t with
      | op => trivial
      | _ => exact absurd rfl ht
    have hmultiplicative (t : Token F) (ht : multiplicative N t ≠ none) : t.Below series := by
      cases t with
      | op => trivial
      | _ => exact absurd rfl ht
    exact ⟨fun _ _ h => h.forall hadditive hterm, fun _ _ h => h.forall hmultiplicative hunary, fun _ _ h => h.below hunary hexpression⟩

private theorem parse_ok {text : String} {formula : Formula F} :
    parse N text series = .ok formula ↔
      ∃ tokens, tokenize N series text = .ok tokens ∧ tokens ≠ [] ∧ expression fuel 0 tokens = .ok (formula.root, []) := by
  rw [parse, bind_ok]
  apply exists_congr
  intro tokens
  apply and_congr_right'
  cases tokens with
  | nil => simp
  | cons token tokens =>
    simp only [bind_ok, ne_eq, List.cons_ne_nil, not_false_eq_true, true_and]
    constructor
    · rintro ⟨⟨root, rest⟩, hroot, hend⟩
      cases rest with
      | nil =>
        cases hend
        exact hroot
      | cons => cases hend
    · intro hroot
      exact ⟨_, hroot, rfl⟩

/-- What the parser makes of a formula is what the text means, in any arithmetic. -/
theorem parse_iff {text : String} {value : F} :
    (∃ formula, parse N text series = .ok formula ∧ eval N values formula.root = value) ↔
      ∃ tokens, Lexes N text.toList tokens ∧ Fits text.toList tokens ∧ Expression N series values maxDepth tokens value := by
  have hreads : Reads (Token.Below series) (expression fuel 0) (eval N values) (Expression N series values maxDepth) (FollowsExpression N) :=
    (parses maxDepth).expression 0 (Nat.zero_add _)
  constructor
  · rintro ⟨formula, hparse, rfl⟩
    obtain ⟨tokens, htokens, -, hroot⟩ := parse_ok.mp hparse
    obtain ⟨hlexes, hfits, hbelow⟩ := tokenize_iff.mp htokens
    obtain ⟨front, rfl, hderived⟩ := hreads.sound hbelow hroot
    rw [List.append_nil] at hlexes hfits
    exact ⟨front, hlexes, hfits, hderived⟩
  · rintro ⟨tokens, hlexes, hfits, hderived⟩
    have hend : FollowsExpression N ([] : List (Token F)) := by
      refine ⟨⟨trivial, ?_⟩, ?_⟩ <;> rintro t ⟨⟩
    obtain ⟨root, hroot, rfl⟩ := hreads.complete hderived hend
    rw [List.append_nil] at hroot
    have htokens := tokenize_iff.mpr ⟨hlexes, hfits, (derived_below maxDepth).1 tokens _ hderived⟩
    refine ⟨⟨root⟩, parse_ok.mpr ⟨tokens, htokens, ?_, hroot⟩, rfl⟩
    rintro rfl
    cases hroot

/-- A formula of a text whose tokens fit is what the grammar derives from them within the depth limit, and its value the value
derived. -/
theorem parse_evaluate_iff (series : Nat) (values : List ℚ) (text : String) (value : ℚ) :
    (∃ formula, parse Floats.exact text series = .ok formula ∧ formula.evaluate Floats.exact values = value) ↔
      ∃ tokens, Lexes Floats.exact text.toList tokens ∧ Fits text.toList tokens ∧
        Expression Floats.exact series values maxDepth tokens value :=
  parse_iff

example : (parse Floats.exact "A - B - -c / 2.5" 3).map (Formula.evaluate Floats.exact · [10, 4, 5]) = .ok 8 := by decide +kernel
example : (parse Floats.exact "A / (B - 4)" 3).map (Formula.evaluate Floats.exact · [10, 4, 2]) = .ok 0 := by decide +kernel

end Formula
end Hoglet.Query
