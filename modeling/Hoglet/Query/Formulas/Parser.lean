import Hoglet.Chains
import Hoglet.Query.Formulas.Tokens

/-! Formulas: arithmetic over the letters of series, parsed by recursive descent into a tree and evaluated. -/
namespace Hoglet.Query
namespace Formula

def maxDepth : Nat := 32

inductive Node (F : Type) where
  | number (number : F)
  | series (index : Nat)
  | negate (inner : Node F)
  | binary (left : Node F) (op : Char) (right : Node F)

variable {F : Type}

def nestedTooDeeply : QueryError := .invalid "formula is nested too deeply"

/-- The trees that a token of one of the operators joins. -/
def joins (ops : List Char) : Token F → Option (Node F → Node F → Node F)
  | .op c => if c ∈ ops then some fun left right => .binary left c right else none
  | _ => none

-- A call goes one deeper than its caller, so the depth is over the limit before the fuel is used up.
mutual
def expression : Nat → Nat → List (Token F) → Except QueryError (Node F × List (Token F))
  | 0, _, _ => .error nestedTooDeeply
  | fuel + 1, depth, tokens =>
    if maxDepth < depth then .error nestedTooDeeply else readLeft (joins ['+', '-']) (term fuel (depth + 1)) tokens

def term : Nat → Nat → List (Token F) → Except QueryError (Node F × List (Token F))
  | 0, _, _ => .error nestedTooDeeply
  | fuel + 1, depth, tokens => readLeft (joins ['*', '/']) (unary fuel (depth + 1)) tokens

def unary : Nat → Nat → List (Token F) → Except QueryError (Node F × List (Token F))
  | 0, _, _ => .error nestedTooDeeply
  | fuel + 1, depth, tokens =>
    if maxDepth < depth then .error nestedTooDeeply
    else
      match tokens with
      | .op '-' :: rest => do
        let (inner, rest) ← unary fuel (depth + 1) rest
        .ok (.negate inner, rest)
      | .op '+' :: rest => unary fuel (depth + 1) rest
      | .number number :: rest => .ok (.number number, rest)
      | .letter index :: rest => .ok (.series index, rest)
      | .opening :: rest => do
        let (inner, rest) ← expression fuel (depth + 1) rest
        match rest with
        | .closing :: rest => .ok (inner, rest)
        | _ => .error (.invalid "unbalanced parentheses in formula")
      | _ => .error (.invalid "incomplete formula")
end

/-- Three calls deeper than the limit is where no call comes. -/
def fuel : Nat := maxDepth + 3

variable (N : Floats F)

def eval (values : List F) : Node F → F
  | .number number => number
  | .series index => values[index]?.getD N.zero
  | .negate inner => N.neg (eval values inner)
  | .binary left op right =>
    let left := eval values left
    let right := eval values right
    match op with
    | '+' => N.add left right
    | '-' => N.sub left right
    | '*' => N.mul left right
    | _ => if N.isZero right then N.zero else N.div left right

end Formula

structure Formula (F : Type) where
  root : Formula.Node F

namespace Formula
variable {F : Type} (N : Floats F)

def parse (text : String) (series : Nat) : Except QueryError (Formula F) := do
  let tokens ← tokenize N series text
  match tokens with
  | [] => .error (.invalid "formula is empty")
  | tokens =>
    let (root, rest) ← expression fuel 0 tokens
    match rest with
    | [] => .ok ⟨root⟩
    | _ => .error (.invalid "unexpected trailing input in formula")

/-- The formula's value where `values[i]` is that of series `i`. -/
def evaluate (formula : Formula F) (values : List F) : F :=
  let value := eval N values formula.root
  if N.isFinite value then value else N.zero

end Formula
end Hoglet.Query
