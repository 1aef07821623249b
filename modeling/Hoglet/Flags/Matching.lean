import Hoglet.Query.Range

/-! Whether a person's properties match one filter of a condition group. -/
namespace Hoglet.Flags
open Json Capture Query

inductive PropertyOperator where
  | exact | isNot | icontains | notIcontains | regex | notRegex | gt | gte | lt | lte | isSet | isNotSet
  | isDateBefore | isDateAfter
  deriving DecidableEq, Repr

structure PropertyFilter (ν : Type) where
  key : String
  operator : PropertyOperator
  value : Value ν

/-- PostHog's relative-date guard: larger counts are rejected. -/
def maxRelativeDateCount : Int := 10000

/-- What matching uses of other crates: regular expressions, numbers, letter cases and instants. -/
structure Matchers (ν ρ : Type) extends Chrono where
  numbers : Numbers ν
  /-- A number as `value_to_string` writes it. -/
  numberText : ν → String
  /-- `Number::as_f64`, when finite. -/
  asF64 : ν → Option Rat
  /-- `str::parse::<f64>`, when finite. -/
  parseF64 : String → Option Rat
  toLowercase : String → String
  /-- `DateTime::parse_from_str`, converted to UTC: text, then format. -/
  parseOffset : String → String → Option DateTime
  /-- `None` is an invalid pattern, or one over the size limit. -/
  compileRegex : String → Option ρ
  isMatch : ρ → String → Bool

section truth
variable {ν : Type}

def eqIgnoreAsciiCase (a b : String) : Bool := a.toList.map Char.toLower = b.toList.map Char.toLower

mutual
def isTruthyOrFalsy : Value ν → Bool
  | .bool _ => true
  | .string text => eqIgnoreAsciiCase text "true" || eqIgnoreAsciiCase text "false"
  | .array items => areTruthyOrFalsy items
  | _ => false
def areTruthyOrFalsy : List (Value ν) → Bool
  | [] => true
  | v :: vs => isTruthyOrFalsy v && areTruthyOrFalsy vs
end

mutual
def isTruthy : Value ν → Bool
  | .bool flag => flag
  | .string text => eqIgnoreAsciiCase text "true"
  | .array items => areTruthy items
  | _ => false
def areTruthy : List (Value ν) → Bool
  | [] => true
  | v :: vs => isTruthy v && areTruthy vs
end

end truth

section matching
variable {ν ρ : Type} (M : Matchers ν ρ)

/-- Strings verbatim, everything else as compact JSON. -/
def valueToString : Value ν → String
  | .string text => text
  | .null => "null"
  | .bool flag => if flag then "true" else "false"
  | .number number => M.numberText number
  | other => String.ofList (print M.numbers other)

/-- Scalar or array (any of), case-insensitive; truthy and falsy values compare by truthiness. -/
def exactMatch (expected actual : Value ν) : Bool :=
  if isTruthyOrFalsy expected then isTruthy expected == isTruthy actual
  else
    let text := M.toLowercase (valueToString M actual)
    match expected with
    | .array candidates => candidates.any fun candidate => M.toLowercase (valueToString M candidate) == text
    | scalar => M.toLowercase (valueToString M scalar) == text

def icontains (expected actual : Value ν) : Bool :=
  (valueToString M expected).toList.map Char.toLower <:+: (valueToString M actual).toList.map Char.toLower

def asNumber : Value ν → Option Rat
  | .number number => M.asF64 number
  | .string text => M.parseF64 (String.ofList (trim text.toList))
  | _ => none

/-- Numeric when both sides are numbers, else by text. -/
def compareValues (operator : PropertyOperator) (expected actual : Value ν) : Bool :=
  let ordering :=
    match asNumber M expected, asNumber M actual with
    | some expected, some actual => compare actual expected
    | _, _ => compare (valueToString M actual) (valueToString M expected)
  match operator with
  | .gt => ordering == .gt
  | .gte => ordering != .lt
  | .lt => ordering == .lt
  | .lte => ordering != .gt
  | _ => false

def relativeDate (text : String) (now : DateTime) : Option DateTime :=
  let body := match text.toList with
    | '-' :: body => body
    | body => body
  body.getLast?.bind fun unit =>
    if body.dropLast = [] ∨ ¬ body.dropLast.all Char.isDigit then none
    else (parseI64 body.dropLast).bind fun count =>
      if maxRelativeDateCount ≤ count then none else before M.toChrono now count unit

def parseFlagDate (text : String) : Option DateTime :=
  let text := trim text.toList
  let naive := String.ofList (if text.getLast? = some 'Z' then text.dropLast else text)
  let text := String.ofList text
  (M.parseRfc3339 text).or <|
    (["%Y-%m-%dT%H:%M:%S%.f%:z", "%Y-%m-%d %H:%M:%S%.f%:z", "%Y-%m-%d %H:%M:%S%.f%z"].findSome? (M.parseOffset text)).or <|
      (["%Y-%m-%dT%H:%M:%S%.f", "%Y-%m-%d %H:%M:%S%.f", "%Y-%m-%dT%H:%M", "%Y-%m-%d %H:%M"].findSome? (M.parseNaive naive)).or <|
        (M.parseDate naive).bind (·.atTime 0)

/-- The boundary of a date filter: relative (`-7d`, `3h`, `2w`, `1m`, `1y`) or absolute. -/
def flagDate (now : DateTime) (value : Value ν) : Option DateTime :=
  value.asStr.bind fun text => (relativeDate M text now).or (parseFlagDate M text)

def propertyDate (value : Value ν) : Option DateTime := value.asStr.bind (parseFlagDate M)

/-- A pattern's program among the compiled ones, or compiled now. -/
def regexFor (regexes : List (String × Option ρ)) (pattern : String) : Option ρ :=
  match regexes.lookup pattern with
  | some compiled => compiled
  | none => M.compileRegex pattern

/-- A missing property matches nothing except `is_not_set`. -/
def matchProperty (now : DateTime) (filter : PropertyFilter ν) (properties : Map ν) (regexes : List (String × Option ρ)) :
    Bool :=
  match properties.get filter.key with
  | none => filter.operator = .isNotSet
  | some actual =>
    let expected := filter.value
    match filter.operator, actual with
    | .isSet, _ => true
    | .isNotSet, _ => false
    | .exact, _ => exactMatch M expected actual
    | .isNot, _ => !exactMatch M expected actual
    | _, .null => false
    | .icontains, _ => icontains M expected actual
    | .notIcontains, _ => !icontains M expected actual
    | .regex, _ => ((regexFor M regexes (valueToString M expected)).map (M.isMatch · (valueToString M actual))).getD false
    | .notRegex, _ => ((regexFor M regexes (valueToString M expected)).map (!M.isMatch · (valueToString M actual))).getD false
    | .isDateBefore, _ =>
      match flagDate M now expected, propertyDate M actual with
      | some boundary, some value => value.ns < boundary.ns
      | _, _ => false
    | .isDateAfter, _ =>
      match flagDate M now expected, propertyDate M actual with
      | some boundary, some value => boundary.ns < value.ns
      | _, _ => false
    | operator, _ => compareValues M operator expected actual

/-- A compiled program stands for its pattern. -/
def Compiled (regexes : List (String × Option ρ)) : Prop := ∀ m ∈ regexes, m.2 = M.compileRegex m.1

/-- Compiling ahead of time changes no answer. -/
theorem matchProperty_compiled {regexes : List (String × Option ρ)} (compiled : Compiled M regexes) (now : DateTime)
    (filter : PropertyFilter ν) (properties : Map ν) :
    matchProperty M now filter properties regexes = matchProperty M now filter properties [] := by
  have hregex : ∀ pattern, regexFor M regexes pattern = regexFor M [] pattern := by
    intro pattern
    unfold regexFor
    cases h : regexes.lookup pattern with
    | none => rfl
    | some program =>
      obtain ⟨before, after, rfl, -⟩ := List.lookup_eq_some_iff.mp h
      exact compiled (pattern, program) (by simp)
  unfold matchProperty
  simp only [hregex]

end matching
end Hoglet.Flags
