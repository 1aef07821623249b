import Hoglet.Checks
import Mathlib.Data.List.Basic

/-! Operands between operators of one precedence level, grouped to the left, and the loop that reads them. -/
namespace Hoglet
variable {τ α β ε : Type}

/-- The tokens of operands joined by operators, and the value the operators make of them from the left. -/
inductive Chain (operand : List τ → β → Prop) (operator : τ → Option (β → β → β)) : List τ → β → Prop where
  | one {front : List τ} {value : β} : operand front value → Chain operand operator front value
  | more {front last : List τ} {token : τ} {left right : β} {combine : β → β → β} : Chain operand operator front left →
      operator token = some combine → operand last right →
      Chain operand operator (front ++ token :: last) (combine left right)

/-- The operators that follow, one operand after each, for as long as there is one. -/
def readChain (operator : τ → Option (α → α → α)) (read : List τ → Except ε (α × List τ)) : Nat → α → List τ →
    Except ε (α × List τ)
  | room + 1, left, token :: rest =>
    match operator token with
    | some combine => do
      let (right, rest) ← read rest
      readChain operator read room (combine left right) rest
    | none => .ok (left, token :: rest)
  | _, left, rest => .ok (left, rest)

/-- An operand and what the operators after it join to it: no token is read twice, so the tokens left bound the rounds. -/
def readLeft (operator : τ → Option (α → α → α)) (read : List τ → Except ε (α × List τ)) (tokens : List τ) :
    Except ε (α × List τ) := do
  let (left, rest) ← read tokens
  readChain operator read rest.length left rest

/-- A reader takes from tokens a front that has a meaning, and takes every such front where what follows is not part of it. -/
structure Reads (Good : τ → Prop) (read : List τ → Except ε (α × List τ)) (value : α → β) (meaning : List τ → β → Prop)
    (Follows : List τ → Prop) : Prop where
  sound {tokens rest : List τ} {a : α} : (∀ t ∈ tokens, Good t) → read tokens = .ok (a, rest) →
    ∃ front, tokens = front ++ rest ∧ meaning front (value a)
  complete {front rest : List τ} {b : β} : meaning front b → Follows rest → ∃ a, read (front ++ rest) = .ok (a, rest) ∧ value a = b

/-- No operator stands next. -/
def Ended (operator : τ → Option (β → β → β)) (rest : List τ) : Prop := ∀ t ∈ rest.head?, operator t = none

/-- The operators of what is read mean the operators of the values. -/
def Interprets (value : α → β) (operator : τ → Option (α → α → α)) (operator' : τ → Option (β → β → β)) : Prop :=
  ∀ t, Option.Rel (fun f g => ∀ a b, value (f a b) = g (value a) (value b)) (operator t) (operator' t)

section
variable {Good : τ → Prop} {read : List τ → Except ε (α × List τ)} {value : α → β} {meaning : List τ → β → Prop}
  {Follows : List τ → Prop} {operator : τ → Option (α → α → α)} {operator' : τ → Option (β → β → β)}

theorem Interprets.means {f : α → α → α} {t : τ} (h : Interprets value operator operator') (ht : operator t = some f) :
    ∃ g, operator' t = some g ∧ ∀ a b, value (f a b) = g (value a) (value b) := by
  have hrel := h t
  rw [ht] at hrel
  cases hg : operator' t with
  | none => rw [hg] at hrel; cases hrel
  | some g =>
    rw [hg] at hrel
    cases hrel with
    | some hfg => exact ⟨g, rfl, hfg⟩

theorem Interprets.meant {g : β → β → β} {t : τ} (h : Interprets value operator operator') (ht : operator' t = some g) :
    ∃ f, operator t = some f ∧ ∀ a b, value (f a b) = g (value a) (value b) := by
  have hrel := h t
  rw [ht] at hrel
  cases hf : operator t with
  | none => rw [hf] at hrel; cases hrel
  | some f =>
    rw [hf] at hrel
    cases hrel with
    | some hfg => exact ⟨f, rfl, hfg⟩

theorem Interprets.ends {t : τ} (h : Interprets value operator operator') (ht : operator' t = none) : operator t = none := by
  cases hf : operator t with
  | none => rfl
  | some f =>
    obtain ⟨g, hg, -⟩ := h.means hf
    rw [ht] at hg
    cases hg

private theorem chain_stops {meaning' : List τ → β → Prop} {left a : α} {before tokens rest : List τ} (hbefore : meaning' before (value left))
    (h : (.ok (left, tokens) : Except ε (α × List τ)) = .ok (a, rest)) :
    ∃ front, tokens = front ++ rest ∧ meaning' (before ++ front) (value a) := by
  obtain ⟨rfl, rfl⟩ := Prod.mk.inj (Except.ok.inj h)
  exact ⟨[], rfl, by rwa [List.append_nil]⟩

/-- The loop extends the chain that was read before it. -/
theorem readChain_sound (hread : Reads Good read value meaning Follows) (hops : Interprets value operator operator') {room : Nat}
    {left a : α} {before tokens rest : List τ} (hgood : ∀ t ∈ tokens, Good t) (hbefore : Chain meaning operator' before (value left))
    (h : readChain operator read room left tokens = .ok (a, rest)) :
    ∃ front, tokens = front ++ rest ∧ Chain meaning operator' (before ++ front) (value a) := by
  induction room generalizing left before tokens with
  | zero => exact chain_stops hbefore h
  | succ room ih =>
    cases tokens with
    | nil => exact chain_stops hbefore h
    | cons token after =>
      cases ho : operator token with
      | none =>
        rw [readChain, ho] at h
        exact chain_stops hbefore h
      | some combine =>
        rw [readChain, ho] at h
        obtain ⟨⟨right, after'⟩, hright, hrest⟩ := bind_ok.mp h
        obtain ⟨last, rfl, hlast⟩ := hread.sound (fun t ht => hgood t (List.mem_cons_of_mem token ht)) hright
        obtain ⟨combine', ho', hvalue⟩ := hops.means ho
        have hnext : Chain meaning operator' (before ++ token :: last) (value (combine left right)) := by
          rw [hvalue]
          exact .more hbefore ho' hlast
        obtain ⟨front, rfl, hfront⟩ := ih (fun t ht => hgood t (by simp [ht])) hnext hrest
        exact ⟨token :: last ++ front, by simp, by simpa using hfront⟩

theorem Reads.never (h : ∀ tokens r, read tokens ≠ .ok r) : Reads Good read value (fun _ _ => False) Follows where
  sound _ hread := absurd hread (h _ _)
  complete hmeaning _ := hmeaning.elim

/-- Without a first operand there is nothing. -/
theorem readLeft_never (h : ∀ tokens r, read tokens ≠ .ok r) (tokens : List τ) (r : α × List τ) : readLeft operator read tokens ≠ .ok r := by
  intro hread
  obtain ⟨left, hleft, -⟩ := bind_ok.mp hread
  exact h tokens left hleft

/-- What holds of the operators and of the tokens of operands holds of the tokens of a chain. -/
theorem Chain.forall {P : τ → Prop} {tokens : List τ} {b : β} (hops : ∀ t, operator' t ≠ none → P t)
    (hoperand : ∀ front b, meaning front b → ∀ t ∈ front, P t) (h : Chain meaning operator' tokens b) : ∀ t ∈ tokens, P t := by
  induction h with
  | one h => exact hoperand _ _ h
  | @more front last token left right combine _ ho hlast ih =>
    intro t ht
    rw [List.mem_append, List.mem_cons] at ht
    obtain ht | rfl | ht := ht
    · exact ih t ht
    · exact hops t (by simp [ho])
    · exact hoperand last right hlast t ht

/-- Reading a chain comes to the end of it with the value of it, and goes on from there. -/
theorem readLeft_reaches (hread : Reads Good read value meaning Follows) (hops : Interprets value operator operator')
    (hfollows : ∀ t rest, operator' t ≠ none → Follows (t :: rest)) {front : List τ} {b : β} (h : Chain meaning operator' front b)
    {rest : List τ} (hrest : Follows rest) :
    ∃ a room, value a = b ∧ rest.length ≤ room ∧ readLeft operator read (front ++ rest) = readChain operator read room a rest := by
  induction h generalizing rest with
  | one h =>
    obtain ⟨a, ha, hvalue⟩ := hread.complete h hrest
    exact ⟨a, rest.length, hvalue, Nat.le_refl _, by rw [readLeft, ha]; rfl⟩
  | @more front last token left right combine _ ho hlast ih =>
    obtain ⟨a, room, hvalue, hroom, hreads⟩ := ih (hfollows token (last ++ rest) (by simp [ho]))
    obtain ⟨a', ha', hvalue'⟩ := hread.complete hlast hrest
    obtain ⟨combine', ho', hcombine⟩ := hops.meant ho
    cases room with
    | zero => simp at hroom
    | succ room =>
      refine ⟨combine' a a', room, by rw [hcombine, hvalue, hvalue'], ?_, ?_⟩
      · simp only [List.length_cons, List.length_append] at hroom
        omega
      · rw [List.append_assoc, List.cons_append, hreads, readChain, ho', ha']
        rfl

theorem readChain_ended (hops : Interprets value operator operator') {room : Nat} {a : α} {rest : List τ}
    (hrest : Ended operator' rest) : readChain operator read room a rest = .ok (a, rest) := by
  cases rest with
  | nil => cases room <;> rfl
  | cons t rest =>
    cases room with
    | zero => rfl
    | succ room => rw [readChain, hops.ends (hrest t rfl)]

/-- A loop over operands reads the chains of them. -/
theorem Reads.chain (hread : Reads Good read value meaning Follows) (hops : Interprets value operator operator')
    (hfollows : ∀ t rest, operator' t ≠ none → Follows (t :: rest)) :
    Reads Good (readLeft operator read) value (Chain meaning operator') fun rest => Follows rest ∧ Ended operator' rest where
  sound hgood h := by
    obtain ⟨⟨left, tokens⟩, hleft, hrest⟩ := bind_ok.mp h
    obtain ⟨first, rfl, hfirst⟩ := hread.sound hgood hleft
    obtain ⟨front, rfl, hfront⟩ := readChain_sound hread hops (fun t ht => hgood t (by simp [ht])) (.one hfirst) hrest
    exact ⟨first ++ front, by simp, hfront⟩
  complete h hrest := by
    obtain ⟨a, room, hvalue, -, hreads⟩ := readLeft_reaches hread hops hfollows h hrest.1
    exact ⟨a, by rw [hreads, readChain_ended hops hrest.2], hvalue⟩
end

end Hoglet
