import Mathlib.Computability.RegularExpressions
import Mathlib.Data.List.TakeWhile
import Mathlib.Tactic

/-! Regular expressions as patterns write them, and scanners that take the longest front of a text such an expression matches. -/
namespace Hoglet.Scanners
open RegularExpression
variable {τ β : Type}

/-- `[...]`. -/
def oneOf (marks : List τ) : RegularExpression τ := (marks.map char).sum

/-- `P?`. -/
def opt (P : RegularExpression τ) : RegularExpression τ := 1 + P

/-- `P+`. -/
def many1 (P : RegularExpression τ) : RegularExpression τ := P * P.star

/-- The characters of the expression are all of a kind. -/
def madeOf (p : τ → Bool) : RegularExpression τ → Bool
  | .zero | .epsilon => true
  | .char a => p a
  | .plus P Q | .comp P Q => madeOf p P && madeOf p Q
  | .star P => madeOf p P

theorem madeOf_mem {p : τ → Bool} {P : RegularExpression τ} (h : madeOf p P) {word : List τ} (hword : word ∈ P.matches') : ∀ a ∈ word, p a := by
  induction P generalizing word with
  | zero => cases hword
  | epsilon =>
    obtain rfl : word = [] := hword
    simp
  | char b =>
    obtain rfl : word = [b] := hword
    simpa [madeOf] using h
  | plus P Q ihP ihQ =>
    obtain ⟨hP, hQ⟩ := (Bool.and_eq_true _ _).mp h
    exact hword.elim (ihP hP) (ihQ hQ)
  | comp P Q ihP ihQ =>
    obtain ⟨hP, hQ⟩ := (Bool.and_eq_true _ _).mp h
    obtain ⟨front, hfront, back, hback, rfl⟩ := Language.mem_mul.mp hword
    intro a ha
    exact (List.mem_append.mp ha).elim (ihP hP hfront a) (ihQ hQ hback a)
  | star P ih =>
    obtain ⟨words, rfl, hwords⟩ := Language.mem_kstar.mp hword
    intro a ha
    obtain ⟨word, hmem, ha⟩ := List.mem_flatten.mp ha
    exact ih h (hwords word hmem) a ha

theorem mem_oneOf {marks word : List τ} : word ∈ (oneOf marks).matches' ↔ ∃ a ∈ marks, word = [a] := by
  induction marks with
  | nil => exact ⟨fun h => h.elim, fun ⟨_, h, _⟩ => by cases h⟩
  | cons b marks ih =>
    have hsum : word ∈ (oneOf (b :: marks)).matches' ↔ word = [b] ∨ word ∈ (oneOf marks).matches' := Iff.rfl
    rw [hsum, ih, List.exists_mem_cons_iff]

theorem mem_opt {P : RegularExpression τ} {word : List τ} : word ∈ (opt P).matches' ↔ word = [] ∨ word ∈ P.matches' := Iff.rfl

theorem mem_seq {P Q : RegularExpression τ} {word : List τ} :
    word ∈ (P * Q).matches' ↔ ∃ front ∈ P.matches', ∃ back ∈ Q.matches', front ++ back = word := Language.mem_mul

theorem mem_many1_oneOf {marks word : List τ} : word ∈ (many1 (oneOf marks)).matches' ↔ word ≠ [] ∧ ∀ a ∈ word, a ∈ marks := by
  constructor
  · intro h
    obtain ⟨front, hfront, back, hback, rfl⟩ := mem_seq.mp h
    obtain ⟨a, ha, rfl⟩ := mem_oneOf.mp hfront
    obtain ⟨words, rfl, hwords⟩ := Language.mem_kstar.mp hback
    refine ⟨List.cons_ne_nil _ _, fun b hb => ?_⟩
    obtain rfl | hb := List.mem_cons.mp hb
    · exact ha
    · obtain ⟨word, hword, hmem⟩ := List.mem_flatten.mp hb
      obtain ⟨c, hc, rfl⟩ := mem_oneOf.mp (hwords word hword)
      rwa [List.mem_singleton.mp hmem]
  · rintro ⟨hne, hall⟩
    obtain ⟨a, back, rfl⟩ := List.exists_cons_of_ne_nil hne
    refine mem_seq.mpr ⟨[a], mem_oneOf.mpr ⟨a, hall a List.mem_cons_self, rfl⟩, back, ?_, rfl⟩
    refine Language.mem_kstar.mpr ⟨back.map fun b => [b], by simp [← List.flatMap_def], fun word hword => ?_⟩
    obtain ⟨b, hb, rfl⟩ := List.mem_map.mp hword
    exact mem_oneOf.mpr ⟨b, hall b (List.mem_cons_of_mem a hb), rfl⟩

theorem map_oneOf (f : τ → β) (marks : List τ) : (oneOf marks).map f = oneOf (marks.map f) := by
  induction marks with
  | nil => rfl
  | cons a marks ih =>
    have hsum : (oneOf (a :: marks)).map f = char (f a) + (oneOf marks).map f := rfl
    rw [hsum, ih]
    rfl

theorem map_opt (f : τ → β) (P : RegularExpression τ) : (opt P).map f = opt (P.map f) := rfl
theorem map_many1 (f : τ → β) (P : RegularExpression τ) : (many1 P).map f = many1 (P.map f) := rfl
theorem map_seq (f : τ → β) (P Q : RegularExpression τ) : (P * Q).map f = P.map f * Q.map f := rfl

/-- A front of one kind of characters, up to one of another. -/
theorem takeWhile_front {p : τ → Bool} {front rest : List τ} (hfront : ∀ a ∈ front, p a) (hrest : ∀ a ∈ rest.head?, p a = false) :
    (front ++ rest).takeWhile p = front ∧ (front ++ rest).dropWhile p = rest := by
  rw [List.takeWhile_append_of_pos hfront, List.dropWhile_append_of_pos hfront]
  cases rest with
  | nil => simp
  | cons a rest =>
    have ha := hrest a rfl
    simp [ha]

/-- A scanner leaves what follows a front that the expression matches, and comes past every such front that what follows does not go
on with. -/
structure Scans (P : RegularExpression τ) (scan : List τ → Option (List τ)) (Follows : List τ → Prop) : Prop where
  sound {text rest : List τ} : scan text = some rest → ∃ front ∈ P.matches', text = front ++ rest
  complete {front rest : List τ} : front ∈ P.matches' → Follows rest → scan (front ++ rest) = some rest

/-- One of the marks stands next. -/
def next [DecidableEq τ] (marks text : List τ) : Bool := text.head?.any (· ∈ marks)

/-- All that follow each other of the marks, and one at least. -/
def run [DecidableEq τ] (marks text : List τ) : Option (List τ) :=
  let rest := text.dropWhile (· ∈ marks)
  if rest.length < text.length then some rest else none

/-- A mark, where one stands next. -/
def skip [DecidableEq τ] (marks text : List τ) : List τ := if next marks text then text.tail else text

namespace Scans
variable {P Q : RegularExpression τ} {f g : List τ → Option (List τ)} {FollowsP FollowsQ : List τ → Prop}

theorem seq (hP : Scans P f FollowsP) (hQ : Scans Q g FollowsQ)
    (hfollows : ∀ front ∈ Q.matches', ∀ rest, FollowsQ rest → FollowsP (front ++ rest)) :
    Scans (P * Q) (fun text => (f text).bind g) FollowsQ where
  sound h := by
    obtain ⟨middle, hf, hg⟩ := Option.bind_eq_some_iff.mp h
    obtain ⟨front, hfront, rfl⟩ := hP.sound hf
    obtain ⟨back, hback, rfl⟩ := hQ.sound hg
    exact ⟨front ++ back, mem_seq.mpr ⟨front, hfront, back, hback, rfl⟩, by rw [List.append_assoc]⟩
  complete h hrest := by
    obtain ⟨front, hfront, back, hback, rfl⟩ := mem_seq.mp h
    rw [List.append_assoc, hP.complete hfront (hfollows back hback _ hrest), Option.bind_some]
    exact hQ.complete hback hrest

theorem mono {Follows' : List τ → Prop} (hP : Scans P f FollowsP) (h : ∀ rest, Follows' rest → FollowsP rest) : Scans P f Follows' where
  sound := hP.sound
  complete hfront hrest := hP.complete hfront (h _ hrest)

/-- A scanner to the end of a text decides whether the expression matches it. -/
theorem whole (hP : Scans P f FollowsP) (hend : FollowsP []) {text : List τ} : f text = some [] ↔ text ∈ P.matches' := by
  constructor
  · intro h
    obtain ⟨front, hfront, rfl⟩ := hP.sound h
    rwa [List.append_nil]
  · intro h
    have hscan := hP.complete h hend
    rwa [List.append_nil] at hscan

section
variable [DecidableEq τ] {marks : List τ}

theorem next_cons {a : τ} {text : List τ} : next marks (a :: text) = decide (a ∈ marks) := rfl

theorem next_iff {text : List τ} : next marks text ↔ ∃ a ∈ marks, ∃ rest, text = a :: rest := by
  cases text with
  | nil => simp [next]
  | cons b text => simp [next]

/-- No other mark starts an optional part than its own. -/
theorem next_announced {others front rest : List τ} (hfront : front ∈ (opt (oneOf marks * P)).matches') (hapart : ∀ a ∈ marks, a ∉ others)
    (hrest : next others rest = false) : next others (front ++ rest) = false := by
  obtain rfl | h := mem_opt.mp hfront
  · exact hrest
  · obtain ⟨mark, hmark, back, -, rfl⟩ := mem_seq.mp h
    obtain ⟨a, ha, rfl⟩ := mem_oneOf.mp hmark
    exact decide_eq_false (hapart a ha)

/-- An optional part, told by the mark it starts with. -/
theorem announced (hP : Scans P f FollowsP) :
    Scans (opt (oneOf marks * P)) (fun text => if next marks text then f text.tail else some text)
      fun rest => FollowsP rest ∧ next marks rest = false where
  sound {text rest} h := by
    split at h
    case isTrue hnext =>
      obtain ⟨a, ha, after, rfl⟩ := next_iff.mp hnext
      obtain ⟨front, hfront, hafter⟩ := hP.sound h
      rw [List.tail_cons] at hafter
      exact ⟨a :: front, mem_opt.mpr (.inr (mem_seq.mpr ⟨[a], mem_oneOf.mpr ⟨a, ha, rfl⟩, front, hfront, rfl⟩)), by rw [hafter]; rfl⟩
    case isFalse =>
      cases h
      exact ⟨[], mem_opt.mpr (.inl rfl), rfl⟩
  complete {front rest} h hrest := by
    obtain rfl | h := mem_opt.mp h
    · simp [hrest.2]
    · obtain ⟨mark, hmark, back, hback, rfl⟩ := mem_seq.mp h
      obtain ⟨a, ha, rfl⟩ := mem_oneOf.mp hmark
      have hnext : next marks ([a] ++ back ++ rest) := next_iff.mpr ⟨a, ha, back ++ rest, rfl⟩
      rw [if_pos hnext]
      exact hP.complete hback hrest.1

theorem skip : Scans (opt (oneOf marks)) (fun text => some (skip marks text)) fun rest => next marks rest = false where
  sound {text rest} h := by
    rw [Scanners.skip] at h
    split at h
    case isTrue hnext =>
      obtain ⟨a, ha, after, rfl⟩ := next_iff.mp hnext
      cases h
      exact ⟨[a], mem_opt.mpr (.inr (mem_oneOf.mpr ⟨a, ha, rfl⟩)), rfl⟩
    case isFalse =>
      cases h
      exact ⟨[], mem_opt.mpr (.inl rfl), rfl⟩
  complete {front rest} h hrest := by
    obtain rfl | h := mem_opt.mp h
    · simp [Scanners.skip, hrest]
    · obtain ⟨a, ha, rfl⟩ := mem_oneOf.mp h
      have hnext : next marks ([a] ++ rest) := next_iff.mpr ⟨a, ha, rest, rfl⟩
      rw [Scanners.skip, if_pos hnext]
      rfl

theorem run : Scans (many1 (oneOf marks)) (run marks) fun rest => next marks rest = false where
  sound {text rest} h := by
    simp only [Scanners.run] at h
    split at h
    case isTrue hshort =>
      cases h
      have happend : text.takeWhile (· ∈ marks) ++ text.dropWhile (· ∈ marks) = text := List.takeWhile_append_dropWhile
      refine ⟨text.takeWhile (· ∈ marks), mem_many1_oneOf.mpr ⟨fun hnil => ?_, fun b hb => ?_⟩, happend.symm⟩
      · rw [hnil, List.nil_append] at happend
        rw [happend] at hshort
        exact absurd hshort (Nat.lt_irrefl _)
      · simpa using List.mem_takeWhile_imp hb
    case isFalse => cases h
  complete {front rest} h hrest := by
    obtain ⟨hne, hall⟩ := mem_many1_oneOf.mp h
    have hfront : ∀ a ∈ front, (fun a => decide (a ∈ marks)) a = true := fun a ha => decide_eq_true (hall a ha)
    have hstop : ∀ a ∈ rest.head?, (fun a => decide (a ∈ marks)) a = false := by
      intro a ha
      rw [next, Option.mem_def.mp ha] at hrest
      exact hrest
    have hlength : rest.length < (front ++ rest).length := by
      rw [List.length_append]
      exact Nat.lt_add_of_pos_left (List.length_pos_iff.mpr hne)
    rw [Scanners.run, (takeWhile_front hfront hstop).2]
    exact if_pos hlength
end

end Scans
end Hoglet.Scanners
