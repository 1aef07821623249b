import Hoglet.Capture.Decompress
import Hoglet.Json.Lexical
import Hoglet.Json.Object

/-! The flags request: its nesting is looked at before a recursive parser reads it, without credentials. -/
namespace Hoglet.Flags
open Json Json5 Capture

def maxFlagsDecodedBytes : Nat := 1024 * 1024
/-- JSON nesting deeper than this is refused before parsing (json5 recurses). -/
def maxJsonDepth : Nat := 64

/-- The rest of the text, with the brackets open so far, the string it is in and whether its next byte is escaped. -/
def exceedsFrom (limit : Nat) : Nat → Option UInt8 → Bool → List UInt8 → Bool
  | _, _, _, [] => false
  | depth, some quote, escaped, byte :: bytes =>
    if escaped then exceedsFrom limit depth (some quote) false bytes
    else if byte = '\\'.toUInt8 then exceedsFrom limit depth (some quote) true bytes
    else if byte = quote then exceedsFrom limit depth none escaped bytes
    else exceedsFrom limit depth (some quote) escaped bytes
  | depth, none, escaped, byte :: bytes =>
    if byte = '"'.toUInt8 ∨ byte = '\''.toUInt8 then exceedsFrom limit depth (some byte) escaped bytes
    else if byte = '['.toUInt8 ∨ byte = '{'.toUInt8 then
      if limit < depth + 1 then true else exceedsFrom limit (depth + 1) none escaped bytes
    else if byte = ']'.toUInt8 ∨ byte = '}'.toUInt8 then exceedsFrom limit (depth - 1) none escaped bytes
    else exceedsFrom limit depth none escaped bytes

/-- Bracket depth outside string literals. -/
def jsonDepthExceeds (text : List Char) (limit : Nat) : Bool := exceedsFrom limit 0 none false (utf8 text)

/-- The two readers of a body: `serde_json::from_str` and `json5::from_str`. -/
structure BodyReaders (ν : Type) where
  gzip : Gzip
  serdeJson : List Char → Option (Value ν)
  json5 : List Char → Option (Value ν)

/-- Decode (form `data=`, base64, gzip, raw) and parse (JSON, then json5). -/
def parseRequest {ν : Type} (R : BodyReaders ν) (contentType : Option (List Char)) (compression : Option (List Char))
    (body : List UInt8) : Except String (Map ν) := do
  let formEncoded := contentType.any ("application/x-www-form-urlencoded".toList.isPrefixOf ·)
  let text ← (decodeLimited R.gzip body formEncoded compression maxFlagsDecodedBytes).mapError fun
    | .tooLarge => "The request body is too large."
    | .undecodable => "The request body could not be decoded."
  if jsonDepthExceeds text maxJsonDepth then throw "The request body is nested too deeply."
  match (R.serdeJson text).or (R.json5 text) with
  | some (.object members) => return .ofWritten members
  | some _ => throw "The request body must be a JSON object."
  | none => throw "The request body is not JSON."

/-- Where the guard is: the string it believes to be in, and the brackets it counts. -/
structure Guard where
  quoted : Option (Quote × Bool)
  depth : Nat

def nextQuoted : Option (Quote × Bool) → Char → Option (Quote × Bool)
  | none, c => (Quote.ofChar c).map fun quote => (quote, false)
  | some (quote, true), _ => some (quote, false)
  | some (quote, false), c => if c = '\\' then some (quote, true) else if c = quote.char then none else some (quote, false)

def Guard.step (g : Guard) (c : Char) : Guard := ⟨nextQuoted g.quoted c, if g.quoted.isNone then bracket c g.depth else g.depth⟩

def Guard.run (g : Guard) (text : List Char) : Guard := text.foldl Guard.step g

/-! The guard reads bytes, but only ASCII characters mean anything to it. -/

theorem toUInt8_eq_iff {c d : Char} (hc : c.toNat < 128) (hd : d.toNat < 128) : c.toUInt8 = d.toUInt8 ↔ c = d := by
  constructor
  · intro h
    have hnat := congrArg UInt8.toNat h
    simp only [Char.toUInt8, UInt32.toNat_toUInt8] at hnat
    apply Char.ext
    apply UInt32.toNat_inj.mp
    change c.toNat = d.toNat
    have hmod : c.toNat % 256 = d.toNat % 256 := hnat
    omega
  · rintro rfl
    rfl

private theorem utf8EncodeChar_beyond {c : Char} (h : ¬ c.toNat < 128) :
    String.utf8EncodeChar c ≠ [] ∧ ∀ byte ∈ String.utf8EncodeChar c, 128 ≤ byte.toNat := by
  have hval : ¬ c.val.toNat ≤ 127 := by
    change ¬ c.toNat ≤ 127
    omega
  unfold String.utf8EncodeChar
  simp only
  rw [if_neg hval]
  split
  · refine ⟨List.cons_ne_nil _ _, fun byte hbyte => ?_⟩
    simp only [List.mem_cons, List.not_mem_nil, or_false] at hbyte
    rcases hbyte with rfl | rfl <;> rw [UInt8.toNat_ofNat'] <;> omega
  split
  · refine ⟨List.cons_ne_nil _ _, fun byte hbyte => ?_⟩
    simp only [List.mem_cons, List.not_mem_nil, or_false] at hbyte
    rcases hbyte with rfl | rfl | rfl <;> rw [UInt8.toNat_ofNat'] <;> omega
  · refine ⟨List.cons_ne_nil _ _, fun byte hbyte => ?_⟩
    simp only [List.mem_cons, List.not_mem_nil, or_false] at hbyte
    rcases hbyte with rfl | rfl | rfl | rfl <;> rw [UInt8.toNat_ofNat'] <;> omega

section bytes
variable {limit depth : Nat} {escaped : Bool} {bytes : List UInt8}

private theorem ne_of_beyond {byte : UInt8} (h : 128 ≤ byte.toNat) {c : Char} (hc : c.toUInt8.toNat < 128) : byte ≠ c.toUInt8 := by
  rintro rfl
  omega

/-- In code, bytes beyond ASCII pass. -/
private theorem exceedsFrom_code_beyond {more : List UInt8} (h : ∀ byte ∈ more, 128 ≤ byte.toNat) :
    exceedsFrom limit depth none escaped (more ++ bytes) = exceedsFrom limit depth none escaped bytes := by
  induction more with
  | nil => rfl
  | cons byte more ih =>
    rw [List.forall_mem_cons] at h
    have hne : ∀ c d : Char, c.toUInt8.toNat < 128 → d.toUInt8.toNat < 128 → ¬ (byte = c.toUInt8 ∨ byte = d.toUInt8) :=
      fun _ _ hc hd => not_or.mpr ⟨ne_of_beyond h.1 hc, ne_of_beyond h.1 hd⟩
    rw [List.cons_append, exceedsFrom, if_neg (hne _ _ (by decide) (by decide)), if_neg (hne _ _ (by decide) (by decide)),
      if_neg (hne _ _ (by decide) (by decide))]
    exact ih h.2

/-- In a string they pass too, and the first may be the escaped one. -/
private theorem exceedsFrom_string_beyond {quote : Quote} {more : List UInt8} (hmore : more ≠ []) (h : ∀ byte ∈ more, 128 ≤ byte.toNat) :
    exceedsFrom limit depth (some quote.char.toUInt8) escaped (more ++ bytes) =
      exceedsFrom limit depth (some quote.char.toUInt8) false bytes := by
  induction more generalizing escaped with
  | nil => exact absurd rfl hmore
  | cons byte more ih =>
    rw [List.forall_mem_cons] at h
    have hstep : exceedsFrom limit depth (some quote.char.toUInt8) escaped (byte :: (more ++ bytes)) =
        exceedsFrom limit depth (some quote.char.toUInt8) false (more ++ bytes) := by
      rw [exceedsFrom]
      cases escaped with
      | true => rfl
      | false =>
        have hquote : quote.char.toUInt8.toNat < 128 := by cases quote <;> decide
        rw [if_neg (by decide), if_neg (ne_of_beyond h.1 (by decide)), if_neg (ne_of_beyond h.1 hquote)]
    rw [List.cons_append, hstep]
    cases more with
    | nil => rfl
    | cons byte' more => exact ih (List.cons_ne_nil _ _) h.2

/-- One character of the text is one step of the guard, which answers once it counts too many brackets. -/
theorem exceedsFrom_char {g : Guard} (hg : g.depth ≤ limit) (c : Char) :
    exceedsFrom limit g.depth (g.quoted.map (·.1.char.toUInt8)) (g.quoted.any (·.2)) (String.utf8EncodeChar c ++ bytes) =
      if limit < (g.step c).depth then true
      else exceedsFrom limit (g.step c).depth ((g.step c).quoted.map (·.1.char.toUInt8)) ((g.step c).quoted.any (·.2)) bytes := by
  obtain ⟨quoted, depth⟩ := g
  have hstay : ¬ limit < depth := not_lt.mpr hg
  by_cases hc : c.toNat < 128
  · rw [utf8EncodeChar_of_lt hc, List.singleton_append]
    have heq : ∀ d : Char, d.toNat < 128 → (c.toUInt8 = d.toUInt8 ↔ c = d) := fun _ => toUInt8_eq_iff hc
    cases quoted with
    | none =>
      simp only [Option.map_none, Option.any_none, exceedsFrom, heq _ (by decide : '"'.toNat < 128), heq _ (by decide : '\''.toNat < 128),
        heq _ (by decide : '['.toNat < 128), heq _ (by decide : '{'.toNat < 128), heq _ (by decide : ']'.toNat < 128),
        heq _ (by decide : '}'.toNat < 128)]
      by_cases hdouble : c = '"'
      · subst hdouble
        rw [if_pos (.inl rfl)]
        exact (if_neg hstay).symm
      by_cases hsingle : c = '\''
      · subst hsingle
        rw [if_pos (.inr rfl)]
        exact (if_neg hstay).symm
      have hcode : nextQuoted none c = none := by
        rw [nextQuoted, Quote.ofChar, if_neg hdouble, if_neg hsingle, Option.map_none]
      rw [if_neg (not_or.mpr ⟨hdouble, hsingle⟩)]
      simp only [Guard.step, hcode, Option.isNone_none, if_true, bracket, Option.map_none, Option.any_none]
      split
      · rfl
      · split
        · rw [if_neg (by omega)]
        · rfl
    | some quoted =>
      obtain ⟨quote, escaped⟩ := quoted
      have hquote : quote.char.toNat < 128 := by cases quote <;> decide
      simp only [Option.map_some, Option.any_some, exceedsFrom, heq _ (by decide : '\\'.toNat < 128), heq _ hquote]
      cases escaped with
      | true => exact (if_neg hstay).symm
      | false =>
        simp only [Guard.step, nextQuoted, Option.isNone_some, Bool.false_eq_true, if_false, if_neg hstay]
        split
        · rfl
        · split
          · rfl
          · rfl
  · obtain ⟨hne, hbeyond⟩ := utf8EncodeChar_beyond hc
    have hother : ∀ d : Char, d.toNat < 128 → c ≠ d := by
      rintro d hd rfl
      exact hc hd
    cases quoted with
    | none =>
      have hstep : Guard.step ⟨none, depth⟩ c = ⟨none, depth⟩ := by
        simp only [Guard.step, nextQuoted, Quote.ofChar, bracket, hother _ (by decide : '"'.toNat < 128), hother _ (by decide : '\''.toNat < 128),
          hother _ (by decide : '['.toNat < 128), hother _ (by decide : '{'.toNat < 128), hother _ (by decide : ']'.toNat < 128),
          hother _ (by decide : '}'.toNat < 128), if_false, or_self, Option.map_none, Option.isNone_none, if_true]
      rw [hstep, if_neg hstay]
      exact exceedsFrom_code_beyond hbeyond
    | some quoted =>
      obtain ⟨quote, escaped⟩ := quoted
      have hquote : quote.char.toNat < 128 := by cases quote <;> decide
      have hstep : Guard.step ⟨some (quote, escaped), depth⟩ c = ⟨some (quote, false), depth⟩ := by
        cases escaped with
        | true => rfl
        | false =>
          rw [Guard.step, nextQuoted, if_neg (hother _ (by decide)), if_neg (hother _ hquote)]
          rfl
      rw [hstep, if_neg hstay]
      exact exceedsFrom_string_beyond hne hbeyond

end bytes

theorem exceedsFrom_eq_false_iff {limit : Nat} {g : Guard} (hg : g.depth ≤ limit) (text : List Char) :
    exceedsFrom limit g.depth (g.quoted.map (·.1.char.toUInt8)) (g.quoted.any (·.2)) (utf8 text) = false ↔
      ∀ before, before <+: text → (g.run before).depth ≤ limit := by
  induction text generalizing g with
  | nil =>
    refine iff_of_true (by cases g.quoted <;> rfl) fun before hbefore => ?_
    rw [List.prefix_nil.mp hbefore]
    exact hg
  | cons c text ih =>
    rw [utf8, List.flatMap_cons, exceedsFrom_char hg]
    by_cases hstep : limit < (g.step c).depth
    · rw [if_pos hstep]
      refine iff_of_false (by decide) fun h => ?_
      exact absurd (h [c] (List.prefix_append [c] text)) (not_le.mpr hstep)
    · rw [if_neg hstep]
      refine (ih (not_lt.mp hstep)).trans ?_
      constructor
      · intro h before hbefore
        rcases List.prefix_cons_iff.mp hbefore with rfl | ⟨rest, rfl, hrest⟩
        · exact hg
        · exact h rest hrest
      · intro h rest hrest
        exact h (c :: rest) (List.prefix_cons_iff.mpr (.inr ⟨rest, rfl, hrest⟩))

/-- The guard lets a text pass when it never counts more brackets open than the limit. -/
theorem jsonDepthExceeds_eq_false_iff {text : List Char} {limit : Nat} :
    jsonDepthExceeds text limit = false ↔ ∀ before, before <+: text → (Guard.run ⟨none, 0⟩ before).depth ≤ limit :=
  exceedsFrom_eq_false_iff (g := ⟨none, 0⟩) (Nat.zero_le limit) text

end Hoglet.Flags
