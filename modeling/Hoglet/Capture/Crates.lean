import Hoglet.Capture.Time
import Hoglet.Json.RoundTrip
import Mathlib.Data.List.TakeWhile

/-! What capture and the log use of chrono, uuid and serde_json's numbers, with the round trips these
crates document, and one small lawful instance to evaluate the model on. -/
namespace Hoglet.Capture

structure Crates (ν U : Type) where
  numbers : Json.Numbers ν
  /-- `Value::as_i64` on a number. -/
  asI64 : ν → Option Int64
  ofI64 : Int64 → ν
  asI64_ofI64 : ∀ i, asI64 (ofI64 i) = some i
  uuidText : U → String
  /-- `Uuid::parse_str`. -/
  parseUuid : String → Option U
  parseUuid_text : ∀ u, parseUuid (uuidText u) = some u
  /-- The text `DateTime<Utc>` is serialised as. -/
  timeText : DateTime → String
  ofTimeText : String → Option DateTime
  ofTimeText_text : ∀ t, ofTimeText (timeText t) = some t
  /-- `DateTime::parse_from_rfc3339`, converted to UTC. -/
  parseRfc3339 : String → Option DateTime
  /-- `NaiveDateTime::parse_from_str`, taken as UTC: text, then format. -/
  parseNaive : String → String → Option DateTime

/-! The instance: integer literals, hyphenated UUIDs, and times that print as nanoseconds except for
one, which prints as RFC 3339 does. -/
namespace Small
open Json

def intText (n : Int) : List Char :=
  if n < 0 then '-' :: Nat.toDigits 10 n.natAbs else Nat.toDigits 10 n.natAbs

def lexNat (cs : List Char) : Option (Nat × List Char) :=
  if cs.takeWhile Char.isDigit = [] then none
  else some (Nat.ofDigitChars 10 (cs.takeWhile Char.isDigit) 0, cs.dropWhile Char.isDigit)

def lexInt : List Char → Option (Int × List Char)
  | '-' :: cs => (lexNat cs).map fun p => (-(p.1 : Int), p.2)
  | cs => (lexNat cs).map fun p => ((p.1 : Int), p.2)

private theorem digits_isDigit {c : Char} {n : Nat} (h : c ∈ Nat.toDigits 10 n) : c.isDigit = true :=
  Nat.isDigit_of_mem_toDigits (by norm_num) (by norm_num) h

private theorem digits_start (n : Nat) : ∃ c cs, Nat.toDigits 10 n = c :: cs ∧ c.isDigit = true := by
  cases h : Nat.toDigits 10 n with
  | nil => exact absurd h Nat.toDigits_ne_nil
  | cons c cs => exact ⟨c, cs, rfl, digits_isDigit (n := n) (by simp [h])⟩

private theorem lexNat_digits (n : Nat) {rest : List Char} (h : ∀ c ∈ rest.head?, c.isDigit = false) :
    lexNat (Nat.toDigits 10 n ++ rest) = some (n, rest) := by
  have hall : ∀ c ∈ Nat.toDigits 10 n, c.isDigit = true := fun c hc => digits_isDigit hc
  have hrest : rest.takeWhile Char.isDigit = [] ∧ rest.dropWhile Char.isDigit = rest := by
    cases rest with
    | nil => simp
    | cons c rest => simp [h c (by simp)]
  have htake : (Nat.toDigits 10 n ++ rest).takeWhile Char.isDigit = Nat.toDigits 10 n := by
    rw [List.takeWhile_append_of_pos hall, hrest.1, List.append_nil]
  have hdrop : (Nat.toDigits 10 n ++ rest).dropWhile Char.isDigit = rest := by
    rw [List.dropWhile_append_of_pos hall, hrest.2]
  rw [lexNat, htake, hdrop, if_neg Nat.toDigits_ne_nil, Nat.ofDigitChars_ten_toDigits]

private theorem lexNat_split {cs rest : List Char} {n : Nat} (h : lexNat cs = some (n, rest)) :
    ∃ pre, cs = pre ++ rest ∧ ∀ c ∈ pre, isNumberChar c := by
  unfold lexNat at h
  split at h
  · cases h
  · cases h
    refine ⟨_, List.takeWhile_append_dropWhile.symm, fun c hc => ?_⟩
    have := List.mem_takeWhile_imp hc
    simp [isNumberChar, this]

def numbers : Numbers Int where
  text := intText
  lex := lexInt
  text_start n := by
    unfold intText
    split
    · exact ⟨'-', _, rfl, .inl rfl⟩
    · obtain ⟨c, cs, h, hc⟩ := digits_start n.natAbs
      exact ⟨c, cs, h, .inr hc⟩
  lex_text n rest h := by
    have hd : ∀ c ∈ rest.head?, c.isDigit = false := by
      intro c hc
      have := h c hc
      simp only [isNumberChar, Bool.or_eq_false_iff] at this
      exact this.1
    unfold intText
    split
    · simp only [List.cons_append, lexInt, lexNat_digits _ hd, Option.map_some]
      congr
      omega
    · obtain ⟨c, cs, hcs, hc⟩ := digits_start n.natAbs
      have hl := lexNat_digits n.natAbs hd
      rw [hcs, List.cons_append] at hl ⊢
      rw [lexInt, hl, Option.map_some]
      · congr
        omega
      · intro _ h
        rw [(List.cons.inj h).1] at hc
        exact absurd hc (by decide)
  lex_split cs n rest h := by
    unfold lexInt at h
    split at h
    · simp only [Option.map_eq_some_iff] at h
      obtain ⟨⟨m, r⟩, hm, h⟩ := h
      cases h
      obtain ⟨pre, rfl, hp⟩ := lexNat_split hm
      refine ⟨'-' :: pre, rfl, fun c hc => ?_⟩
      rcases List.mem_cons.mp hc with rfl | hc
      · rfl
      · exact hp c hc
    · simp only [Option.map_eq_some_iff] at h
      obtain ⟨⟨m, r⟩, hm, h⟩ := h
      cases h
      exact lexNat_split hm

abbrev Uuid := {digits : List (Fin 16) // digits.length = 32}

def nilUuid : Uuid := ⟨List.replicate 32 ⟨0, Nat.zero_lt_succ 15⟩, rfl⟩

def uuidText (u : Uuid) : String :=
  let hex := u.1.map fun d => hexDigit d.val
  String.ofList (hex.take 8 ++ '-' :: (hex.drop 8).take 4 ++ '-' :: (hex.drop 12).take 4 ++
    '-' :: (hex.drop 16).take 4 ++ '-' :: hex.drop 20)

def nibble (c : Char) : Option (Fin 16) :=
  match hexValue c with
  | some n => if h : n < 16 then some ⟨n, h⟩ else none
  | none => none

def parseUuid (s : String) : Option Uuid :=
  match (s.toList.filter (· ≠ '-')).mapM nibble with
  | some ds => if h : ds.length = 32 then some ⟨ds, h⟩ else none
  | none => none

private theorem hexDigit_ne : ∀ d : Fin 16, hexDigit d.val ≠ '-' := by decide
private theorem nibble_hexDigit : ∀ d : Fin 16, nibble (hexDigit d.val) = some d := by decide

private theorem mapM_nibble (ds : List (Fin 16)) : (ds.map fun d => hexDigit d.val).mapM nibble = some ds := by
  induction ds with
  | nil => rfl
  | cons d ds ih => simp [nibble_hexDigit, ih]

private theorem parseUuid_text (u : Uuid) : parseUuid (uuidText u) = some u := by
  have hkeep : ∀ l : List (Fin 16), (l.map fun d => hexDigit d.val).filter (· ≠ '-') = l.map fun d => hexDigit d.val := by
    intro l
    rw [List.filter_eq_self]
    intro c hc
    obtain ⟨d, _, rfl⟩ := List.mem_map.mp hc
    simpa using hexDigit_ne d
  have hsplit : u.1 = u.1.take 8 ++ ((u.1.drop 8).take 4 ++ ((u.1.drop 12).take 4 ++
      ((u.1.drop 16).take 4 ++ u.1.drop 20))) := by
    have h20 := List.take_append_drop 4 (u.1.drop 16)
    have h16 := List.take_append_drop 4 (u.1.drop 12)
    have h12 := List.take_append_drop 4 (u.1.drop 8)
    simp only [List.drop_drop] at h20 h16 h12
    rw [h20, h16, h12, List.take_append_drop]
  have hfilter : (uuidText u).toList.filter (· ≠ '-') = u.1.map fun d => hexDigit d.val := by
    conv => rhs; rw [hsplit]
    have hdash : ∀ l : List Char, ('-' :: l).filter (· ≠ '-') = l.filter (· ≠ '-') := by simp
    simp only [uuidText, String.toList_ofList, ← List.map_take, ← List.map_drop, List.filter_append, List.cons_append,
      List.append_assoc, hdash, hkeep, List.map_append]
  rw [parseUuid, hfilter, mapM_nibble]
  simp [u.2]

/-- 2026-07-21T12:00:00Z. -/
def noon : DateTime := .ofSeconds 1784635200

def timeText (t : DateTime) : String :=
  if t = noon then "2026-07-21T12:00:00Z" else String.ofList (intText t.ns)

def ofTimeText (s : String) : Option DateTime :=
  if s = "2026-07-21T12:00:00Z" then some noon
  else match lexInt s.toList with
    | some (n, []) => DateTime.ofNs n
    | _ => none

private theorem ofTimeText_text (t : DateTime) : ofTimeText (timeText t) = some t := by
  unfold timeText
  split
  · rename_i h
    simp [ofTimeText, h]
  · have hl := numbers.lex_text t.ns [] endsNumber_nil
    have hne : String.ofList (intText t.ns) ≠ "2026-07-21T12:00:00Z" := by
      intro h
      have hlist := congrArg String.toList h
      rw [String.toList_ofList] at hlist
      change lexInt (intText t.ns ++ []) = _ at hl
      rw [List.append_nil, hlist] at hl
      have hd := congrArg (Option.map Prod.snd) hl
      rw [show (lexInt "2026-07-21T12:00:00Z".toList).map Prod.snd = some "-07-21T12:00:00Z".toList by decide] at hd
      cases hd
    change lexInt (intText t.ns ++ []) = _ at hl
    rw [List.append_nil] at hl
    simp only [ofTimeText, hne, if_false, String.toList_ofList, hl, DateTime.ofNs_ns]

end Small

def Crates.small : Crates Int Small.Uuid where
  numbers := Small.numbers
  asI64 n := if (Int64.ofInt n).toInt = n then some (Int64.ofInt n) else none
  ofI64 := Int64.toInt
  asI64_ofI64 i := by simp
  uuidText := Small.uuidText
  parseUuid := Small.parseUuid
  parseUuid_text := Small.parseUuid_text
  timeText := Small.timeText
  ofTimeText := Small.ofTimeText
  ofTimeText_text := Small.ofTimeText_text
  parseRfc3339 := Small.ofTimeText
  parseNaive _ _ := none

end Hoglet.Capture
