import Hoglet.Capture.Base64

/-! Base64 for URLs: `-` and `_` for the last two digits, and no padding. -/
namespace Hoglet.Base64Url
open Base64 (digit value pad)

def toUrl (b : UInt8) : UInt8 := if b = 43 then 45 else if b = 47 then 95 else b

def ofUrl (b : UInt8) : Option UInt8 :=
  if b = 45 then some 43 else if b = 95 then some 47 else if b = 43 ∨ b = 47 ∨ b = pad then none else some b

/-- The digits of a text, with no padding after them. -/
def unpadded (bytes : List UInt8) : List UInt8 := (Base64.encode bytes).filter (· ≠ pad)

/-- What makes whole groups of so many digits. -/
def padding (n : Nat) : List UInt8 := if n % 4 = 2 then [pad, pad] else if n % 4 = 3 then [pad] else []

def encode (bytes : List UInt8) : List UInt8 := (unpadded bytes).map toUrl

def decode (text : List UInt8) : Option (List UInt8) := do
  let digits ← text.mapM ofUrl
  Base64.decode (digits ++ padding digits.length)

private theorem filter_digit {v : Nat} (h : v < 64) (rest : List UInt8) :
    (digit v :: rest).filter (· ≠ pad) = digit v :: rest.filter (· ≠ pad) :=
  List.filter_cons_of_pos (decide_eq_true (Base64.digit_ne_pad v h))

private theorem filter_pad (rest : List UInt8) : (pad :: rest).filter (· ≠ pad) = rest.filter (· ≠ pad) :=
  List.filter_cons_of_neg (by simp)

private theorem padding_add_four (n : Nat) : padding (n + 4) = padding n := by
  rw [padding, padding, Nat.add_mod_right]

/-- Padding the digits again, and how many of them there are. -/
private theorem unpadded_spec (bytes : List UInt8) : unpadded bytes ++ padding (unpadded bytes).length = Base64.encode bytes ∧
    3 * (unpadded bytes).length ≤ 4 * bytes.length + 2 := by
  unfold unpadded
  induction bytes using Base64.encode.induct with
  | case1 => exact ⟨rfl, by decide⟩
  | case2 a =>
    have ha := a.toNat_lt
    rw [Base64.encode, filter_digit (by omega), filter_digit (by omega), filter_pad, filter_pad]
    exact ⟨rfl, le_refl 6⟩
  | case3 a b =>
    have ha := a.toNat_lt
    have hb := b.toNat_lt
    rw [Base64.encode, filter_digit (by omega), filter_digit (by omega), filter_digit (by omega), filter_pad]
    exact ⟨rfl, Nat.le_succ 9⟩
  | case4 a b c rest ih =>
    have ha := a.toNat_lt
    have hb := b.toNat_lt
    have hc := c.toNat_lt
    rw [Base64.encode, filter_digit (by omega), filter_digit (by omega), filter_digit (by omega), filter_digit (by omega)]
    obtain ⟨hpadded, hlength⟩ := ih
    refine ⟨?_, ?_⟩
    · simp only [List.cons_append, List.length_cons, padding_add_four, hpadded]
    · simp only [List.length_cons]
      omega

private theorem unpadded_digits (bytes : List UInt8) : ∀ b ∈ unpadded bytes, (value b).isSome = true := by
  intro b hb
  obtain ⟨hmem, hne⟩ := List.mem_filter.mp hb
  have hdigit := Base64.encode_digits bytes b hmem
  rw [Base64.isDigit, Bool.or_eq_true] at hdigit
  exact hdigit.resolve_right fun hpad => of_decide_eq_true hne (of_decide_eq_true hpad)

private theorem digit_url {b : UInt8} (h : (value b).isSome = true) : ofUrl (toUrl b) = some b ∧ (toUrl b).toNat < 128 := by
  have hall : ∀ n : Fin 256, (value (UInt8.ofNat n.val)).isSome = true →
      ofUrl (toUrl (UInt8.ofNat n.val)) = some (UInt8.ofNat n.val) ∧ (toUrl (UInt8.ofNat n.val)).toNat < 128 := by decide +kernel
  have hb := hall ⟨b.toNat, b.toNat_lt⟩
  rw [UInt8.ofNat_toNat] at hb
  exact hb h

theorem decode_encode (bytes : List UInt8) : decode (encode bytes) = some bytes := by
  have hback : (encode bytes).mapM ofUrl = some (unpadded bytes) := by
    have hall := unpadded_digits bytes
    rw [encode]
    generalize unpadded bytes = digits at hall
    induction digits with
    | nil => rfl
    | cons b digits ih =>
      rw [List.map_cons, List.mapM_cons, (digit_url (hall b List.mem_cons_self)).1,
        ih fun c hc => hall c (List.mem_cons_of_mem b hc)]
      rfl
  rw [decode, hback, Option.bind_eq_bind, Option.bind_some, (unpadded_spec bytes).1, Base64.decode_encode]

theorem length_encode_le (bytes : List UInt8) : 3 * (encode bytes).length ≤ 4 * bytes.length + 2 := by
  rw [encode, List.length_map]
  exact (unpadded_spec bytes).2

theorem encode_ascii (bytes : List UInt8) : ∀ b ∈ encode bytes, b.toNat < 128 := by
  intro b hb
  obtain ⟨c, hc, rfl⟩ := List.mem_map.mp hb
  exact (digit_url (unpadded_digits bytes c hc)).2

end Hoglet.Base64Url
