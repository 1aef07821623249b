import Mathlib.Data.List.Basic
import Mathlib.Tactic

/-! Standard base64 with padding, strict: a text decodes only when it is what its bytes encode to. -/
namespace Hoglet.Base64

/-- The character of a six-bit value. -/
def digit (v : Nat) : UInt8 :=
  UInt8.ofNat (if v < 26 then v + 65 else if v < 52 then v + 71 else if v < 62 then v - 4 else if v = 62 then 43 else 47)

def value (b : UInt8) : Option Nat :=
  let n := b.toNat
  if 65 ≤ n ∧ n ≤ 90 then some (n - 65)
  else if 97 ≤ n ∧ n ≤ 122 then some (n - 71)
  else if 48 ≤ n ∧ n ≤ 57 then some (n + 4)
  else if n = 43 then some 62
  else if n = 47 then some 63
  else none

/-- The padding, `=`. -/
def pad : UInt8 := 61

def encode : List UInt8 → List UInt8
  | [] => []
  | [a] => [digit (a.toNat / 4), digit (a.toNat % 4 * 16), pad, pad]
  | [a, b] => [digit (a.toNat / 4), digit (a.toNat % 4 * 16 + b.toNat / 16), digit (b.toNat % 16 * 4), pad]
  | a :: b :: c :: rest =>
    digit (a.toNat / 4) :: digit (a.toNat % 4 * 16 + b.toNat / 16) :: digit (b.toNat % 16 * 4 + c.toNat / 64) ::
      digit (c.toNat % 64) :: encode rest

/-- The one or two bytes of a padded group. The bits that the padding cuts off must be zero. -/
def decodePadded (a b c : UInt8) : Option (List UInt8) := do
  let v0 ← value a
  let v1 ← value b
  if c = pad then
    if v1 % 16 = 0 then some [UInt8.ofNat (v0 * 4 + v1 / 16)] else none
  else
    let v2 ← value c
    if v2 % 4 = 0 then some [UInt8.ofNat (v0 * 4 + v1 / 16), UInt8.ofNat (v1 % 16 * 16 + v2 / 4)] else none

def decodeGroup (a b c d : UInt8) : Option (List UInt8) := do
  let v0 ← value a
  let v1 ← value b
  let v2 ← value c
  let v3 ← value d
  return [UInt8.ofNat (v0 * 4 + v1 / 16), UInt8.ofNat (v1 % 16 * 16 + v2 / 4), UInt8.ofNat (v2 % 4 * 64 + v3)]

def decode : List UInt8 → Option (List UInt8)
  | [] => some []
  | a :: b :: c :: d :: rest =>
    if d = pad ∧ rest = [] then decodePadded a b c
    else do return (← decodeGroup a b c d) ++ (← decode rest)
  | _ => none

/-- The characters a text of base64 may have: digits and padding. -/
def isDigit (b : UInt8) : Bool := (value b).isSome || b = pad

theorem value_digit (v : Nat) (h : v < 64) : value (digit v) = some v := by
  have hall : ∀ v : Fin 64, value (digit v.val) = some v.val := by decide
  exact hall ⟨v, h⟩

theorem digit_ne_pad (v : Nat) (h : v < 64) : digit v ≠ pad := by
  have hall : ∀ v : Fin 64, digit v.val ≠ pad := by decide
  exact hall ⟨v, h⟩

theorem value_lt {b : UInt8} {v : Nat} (h : value b = some v) : v < 64 := by
  simp only [value] at h
  split at h
  · cases h; omega
  split at h
  · cases h; omega
  split at h
  · cases h; omega
  split at h
  · cases h; omega
  split at h
  · cases h; omega
  · cases h

private theorem ofNat_eq (a : UInt8) {n : Nat} (h : n = a.toNat) : UInt8.ofNat n = a := by rw [h, UInt8.ofNat_toNat]

private theorem decodePadded_one (a : UInt8) :
    decodePadded (digit (a.toNat / 4)) (digit (a.toNat % 4 * 16)) pad = some [a] := by
  have ha := a.toNat_lt
  have h0 := value_digit (a.toNat / 4) (by omega)
  have h1 := value_digit (a.toNat % 4 * 16) (by omega)
  simp only [decodePadded, h0, h1, Option.bind_eq_bind, Option.bind_some, if_true]
  rw [if_pos (by omega), ofNat_eq a (by omega)]

private theorem decodePadded_two (a b : UInt8) :
    decodePadded (digit (a.toNat / 4)) (digit (a.toNat % 4 * 16 + b.toNat / 16)) (digit (b.toNat % 16 * 4)) =
      some [a, b] := by
  have ha := a.toNat_lt
  have hb := b.toNat_lt
  have h0 := value_digit (a.toNat / 4) (by omega)
  have h1 := value_digit (a.toNat % 4 * 16 + b.toNat / 16) (by omega)
  have h2 := value_digit (b.toNat % 16 * 4) (by omega)
  have hne := digit_ne_pad (b.toNat % 16 * 4) (by omega)
  simp only [decodePadded, h0, h1, h2, Option.bind_eq_bind, Option.bind_some, if_neg hne]
  rw [if_pos (by omega), ofNat_eq a (by omega), ofNat_eq b (by omega)]

private theorem decodeGroup_three (a b c : UInt8) :
    decodeGroup (digit (a.toNat / 4)) (digit (a.toNat % 4 * 16 + b.toNat / 16)) (digit (b.toNat % 16 * 4 + c.toNat / 64))
      (digit (c.toNat % 64)) = some [a, b, c] := by
  have ha := a.toNat_lt
  have hb := b.toNat_lt
  have hc := c.toNat_lt
  have h0 := value_digit (a.toNat / 4) (by omega)
  have h1 := value_digit (a.toNat % 4 * 16 + b.toNat / 16) (by omega)
  have h2 := value_digit (b.toNat % 16 * 4 + c.toNat / 64) (by omega)
  have h3 := value_digit (c.toNat % 64) (by omega)
  simp only [decodeGroup, h0, h1, h2, h3, Option.bind_eq_bind, Option.bind_some, Option.pure_def]
  rw [ofNat_eq a (by omega), ofNat_eq b (by omega), ofNat_eq c (by omega)]

theorem decode_encode (bytes : List UInt8) : decode (encode bytes) = some bytes := by
  induction bytes using encode.induct with
  | case1 => rfl
  | case2 a => rw [encode, decode, if_pos ⟨rfl, rfl⟩, decodePadded_one]
  | case3 a b => rw [encode, decode, if_pos ⟨rfl, rfl⟩, decodePadded_two]
  | case4 a b c rest ih =>
    have hc := c.toNat_lt
    rw [encode, decode, if_neg fun h => digit_ne_pad _ (by omega) h.1, decodeGroup_three, ih]
    rfl

theorem length_encode (bytes : List UInt8) : 4 ∣ (encode bytes).length := by
  induction bytes using encode.induct with
  | case1 => exact Nat.dvd_zero 4
  | case2 a => exact ⟨1, rfl⟩
  | case3 a b => exact ⟨1, rfl⟩
  | case4 a b c rest ih =>
    obtain ⟨k, hk⟩ := ih
    exact ⟨k + 1, by simp only [encode, List.length_cons, hk]; omega⟩

private theorem isDigit_digit (v : Nat) (h : v < 64) : isDigit (digit v) = true := by
  rw [isDigit, value_digit v h]
  rfl

theorem encode_digits (bytes : List UInt8) : ∀ b ∈ encode bytes, isDigit b = true := by
  induction bytes using encode.induct with
  | case1 => exact fun b hb => absurd hb List.not_mem_nil
  | case2 a =>
    have ha := a.toNat_lt
    simp only [encode, List.forall_mem_cons]
    exact ⟨isDigit_digit _ (by omega), isDigit_digit _ (by omega), rfl, rfl, fun b hb => absurd hb List.not_mem_nil⟩
  | case3 a b =>
    have ha := a.toNat_lt
    have hb := b.toNat_lt
    simp only [encode, List.forall_mem_cons]
    exact ⟨isDigit_digit _ (by omega), isDigit_digit _ (by omega), isDigit_digit _ (by omega), rfl,
      fun b hb => absurd hb List.not_mem_nil⟩
  | case4 a b c rest ih =>
    have ha := a.toNat_lt
    have hb := b.toNat_lt
    have hc := c.toNat_lt
    simp only [encode, List.forall_mem_cons]
    exact ⟨isDigit_digit _ (by omega), isDigit_digit _ (by omega), isDigit_digit _ (by omega), isDigit_digit _ (by omega), ih⟩

/-- The first byte tells the first character. -/
theorem encode_head (a : UInt8) (rest : List UInt8) : ∃ tail, encode (a :: rest) = digit (a.toNat / 4) :: tail := by
  cases rest with
  | nil => exact ⟨_, rfl⟩
  | cons b rest =>
    cases rest with
    | nil => exact ⟨_, rfl⟩
    | cons c rest => exact ⟨_, rfl⟩

/-- The first character bounds the first byte. -/
theorem decode_head {a : UInt8} {text bytes : List UInt8} {v : Nat} (hv : value a = some v)
    (h : decode (a :: text) = some bytes) : ∃ r < 4, ∃ rest, bytes = UInt8.ofNat (v * 4 + r) :: rest := by
  have hquarter {b : UInt8} {w : Nat} (hw : value b = some w) : w / 16 < 4 := by
    have := value_lt hw
    omega
  match text, h with
  | [], h => cases h
  | [_], h => cases h
  | [_, _], h => cases h
  | b :: c :: d :: rest, h =>
    rw [decode] at h
    split at h
    · simp only [decodePadded, hv, Option.bind_eq_bind, Option.bind_some, Option.bind_eq_some_iff] at h
      obtain ⟨w, hw, h⟩ := h
      refine ⟨w / 16, hquarter hw, ?_⟩
      split at h
      · split at h
        · exact ⟨_, (Option.some.inj h).symm⟩
        · cases h
      · obtain ⟨u, -, h⟩ := Option.bind_eq_some_iff.mp h
        split at h
        · exact ⟨_, (Option.some.inj h).symm⟩
        · cases h
    · simp only [decodeGroup, hv, Option.bind_eq_bind, Option.bind_some, Option.bind_eq_some_iff, Option.pure_def,
        Option.some.injEq] at h
      obtain ⟨group, ⟨w, hw, _, -, _, -, rfl⟩, _, -, rfl⟩ := h
      exact ⟨w / 16, hquarter hw, _, rfl⟩

private theorem length_decodePadded {a b c : UInt8} {bytes : List UInt8} (h : decodePadded a b c = some bytes) :
    bytes.length ≤ 3 := by
  simp only [decodePadded, Option.bind_eq_bind, Option.bind_eq_some_iff] at h
  obtain ⟨v0, -, v1, -, h⟩ := h
  split at h
  · split at h
    · cases h
      exact Nat.le_add_left 1 2
    · cases h
  · obtain ⟨v2, -, h⟩ := Option.bind_eq_some_iff.mp h
    split at h
    · cases h
      exact Nat.le_add_left 2 1
    · cases h

private theorem length_decodeGroup {a b c d : UInt8} {bytes : List UInt8} (h : decodeGroup a b c d = some bytes) :
    bytes.length ≤ 3 := by
  simp only [decodeGroup, Option.bind_eq_bind, Option.bind_eq_some_iff, Option.pure_def, Option.some.injEq] at h
  obtain ⟨v0, -, v1, -, v2, -, v3, -, rfl⟩ := h
  exact le_refl 3

theorem length_decode {text bytes : List UInt8} (h : decode text = some bytes) : bytes.length ≤ text.length := by
  induction text using decode.induct generalizing bytes with
  | case1 =>
    cases h
    exact le_refl _
  | case2 a b c d rest hlast =>
    rw [decode, if_pos hlast] at h
    exact (length_decodePadded h).trans (by simp only [List.length_cons]; omega)
  | case3 a b c d rest hmore ih =>
    rw [decode, if_neg hmore] at h
    simp only [Option.bind_eq_bind, Option.bind_eq_some_iff, Option.pure_def, Option.some.injEq] at h
    obtain ⟨group, hgroup, others, hothers, rfl⟩ := h
    have := length_decodeGroup hgroup
    have := ih hothers
    simp only [List.length_append, List.length_cons]
    omega
  | case4 text hnil hgroup =>
    unfold decode at h
    split at h
    · exact absurd rfl hnil
    · exact absurd rfl (hgroup _ _ _ _ _)
    · cases h

end Hoglet.Base64
