import Mathlib.Data.List.Basic
import Mathlib.Tactic

/-! UTF-8 text as bytes. -/
namespace Hoglet.Json

def utf8 (cs : List Char) : List UInt8 := cs.flatMap String.utf8EncodeChar

theorem length_utf8_append (a b : List Char) : (utf8 (a ++ b)).length = (utf8 a).length + (utf8 b).length := by
  rw [utf8, List.flatMap_append, List.length_append]
  rfl

theorem length_utf8_singleton (c : Char) : (utf8 [c]).length = c.utf8Size := by
  rw [utf8, List.flatMap_singleton, String.length_utf8EncodeChar]

theorem length_utf8_cons (c : Char) (text : List Char) : (utf8 (c :: text)).length = c.utf8Size + (utf8 text).length := by
  rw [← List.singleton_append, length_utf8_append, length_utf8_singleton]

theorem length_utf8_concat (text : List Char) (c : Char) : (utf8 (text ++ [c])).length = (utf8 text).length + c.utf8Size := by
  rw [length_utf8_append, length_utf8_singleton]

theorem utf8ByteSize_ofList (cs : List Char) : (String.ofList cs).utf8ByteSize = (utf8 cs).length := by
  rw [← String.size_toByteArray, String.toByteArray_ofList, List.utf8Encode, List.size_toByteArray]
  rfl

theorem utf8EncodeChar_of_lt {c : Char} (h : c.toNat < 128) : String.utf8EncodeChar c = [c.toUInt8] := by
  unfold String.utf8EncodeChar
  simp only
  rw [if_pos (by change c.toNat ≤ 127; omega)]
  rfl

theorem utf8_ascii {cs : List Char} (h : ∀ c ∈ cs, c.toNat < 128) : utf8 cs = cs.map Char.toUInt8 := by
  induction cs with
  | nil => rfl
  | cons c cs ih =>
    obtain ⟨hc, hcs⟩ := List.forall_mem_cons.mp h
    have hcons : utf8 (c :: cs) = String.utf8EncodeChar c ++ utf8 cs := rfl
    rw [hcons, utf8EncodeChar_of_lt hc, ih hcs]
    rfl

def ofUtf8 (bytes : List UInt8) : Option (List Char) := bytes.toByteArray.utf8Decode?.map Array.toList

theorem ofUtf8_utf8 (cs : List Char) : ofUtf8 (utf8 cs) = some cs := by
  have h := List.utf8Decode?_utf8Encode (l := cs)
  rw [List.utf8Encode] at h
  simp [ofUtf8, utf8, h]

theorem utf8_of_ofUtf8 {bytes : List UInt8} {cs : List Char} (h : ofUtf8 bytes = some cs) : utf8 cs = bytes := by
  simp only [ofUtf8, Option.map_eq_some_iff] at h
  obtain ⟨a, ha, rfl⟩ := h
  have he := ByteArray.utf8Encode_get_utf8Decode? (b := bytes.toByteArray) (h := by simp [ha])
  simp only [ha, Option.get_some, List.utf8Encode] at he
  have hd := congrArg (fun b : ByteArray => b.data.toList) he
  simpa [utf8, List.data_toByteArray] using hd

theorem nul_of_utf8EncodeChar {c : Char} (h : 0 ∈ String.utf8EncodeChar c) : c = '\x00' := by
  have hz : ∀ n : Nat, (0 : UInt8) = UInt8.ofNat n ↔ n % 256 = 0 := by
    intro n
    rw [← UInt8.toNat_inj, UInt8.toNat_ofNat']
    exact eq_comm
  unfold String.utf8EncodeChar at h
  simp only at h
  split at h
  · rename_i hv
    rw [List.mem_singleton, hz] at h
    have h0 : c.val.toNat = 0 := by omega
    exact Char.ext (UInt32.toNat_inj.mp h0)
  split at h
  · simp only [List.mem_cons, List.not_mem_nil, or_false, hz] at h
    omega
  split at h
  · simp only [List.mem_cons, List.not_mem_nil, or_false, hz] at h
    omega
  · simp only [List.mem_cons, List.not_mem_nil, or_false, hz] at h
    omega

/-- A NUL byte only stands for the NUL character. -/
theorem nul_of_ofUtf8 {bytes : List UInt8} {cs : List Char} (h : ofUtf8 bytes = some cs) (h0 : 0 ∈ bytes) :
    '\x00' ∈ cs := by
  rw [← utf8_of_ofUtf8 h, utf8, List.mem_flatMap] at h0
  obtain ⟨c, hc, hn⟩ := h0
  rwa [← nul_of_utf8EncodeChar hn]

end Hoglet.Json
