import Hoglet.Query.Trends.Masks
import Hoglet.Checks

/-! `span_has_bit` on the machine's own words, every operation checked as a debug build checks it: the scan runs into no
fault, ends, and finds what the scan of the masks finds. -/
namespace Hoglet.Query.Trends
open Explore (hasBit)

/-- What stops a debug build, and a scan that is still going after its turns. -/
inductive ScanFault where
  | shift
  | underflow
  | overflow
  | turns

/-- `u64` and `usize`. -/
abbrev Word := BitVec 64

def shl (x amount : Word) : Except ScanFault Word := if amount.toNat < 64 then .ok (x <<< amount.toNat) else .error .shift

def minus (a b : Word) : Except ScanFault Word := if b ≤ a then .ok (a - b) else .error .underflow

def plus (a b : Word) : Except ScanFault Word := if a.toNat + b.toNat < 2^64 then .ok (a + b) else .error .overflow

/-- The mask of `take` bits from `offset` on. -/
def spanMask (take offset : Word) : Except ScanFault Word :=
  if take = 64 then .ok (BitVec.allOnes 64)
  else do
    let past ← shl 1 take
    let ones ← minus past 1
    shl ones offset

/-- The loop of `span_has_bit` from `start` on. -/
def spanHasBitLoop (words : List Word) (hi : Word) : Nat → Word → Except ScanFault Bool
  | 0, _ => .error .turns
  | turns + 1, start =>
    if start < hi then do
      let offset := start % 64
      let rest ← minus 64 offset
      let left ← minus hi start
      let take := if rest ≤ left then rest else left
      let mask ← spanMask take offset
      if words[(start / 64).toNat]?.any fun bits => bits &&& mask ≠ 0 then .ok true
      else plus start take >>= spanHasBitLoop words hi turns
    else .ok false

/-! No operation of a turn faults, and its mask is the one of the masks' scan. -/
section turn
variable {a b take offset start hi : Word}

private theorem minus_ok (h : b ≤ a) : minus a b = .ok (a - b) := if_pos h

private theorem plus_ok (h : a.toNat + b.toNat < 2^64) : plus a b = .ok (a + b) := if_pos h

private theorem shl_ok (h : b.toNat < 64) : shl a b = .ok (a <<< b.toNat) := if_pos h

private theorem past_toNat {n : Nat} (h : n < 64) : ((1 : Word) <<< n).toNat = 2^n := by
  rw [BitVec.toNat_shiftLeft, Nat.shiftLeft_eq]
  have hpow : 2^n < 2^64 := Nat.pow_lt_pow_right (by decide) h
  simpa using Nat.mod_eq_of_lt hpow

private theorem spanMask_ok (hpos : 0 < take.toNat) (hfit : offset.toNat + take.toNat ≤ 64) :
    ∃ mask, spanMask take offset = .ok mask ∧
      mask.toNat = if take.toNat = 64 then 2^64 - 1 else (2^take.toNat - 1) <<< offset.toNat := by
  have htake : take = 64 ↔ take.toNat = 64 := BitVec.toNat_inj.symm
  by_cases h : take.toNat = 64
  · refine ⟨BitVec.allOnes 64, by rw [spanMask, if_pos (htake.mpr h)], ?_⟩
    rw [if_pos h, BitVec.toNat_allOnes]
  · have hpast := past_toNat (show take.toNat < 64 by omega)
    have hone : (1 : Word) ≤ (1 : Word) <<< take.toNat := by
      rw [BitVec.le_def, hpast]
      exact Nat.one_le_two_pow
    refine ⟨((1 : Word) <<< take.toNat - 1) <<< offset.toNat, ?_, ?_⟩
    · rw [spanMask, if_neg (mt htake.mp h)]
      exact bind_ok.mpr ⟨_, shl_ok (by omega), bind_ok.mpr ⟨_, minus_ok hone, shl_ok (by omega)⟩⟩
    · rw [if_neg h, BitVec.toNat_shiftLeft, BitVec.toNat_sub_of_le hone, hpast]
      -- the shifted ones end below the width, so nothing is cut off
      have hcut : (2^take.toNat - 1) <<< offset.toNat < 2^64 := by
        rw [Nat.shiftLeft_eq]
        calc (2^take.toNat - 1) * 2^offset.toNat < 2^take.toNat * 2^offset.toNat :=
              Nat.mul_lt_mul_of_pos_right (Nat.sub_lt (Nat.two_pow_pos _) one_pos) (Nat.two_pow_pos _)
          _ = 2^(take.toNat + offset.toNat) := (Nat.pow_add 2 _ _).symm
          _ ≤ 2^64 := Nat.pow_le_pow_right (by decide) (by omega)
      exact Nat.mod_eq_of_lt hcut

private theorem and_toNat_ne_zero : a &&& b ≠ 0 ↔ a.toNat &&& b.toNat ≠ 0 := by
  rw [← BitVec.toNat_and, ne_eq, ne_eq, ← BitVec.toNat_inj]
  rfl

/-- One turn below the end: no fault, on the chunk that the masks' scan takes. -/
private theorem spanHasBitLoop_turn (words : List Word) (turns : Nat) (h : start < hi) :
    ∃ next mask : Word, next.toNat = start.toNat + min (64 - start.toNat % 64) (hi.toNat - start.toNat) ∧
      mask.toNat = (if min (64 - start.toNat % 64) (hi.toNat - start.toNat) = 64 then 2^64 - 1
        else (2^min (64 - start.toNat % 64) (hi.toNat - start.toNat) - 1) <<< (start.toNat % 64)) ∧
      spanHasBitLoop words hi (turns + 1) start =
        if words[start.toNat / 64]?.any fun bits => bits &&& mask ≠ 0 then .ok true else spanHasBitLoop words hi turns next := by
  rw [BitVec.lt_def] at h
  have hoffset : (start % 64).toNat = start.toNat % 64 := BitVec.toNat_umod
  have hword : (start / 64).toNat = start.toNat / 64 := BitVec.toNat_udiv
  have hlt : start.toNat % 64 < 64 := Nat.mod_lt _ (by decide)
  have hrest : start % 64 ≤ 64 := by
    rw [BitVec.le_def, hoffset]
    exact hlt.le
  have hleft : start ≤ hi := by
    rw [BitVec.le_def]
    exact h.le
  have hrestNat : (64 - start % 64 : Word).toNat = 64 - start.toNat % 64 := by
    rw [BitVec.toNat_sub_of_le hrest, hoffset]
    rfl
  have hleftNat : (hi - start).toNat = hi.toNat - start.toNat := BitVec.toNat_sub_of_le hleft
  let take : Word := if 64 - start % 64 ≤ hi - start then 64 - start % 64 else hi - start
  have htake : take.toNat = min (64 - start.toNat % 64) (hi.toNat - start.toNat) := by
    rw [← hrestNat, ← hleftNat]
    by_cases hle : 64 - start % 64 ≤ hi - start
    · rw [min_eq_left (BitVec.le_def.mp hle)]
      exact congrArg BitVec.toNat (if_pos hle)
    · rw [min_eq_right (not_le.mp (mt BitVec.le_def.mpr hle)).le]
      exact congrArg BitVec.toNat (if_neg hle)
  have hhi := hi.isLt
  obtain ⟨mask, hmask, hmaskNat⟩ : ∃ mask, spanMask take (start % 64) = .ok mask ∧ mask.toNat =
      if take.toNat = 64 then 2^64 - 1 else (2^take.toNat - 1) <<< (start % 64).toNat := spanMask_ok (by omega) (by omega)
  have hadd : start.toNat + take.toNat < 2^64 := by omega
  refine ⟨start + take, mask, ?_, ?_, ?_⟩
  · rw [BitVec.toNat_add_of_lt hadd, htake]
  · rw [hmaskNat, htake, hoffset]
  · rw [spanHasBitLoop, if_pos (BitVec.lt_def.mpr h), ← hword]
    change (minus 64 (start % 64) >>= _) = _
    rw [minus_ok hrest]
    change (minus hi start >>= _) = _
    rw [minus_ok hleft]
    change (spanMask take (start % 64) >>= _) = _
    rw [hmask]
    change (if _ = true then _ else plus start take >>= _) = _
    rw [plus_ok hadd]
    rfl

end turn

/-- The scan of the machine's words computes what the scan of the masks computes, in one turn for each word it meets. -/
theorem spanHasBitLoop_eq {words : List Word} {hi start : Word} {turns room : Nat} (hroom : hi.toNat ≤ start.toNat + room)
    (hturns : 0 < turns) (hwords : start < hi → hi.toNat / 64 + 2 ≤ turns + start.toNat / 64) :
    spanHasBitLoop words hi turns start = .ok (spanHasBitFrom (words.map BitVec.toNat) hi.toNat room start.toNat) := by
  induction turns generalizing start room with
  | zero => exact absurd hturns (lt_irrefl 0)
  | succ turns ih =>
    by_cases hlt : start < hi
    · have hltNat := BitVec.lt_def.mp hlt
      obtain ⟨room, rfl⟩ : ∃ r, room = r + 1 := ⟨room - 1, by omega⟩
      obtain ⟨next, mask, hnext, hmask, hturn⟩ := spanHasBitLoop_turn words turns hlt
      have hmod : start.toNat % 64 < 64 := Nat.mod_lt _ (by decide)
      have hbits : ((words.map BitVec.toNat)[start.toNat / 64]?.any fun bits => bits &&& mask.toNat ≠ 0) =
          words[start.toNat / 64]?.any fun bits => bits &&& mask ≠ 0 := by
        rw [List.getElem?_map, Option.any_map]
        exact congrArg (Option.any · _) (funext fun bits => decide_eq_decide.mpr and_toNat_ne_zero.symm)
      specialize hwords hlt
      have hcont : spanHasBitLoop words hi turns next = .ok (spanHasBitFrom (words.map BitVec.toNat) hi.toNat room next.toNat) :=
        ih (by omega) (by omega) fun hnextlt => by
          rw [BitVec.lt_def] at hnextlt
          omega
      rw [hturn, spanHasBitFrom, if_pos hltNat]
      simp only []
      rw [← hmask, ← hnext, hbits, hcont]
      split <;> rfl
    · have hdone : ¬ start.toNat < hi.toNat := mt BitVec.lt_def.mpr hlt
      rw [spanHasBitLoop, if_neg hlt]
      cases room with
      | zero => rfl
      | succ room => rw [spanHasBitFrom, if_neg hdone]

/-- The scan ends without a fault within one turn for each word of the span and one more, true when a bit of the span
is set; the bits beyond the last word are not. -/
theorem spanHasBitLoop_exactly (words : List Word) (lo hi : Word) : ∃ found : Bool,
    (∀ turns, hi.toNat / 64 - lo.toNat / 64 + 2 ≤ turns → spanHasBitLoop words hi turns lo = .ok found) ∧
      (found = true ↔ ∃ i, lo.toNat ≤ i ∧ i < hi.toNat ∧ (words.getD (i / 64) 0).getLsbD (i % 64) = true) := by
  refine ⟨spanHasBit (words.map BitVec.toNat) lo.toNat hi.toNat, fun turns hturns => ?_, ?_⟩
  · refine spanHasBitLoop_eq (by omega) (by omega) fun hlt => ?_
    rw [BitVec.lt_def] at hlt
    omega
  · have hbit : ∀ i, hasBit (words.map BitVec.toNat) i = (words.getD (i / 64) 0).getLsbD (i % 64) := fun i => by
      rw [hasBit, List.getD_eq_getElem?_getD, List.getD_eq_getElem?_getD, List.getElem?_map]
      cases words[i / 64]? <;> rfl
    rw [spanHasBit_iff]
    simp only [hbit]

end Hoglet.Query.Trends
