import Hoglet.Table
import Mathlib.Data.List.Infix

/-! The per-token ceiling on the events of a second: one window of one second at a time, its counts dropped when a call
names another second. -/
namespace Hoglet.RateLimit

/-- Cap on distinct tokens tracked within one window; past it a token is allowed. -/
def maxTrackedTokens : Nat := 50000

def u32Max : Nat := 2^32 - 1

structure Window where
  second : Int
  counts : Table String Nat

def Window.new : Window := ⟨0, .empty⟩

def Window.tracked (w : Window) : Nat := w.counts.rows.length

def Window.count (w : Window) (token : String) : Nat := (w.counts.get token).getD 0

/-- The window of a second. -/
def Window.moved (w : Window) (now : Int) : Window := if now ≠ w.second then ⟨now, .empty⟩ else w

def saturatingAdd (a b : Nat) : Nat := min (a + b) u32Max

/-- Record `n` events for a token, and whether they are within the ceiling. -/
def allow (maxPerSec : UInt32) (w : Window) (token : String) (n : UInt32) (now : Int) : Bool × Window :=
  let w := w.moved now
  if maxTrackedTokens ≤ w.tracked ∧ (w.counts.get token).isNone then (true, w)
  else
    let entry := saturatingAdd (w.count token) n.toNat
    (entry ≤ maxPerSec.toNat, { w with counts := w.counts.put token entry })

@[simp] theorem moved_second (w : Window) (now : Int) : (w.moved now).second = now := by
  rw [Window.moved]
  split
  · rfl
  · rename_i h
    exact (not_not.mp h).symm

theorem moved_of_eq {w : Window} {now : Int} (h : w.second = now) : w.moved now = w := if_neg (not_not.mpr h.symm)

theorem moved_count {w : Window} {now : Int} (h : w.second ≠ now) (token : String) : (w.moved now).count token = 0 := by
  rw [Window.moved, if_pos (Ne.symm h)]
  rfl

theorem tracked_moved_le (w : Window) (now : Int) : (w.moved now).tracked ≤ w.tracked := by
  rw [Window.moved]
  split
  · exact Nat.zero_le _
  · exact le_refl _

@[simp] theorem count_put (w : Window) (token : String) (entry : Nat) (other : String) :
    Window.count { w with counts := w.counts.put token entry } other = if other = token then entry else w.count other := by
  simp only [Window.count, Table.get_put]
  split
  · rfl
  · rfl

section allow
variable {max : UInt32} {w : Window} {token : String} {n : UInt32} {now : Int}

/-- A call that finds room adds to its token's count, whether it is allowed or not. -/
theorem allow_eq (h : (w.moved now).tracked < maxTrackedTokens ∨ ((w.moved now).counts.get token).isSome) :
    allow max w token n now = (decide (saturatingAdd ((w.moved now).count token) n.toNat ≤ max.toNat),
      { w.moved now with counts := (w.moved now).counts.put token (saturatingAdd ((w.moved now).count token) n.toNat) }) := by
  have hroom : ¬ (maxTrackedTokens ≤ (w.moved now).tracked ∧ ((w.moved now).counts.get token).isNone = true) := by
    rintro ⟨hfull, hnone⟩
    rcases h with h | h
    · exact absurd h (Nat.not_lt.mpr hfull)
    · rw [Option.isNone_iff_eq_none] at hnone
      rw [hnone] at h
      cases h
  rw [allow, if_neg hroom]

theorem allow_of_room (h : (w.moved now).tracked < maxTrackedTokens ∨ ((w.moved now).counts.get token).isSome) :
    ((allow max w token n now).1 = true ↔ saturatingAdd ((w.moved now).count token) n.toNat ≤ max.toNat) ∧
      (allow max w token n now).2.second = now ∧
      ∀ other, (allow max w token n now).2.count other =
        if other = token then saturatingAdd ((w.moved now).count token) n.toNat else (w.moved now).count other := by
  rw [allow_eq h]
  exact ⟨decide_eq_true_iff, moved_second w now, count_put _ _ _⟩

/-- What is allowed was not cut off by the counter. -/
theorem saturatingAdd_eq {a b : Nat} (h : saturatingAdd a b ≤ max.toNat) (hmax : max.toNat < u32Max ∨ a + b ≤ u32Max) :
    saturatingAdd a b = a + b := by
  rw [saturatingAdd] at h ⊢
  omega

end allow

/-! Runs of calls. -/
section runs

structure Call where
  token : String
  n : UInt32
  second : Int
  deriving DecidableEq

variable (max : UInt32)

/-- The calls that were allowed so far, and the window. -/
def step (s : List Call × Window) (c : Call) : List Call × Window :=
  let (allowed, w) := allow max s.2 c.token c.n c.second
  (if allowed then s.1 ++ [c] else s.1, w)

def run (calls : List Call) : List Call × Window := calls.foldl (step max) ([], .new)

/-- The events of a token in a second. -/
def total (token : String) (second : Int) (calls : List Call) : Nat :=
  ((calls.filter fun c => c.token = token ∧ c.second = second).map fun c => c.n.toNat).sum

/-- A call that does not take the window back to a second it had left, and whose count is not cut off at the largest ceiling. -/
structure Forward (past : List Call) (c : Call) : Prop where
  second : c.second = (run max past).2.second ∨ ∀ earlier ∈ past, earlier.second ≠ c.second
  counted : max.toNat < u32Max ∨ ((run max past).2.moved c.second).count c.token + c.n.toNat ≤ u32Max

variable {max}

theorem run_append (calls : List Call) (c : Call) : run max (calls ++ [c]) = step max (run max calls) c := by
  rw [run, List.foldl_append]
  rfl

theorem total_append (token : String) (second : Int) (calls : List Call) (c : Call) :
    total token second (calls ++ [c]) = total token second calls + if c.token = token ∧ c.second = second then c.n.toNat else 0 := by
  rw [total, List.filter_append, List.map_append, List.sum_append]
  by_cases h : c.token = token ∧ c.second = second
  · simp [h, total]
  · simp [h, total]

/-- Every second keeps the ceiling; in the window's second the counts that are within it are what was allowed. -/
structure Kept (past admitted : List Call) (w : Window) (max : UInt32) : Prop where
  mem : ∀ c ∈ admitted, c ∈ past
  le : ∀ token second, total token second admitted ≤ max.toNat
  count : ∀ token, w.count token ≤ max.toNat → total token w.second admitted = w.count token

theorem total_eq_zero {token : String} {second : Int} {calls : List Call} (h : ∀ c ∈ calls, c.second ≠ second) : total token second calls = 0 := by
  rw [total, List.filter_eq_nil_iff.mpr fun c hc heq => h c hc (of_decide_eq_true heq).2]
  rfl

theorem Kept.moved {past admitted : List Call} {w : Window} (h : Kept past admitted w max) {second : Int}
    (hsecond : second = w.second ∨ ∀ earlier ∈ past, earlier.second ≠ second) : Kept past admitted (w.moved second) max := by
  by_cases heq : w.second = second
  · rw [moved_of_eq heq]
    exact h
  · refine ⟨h.mem, h.le, fun token _ => ?_⟩
    have hnew := hsecond.resolve_left (Ne.symm heq)
    rw [moved_second, moved_count heq, total_eq_zero fun c hc => hnew c (h.mem c hc)]

/-- One call keeps the ceiling of every second. -/
theorem Kept.step {past : List Call} {c : Call} (h : Kept past (run max past).1 (run max past).2 max)
    (hroom : (run max past).2.tracked < maxTrackedTokens) (hc : Forward max past c) :
    Kept (past ++ [c]) (run max (past ++ [c])).1 (run max (past ++ [c])).2 max := by
  rw [run_append, RateLimit.step]
  have hmoved := h.moved hc.second
  have hcounted := hc.counted
  generalize run max past = s at hroom hmoved hcounted
  have hallow : ((allow max s.2 c.token c.n c.second).1 = true ↔ _) ∧ _ :=
    allow_of_room (.inl ((tracked_moved_le s.2 c.second).trans_lt hroom))
  obtain ⟨hallowed, hsecond, hcount⟩ := hallow
  generalize allow max s.2 c.token c.n c.second = answer at hallowed hsecond hcount
  obtain ⟨allowed, w⟩ := answer
  have hkept := hmoved.count
  rw [moved_second] at hkept
  dsimp only at hallowed hsecond hcount ⊢
  cases allowed with
  | true =>
    have hentry := hallowed.mp rfl
    have heq := saturatingAdd_eq hentry hcounted
    have htotal := hkept c.token (by omega)
    refine ⟨fun e he => ?_, fun token second => ?_, fun token hle => ?_⟩
    · rcases List.mem_append.mp he with he | he
      · exact List.mem_append_left _ (hmoved.mem e he)
      · exact List.mem_append_right _ he
    · rw [if_pos rfl, total_append]
      split
      · rename_i hsame
        obtain ⟨rfl, rfl⟩ := hsame
        omega
      · exact hmoved.le token second
    · rw [if_pos rfl, total_append, hcount, hsecond]
      rw [hcount] at hle
      by_cases htoken : token = c.token
      · subst htoken
        rw [if_pos ⟨rfl, rfl⟩, if_pos rfl, htotal, heq]
      · rw [if_neg fun hsame => htoken hsame.1.symm, if_neg htoken]
        rw [if_neg htoken] at hle
        exact hkept token hle
  | false =>
    have hover : ¬ saturatingAdd ((s.2.moved c.second).count c.token) c.n.toNat ≤ max.toNat := fun hle => by
      have := hallowed.mpr hle
      cases this
    refine ⟨fun e he => List.mem_append_left _ (hmoved.mem e he), hmoved.le, fun token hle => ?_⟩
    rw [hcount] at hle ⊢
    rw [hsecond]
    split at hle
    · exact absurd hle hover
    · rename_i htoken
      rw [if_neg htoken]
      exact hkept token hle

/-- In every run that never goes back, no token has more events allowed in a second than the ceiling. -/
theorem total_le {calls : List Call} (hroom : ∀ past, past <+: calls → (run max past).2.tracked < maxTrackedTokens)
    (hforward : ∀ past c, past ++ [c] <+: calls → Forward max past c) (token : String) (second : Int) :
    total token second (run max calls).1 ≤ max.toNat := by
  have hkept : Kept calls (run max calls).1 (run max calls).2 max := by
    induction calls using List.reverseRecOn with
    | nil =>
      refine ⟨fun c hc => absurd hc List.not_mem_nil, fun _ _ => Nat.zero_le _, fun token _ => rfl⟩
    | append_singleton past c ih =>
      have hpast : past <+: past ++ [c] := List.prefix_append past [c]
      refine (ih (fun _ hp => hroom _ (hp.trans hpast)) fun _ _ hp => hforward _ _ (hp.trans hpast)).step (hroom past hpast) ?_
      exact hforward past c List.prefix_rfl
  exact hkept.le token second

/-- A late call takes the window back to its second with nothing counted. -/
def lateCalls : List Call := [⟨"phc_t", 1, 1000⟩, ⟨"phc_t", 1, 1001⟩, ⟨"phc_t", 1, 1000⟩]

theorem late_calls_over : (∀ past, past <+: lateCalls → (run 1 past).2.tracked < maxTrackedTokens) ∧
    ¬ total "phc_t" 1000 (run 1 lateCalls).1 ≤ (1 : UInt32).toNat := by
  have hall : ∀ past ∈ lateCalls.inits, (run 1 past).2.tracked < maxTrackedTokens := by decide
  exact ⟨fun past hp => hall past ((List.mem_inits _ _).mpr hp), by decide⟩

/-- The same calls in order. -/
theorem ordered_calls_within : total "phc_t" 1000 (run 1 [⟨"phc_t", 1, 1000⟩, ⟨"phc_t", 1, 1000⟩, ⟨"phc_t", 1, 1001⟩]).1 ≤ (1 : UInt32).toNat := by
  refine total_le (fun past hp => ?_) (fun past c hp => ⟨?_, .inl (by decide)⟩) "phc_t" 1000
  · have hall : ∀ past ∈ [Call.mk "phc_t" 1 1000, ⟨"phc_t", 1, 1000⟩, ⟨"phc_t", 1, 1001⟩].inits, (run 1 past).2.tracked < maxTrackedTokens := by
      decide
    exact hall past ((List.mem_inits _ _).mpr hp)
  · have hall : ∀ calls ∈ [Call.mk "phc_t" 1 1000, ⟨"phc_t", 1, 1000⟩, ⟨"phc_t", 1, 1001⟩].inits, ∀ c ∈ calls.getLast?,
        c.second = (run 1 calls.dropLast).2.second ∨ ∀ earlier ∈ calls.dropLast, earlier.second ≠ c.second := by
      decide
    have hlast := hall (past ++ [c]) ((List.mem_inits _ _).mpr hp) c (by simp)
    rwa [List.dropLast_concat] at hlast

end runs
end Hoglet.RateLimit
