import Hoglet.Eviction
import Hoglet.Since

/-! The cache of serialized query results: bounded in entries and in bytes, the least recently used entry evicted first. -/
namespace Hoglet.ResultCache

def maxCacheBytes : Nat := 16 * 1024 * 1024

def u64Max : Nat := 2^64 - 1

def usizeEnd : Nat := 2^64

/-- Nanoseconds past which an `Instant` cannot go. -/
def instantEnd : Nat := 2^63 * 10^9

structure CacheEntry (V : Type) where
  value : V
  bytes : Nat
  lastAccess : Nat
  expires : Option Nat

structure CacheState (κ V : Type) where
  entries : Table κ (CacheEntry V)
  responseBytes : Nat
  accessClock : Nat

structure Limits where
  maxEntries : Nat
  maxBytes : Nat

/-- `ResultCache::new`. -/
def Limits.new (maxEntries : Nat) : Limits := ⟨maxEntries, maxCacheBytes⟩

section cache
variable {κ V : Type} [DecidableEq κ]

def CacheState.empty : CacheState κ V := ⟨.empty, 0, 0⟩

def CacheState.tick (s : CacheState κ V) : CacheState κ V := { s with accessClock := min (s.accessClock + 1) u64Max }

def CacheState.remove (s : CacheState κ V) (key : κ) : CacheState κ V :=
  match s.entries.get key with
  | some entry => { s with entries := s.entries.remove key, responseBytes := s.responseBytes - entry.bytes }
  | none => s

def CacheEntry.expired (entry : CacheEntry V) (now : Nat) : Bool := entry.expires.any fun expires => expires ≤ now

def CacheState.touch (s : CacheState κ V) (key : κ) : CacheState κ V :=
  { s with entries := s.entries.update fun k entry => if k = key then { entry with lastAccess := s.accessClock } else entry }

def get (s : CacheState κ V) (key : κ) (now : Nat) : Option V × CacheState κ V :=
  let s := s.tick
  if (s.entries.get key).any fun entry => entry.expired now then (none, s.remove key)
  else ((s.entries.get key).map CacheEntry.value, s.touch key)

/-- When an entry expires; none when the clock cannot count that far and the call panics. -/
def deadline (now : Nat) : Option Nat → Option (Option Nat)
  | none => some none
  | some ttl => if now + ttl < instantEnd then some (some (now + ttl)) else none

/-- The loop that evicts the least recently used entries, and which it evicted; every turn removes one, so that it ends
in as many turns as there are entries. -/
def evict (limits : Limits) (visits : Visits κ (CacheEntry V)) : Nat → CacheState κ V → CacheState κ V × List κ
  | 0, s => (s, [])
  | turns + 1, s =>
    if limits.maxEntries < s.entries.size ∨ limits.maxBytes < s.responseBytes then
      match s.entries.least visits CacheEntry.lastAccess with
      | some oldest =>
        let (rest, evicted) := evict limits visits turns (s.remove oldest)
        (rest, oldest :: evicted)
      | none => (s, [])
    else (s, [])

/-- The entry of a `put`, and its bytes, before anything is evicted. -/
def CacheState.insert (s : CacheState κ V) (key : κ) (value : V) (bytes : Nat) (expires : Option Nat) : CacheState κ V :=
  { s with
    entries := s.entries.put key ⟨value, bytes, s.accessClock, expires⟩
    responseBytes := (s.responseBytes + bytes) % usizeEnd }

/-- The state after a `put`, and the keys that it evicted. A lock that a panic left behind is taken over as it is. -/
def put (limits : Limits) (visits : Visits κ (CacheEntry V)) (s : CacheState κ V) (key : κ) (value : V) (bytes : Nat)
    (ttl : Option Nat) (now : Nat) : CacheState κ V × List κ :=
  let s := s.remove key
  if limits.maxEntries = 0 ∨ limits.maxBytes < bytes then (s, [])
  else
    match deadline now ttl with
    | none => (s.tick, [])
    | some expires =>
      let s := s.tick.insert key value bytes expires
      evict limits visits s.entries.size s

def clear (s : CacheState κ V) : CacheState κ V := { s with entries := .empty, responseBytes := 0 }

inductive Call (κ V : Type) where
  | get (key : κ)
  | put (key : κ) (value : V) (bytes : Nat) (ttl : Option Nat)
  | clear

/-- A call, when it was made, and how the entries were visited. -/
structure Made (κ V : Type) where
  call : Call κ V
  now : Nat
  visits : Visits κ (CacheEntry V)

def step (limits : Limits) (s : CacheState κ V) (m : Made κ V) : CacheState κ V :=
  match m.call with
  | .get key => (get s key m.now).2
  | .put key value bytes ttl => (put limits m.visits s key value bytes ttl m.now).1
  | .clear => clear s

def evicted (limits : Limits) (s : CacheState κ V) (m : Made κ V) : List κ :=
  match m.call with
  | .put key value bytes ttl => (put limits m.visits s key value bytes ttl m.now).2
  | _ => []

def after (limits : Limits) (run : List (Made κ V)) : CacheState κ V := run.foldl (step limits) .empty

/-! What each operation leaves of the entries and of their bytes. -/
section entries
variable {limits : Limits} {visits : Visits κ (CacheEntry V)} {s r : CacheState κ V} {key k : κ} {keys : List κ}

/-- The bytes counted are those of the entries. -/
def CacheState.Accounted (s : CacheState κ V) : Prop := s.responseBytes = s.entries.weight CacheEntry.bytes

structure CacheState.Within (s : CacheState κ V) (limits : Limits) : Prop where
  entries : s.entries.size ≤ limits.maxEntries
  bytes : s.responseBytes ≤ limits.maxBytes

omit [DecidableEq κ] in
@[simp] theorem tick_entries : s.tick.entries = s.entries := rfl

omit [DecidableEq κ] in
@[simp] theorem tick_responseBytes : s.tick.responseBytes = s.responseBytes := rfl

@[simp] theorem remove_entries_get : (s.remove key).entries.get k = if k = key then none else s.entries.get k := by
  rw [CacheState.remove]
  split
  · exact Table.get_remove _ _ _
  · rename_i h
    split
    · rename_i heq
      rw [heq, h]
    · rfl

@[simp] theorem remove_accessClock : (s.remove key).accessClock = s.accessClock := by
  rw [CacheState.remove]
  split <;> rfl

theorem Accounted.remove (h : s.Accounted) : (s.remove key).Accounted := by
  rw [CacheState.remove]
  split
  · rename_i entry hentry
    have hweight := Table.weight_remove (w := CacheEntry.bytes) hentry
    rw [CacheState.Accounted] at h ⊢
    dsimp only
    omega
  · exact h

theorem Within.remove (h : s.Within limits) : (s.remove key).Within limits := by
  rw [CacheState.remove]
  split
  · rename_i entry hentry
    have hsize := Table.size_remove hentry
    have hentries := h.entries
    exact ⟨by dsimp only; omega, (Nat.sub_le _ _).trans h.bytes⟩
  · exact h

theorem touch_entries_get : (s.touch key).entries.get k =
    (s.entries.get k).map fun entry => if k = key then { entry with lastAccess := s.accessClock } else entry :=
  Table.get_update _ _ _

theorem Accounted.touch (h : s.Accounted) : (s.touch key).Accounted := by
  have hweight : (s.touch key).entries.weight CacheEntry.bytes = s.entries.weight CacheEntry.bytes :=
    Table.weight_update fun k entry => by split <;> rfl
  exact h.trans hweight.symm

theorem Within.touch (h : s.Within limits) : (s.touch key).Within limits :=
  ⟨(Table.size_update _ _).trans_le h.entries, h.bytes⟩

/-- The turns of the loop: the entries that it evicts, each used no later than any other entry then there. -/
inductive Evicts (limits : Limits) : CacheState κ V → CacheState κ V → List κ → Prop where
  | done {s : CacheState κ V} (h : s.Within limits) : Evicts limits s s []
  | turn {s r : CacheState κ V} {oldest : κ} {entry : CacheEntry V} {keys : List κ} (hentry : s.entries.get oldest = some entry)
      (hleast : ∀ k other, s.entries.get k = some other → entry.lastAccess ≤ other.lastAccess)
      (hrest : Evicts limits (s.remove oldest) r keys) : Evicts limits s r (oldest :: keys)

omit [DecidableEq κ] in
private theorem within_of_rows (h : s.Accounted) (hrows : s.entries.rows = []) : s.Within limits := by
  rw [CacheState.Accounted, Table.weight, hrows] at h
  exact ⟨by rw [Table.size, hrows]; exact Nat.zero_le _, by rw [h]; exact Nat.zero_le _⟩

theorem evict_evicts {turns : Nat} (h : s.Accounted) (hturns : s.entries.size ≤ turns) :
    Evicts limits s (evict limits visits turns s).1 (evict limits visits turns s).2 := by
  induction turns generalizing s with
  | zero => exact .done (within_of_rows h (List.length_eq_zero_iff.mp (Nat.le_zero.mp hturns)))
  | succ turns ih =>
    rw [evict]
    split
    · cases hleast : s.entries.least visits CacheEntry.lastAccess with
      | none => exact .done (within_of_rows h (Table.least_eq_none hleast))
      | some oldest =>
        obtain ⟨entry, hentry, hle⟩ := Table.least_eq_some hleast
        have hremove : (s.remove oldest).entries.size + 1 = s.entries.size := by
          rw [CacheState.remove, hentry]
          exact (Table.size_remove hentry).symm
        exact .turn hentry hle (ih (Accounted.remove h) (by omega))
    · rename_i hover
      rw [not_or, not_lt, not_lt] at hover
      exact .done ⟨hover.1, hover.2⟩

theorem Evicts.within (h : Evicts limits s r keys) : r.Within limits := by
  induction h with
  | done h => exact h
  | turn _ _ _ ih => exact ih

theorem Evicts.accounted (h : Evicts limits s r keys) (hs : s.Accounted) : r.Accounted := by
  induction h with
  | done _ => exact hs
  | turn _ _ _ ih => exact ih (Accounted.remove hs)

theorem Evicts.accessClock (h : Evicts limits s r keys) : r.accessClock = s.accessClock := by
  induction h with
  | done _ => rfl
  | turn _ _ _ ih => exact ih.trans remove_accessClock

/-- What is not evicted stays as it was. -/
theorem Evicts.get (h : Evicts limits s r keys) (k : κ) : r.entries.get k = if k ∈ keys then none else s.entries.get k := by
  induction h with
  | done _ => rw [if_neg List.not_mem_nil]
  | @turn s r oldest entry keys hentry hleast hrest ih =>
    rw [ih, remove_entries_get]
    by_cases hk : k = oldest
    · simp [hk]
    · simp [hk]

theorem Evicts.mem (h : Evicts limits s r keys) : ∀ k ∈ keys, ∃ entry, s.entries.get k = some entry := by
  induction h with
  | done _ => exact fun k hk => absurd hk List.not_mem_nil
  | @turn s r oldest entry keys hentry hleast hrest ih =>
    intro k hk
    rcases List.mem_cons.mp hk with rfl | hk
    · exact ⟨entry, hentry⟩
    · obtain ⟨other, hother⟩ := ih k hk
      rw [remove_entries_get] at hother
      split at hother
      · cases hother
      · exact ⟨other, hother⟩

end entries
end cache
end Hoglet.ResultCache
