import Hoglet.Control.Invites
import Hoglet.Eviction

/-! Login throttling: a backoff for each email and a failure cap for each source address, in two tables of bounded size.
Instants and durations are nanoseconds. -/
namespace Hoglet.Control.Throttle

def seconds (n : Nat) : Nat := n * 10^9

/-- Failures per email before attempts start being delayed. -/
def emailFreeFailures : Nat := 5
/-- Longest delay imposed on one email. -/
def emailMaxDelay : Nat := seconds 60
/-- How long failures are remembered for an email. -/
def emailWindow : Nat := seconds (15 * 60)
/-- Failures per source address per window before it is refused. -/
def sourceMaxFailures : Nat := 30
def sourceWindow : Nat := seconds (10 * 60)
/-- Cap on tracked keys per table. -/
def maxTracked : Nat := 4096
def u32Max : Nat := 2^32 - 1

structure Entry where
  failures : Nat
  since : Nat
  blockedUntil : Option Nat
  deriving DecidableEq

structure Tables where
  emails : Table String Entry
  sources : Table String Entry

def Tables.empty : Tables := ⟨.empty, .empty⟩

def normalizeEmail (email : String) : String := String.ofList (((trim email.toList).take 254).map Char.toLower)

def Entry.blocked (entry : Entry) (now : Nat) : Bool := entry.blockedUntil.any fun stop => now < stop

/-- The rows that a full table keeps. -/
def retain (table : Table String Entry) (now window : Nat) : Table String Entry :=
  table.delete fun _ entry => !(decide (now - entry.since < window) || entry.blocked now)

/-- The row that a table still full loses. -/
def oldest (visits : Visits String Entry) (table : Table String Entry) : Option String :=
  if maxTracked ≤ table.size then table.least visits Entry.since else none

def insertBounded (visits : Visits String Entry) (table : Table String Entry) (key : String) (now window : Nat) : Table String Entry :=
  let table :=
    if (table.get key).isNone ∧ maxTracked ≤ table.size then
      match oldest visits (retain table now window) with
      | some oldest => (retain table now window).remove oldest
      | none => retain table now window
    else table
  table.upsert key ⟨0, now, none⟩ id

/-- How long a row still blocks. -/
def entryWait (entry : Option Entry) (now : Nat) : Nat :=
  match entry.bind Entry.blockedUntil with
  | some stop => if now < stop then stop - now else 0
  | none => 0

def emailWait (t : Tables) (email : String) (now : Nat) : Nat := entryWait (t.emails.get (normalizeEmail email)) now

def sourceWait (t : Tables) (source : String) (now : Nat) : Nat := entryWait (t.sources.get source) now

/-- An error is how long to wait before trying again. -/
def check (t : Tables) (email : String) (source : Option String) (now : Nat) : Except Nat Unit :=
  let wait := max (emailWait t email now) ((source.map fun source => sourceWait t source now).getD 0)
  if wait = 0 then .ok () else .error wait

def saturatingAdd (a b : Nat) : Nat := min (a + b) u32Max

/-- The delay after so many failures. -/
def delay (failures : Nat) : Nat := min (seconds (2^min (failures - emailFreeFailures) 6)) emailMaxDelay

def failEmail (now : Nat) (entry : Entry) : Entry :=
  let entry := if emailWindow ≤ now - entry.since then { entry with failures := 0, since := now } else entry
  let entry := { entry with failures := saturatingAdd entry.failures 1 }
  if emailFreeFailures ≤ entry.failures then { entry with blockedUntil := some (now + delay entry.failures) } else entry

def failSource (now : Nat) (entry : Entry) : Entry :=
  let entry := if sourceWindow ≤ now - entry.since then ⟨0, now, none⟩ else entry
  let entry := { entry with failures := saturatingAdd entry.failures 1 }
  if sourceMaxFailures ≤ entry.failures then { entry with blockedUntil := some (entry.since + sourceWindow) } else entry

/-- A failure in one of the tables. -/
def failIn (visits : Visits String Entry) (window : Nat) (fail : Nat → Entry → Entry) (table : Table String Entry) (key : String)
    (now : Nat) : Table String Entry :=
  (insertBounded visits table key now window).update fun k entry => if k = key then fail now entry else entry

def recordFailure (emailVisits sourceVisits : Visits String Entry) (t : Tables) (email : String) (source : Option String)
    (now : Nat) : Tables where
  emails := failIn emailVisits emailWindow failEmail t.emails (normalizeEmail email) now
  sources := match source with
    | some source => failIn sourceVisits sourceWindow failSource t.sources source now
    | none => t.sources

def recordSuccess (t : Tables) (email : String) : Tables := { t with emails := t.emails.remove (normalizeEmail email) }

inductive Call where
  | check (email : String) (source : Option String)
  | recordFailure (email : String) (source : Option String)
  | recordSuccess (email : String)

/-- A call, when it was made, and how each table's rows were visited. -/
structure Made where
  call : Call
  now : Nat
  emailVisits : Visits String Entry
  sourceVisits : Visits String Entry

def step (t : Tables) (m : Made) : Tables :=
  match m.call with
  | .check _ _ => t
  | .recordFailure email source => recordFailure m.emailVisits m.sourceVisits t email source m.now
  | .recordSuccess email => recordSuccess t email

def after (run : List Made) : Tables := run.foldl step .empty

/-! What an insertion keeps and what it drops. -/
section insert
variable {visits : Visits String Entry} {table : Table String Entry} {key k : String} {now window : Nat} {entry e : Entry}

/-- A row that an insertion drops is over, or is the oldest of a table that stays full. -/
structure Dropped (visits : Visits String Entry) (table : Table String Entry) (key : String) (now window : Nat) (k : String)
    (entry : Entry) : Prop where
  absent : table.get key = none
  full : maxTracked ≤ table.size
  gone : ¬ now - entry.since < window ∧ entry.blocked now = false ∨ oldest visits (retain table now window) = some k

theorem get_retain : (retain table now window).get k = some entry ↔
    table.get k = some entry ∧ (now - entry.since < window ∨ entry.blocked now = true) := by
  rw [retain, Table.get_delete_eq_some]
  simp only [Bool.not_eq_false', Bool.or_eq_true, decide_eq_true_eq]

theorem size_retain (table : Table String Entry) (now window : Nat) : (retain table now window).size ≤ table.size :=
  List.length_filter_le _ _

theorem get_retain_none (h : table.get k = none) : (retain table now window).get k = none := by
  rw [Option.eq_none_iff_forall_ne_some]
  intro e he
  rw [(get_retain.mp he).1] at h
  cases h

/-- The key inserted has its row, the others keep theirs unless they are dropped. -/
theorem get_insertBounded_key : (insertBounded visits table key now window).get key = some ((table.get key).getD ⟨0, now, none⟩) := by
  rw [insertBounded, Table.get_upsert, if_pos rfl]
  split
  · rename_i h
    have hnone := Option.isNone_iff_eq_none.mp h.1
    have hretain : (retain table now window).get key = none := get_retain_none hnone
    rw [hnone]
    split
    · rw [Table.get_remove, hretain, ite_self]
      rfl
    · rw [hretain]
      rfl
  · cases table.get key <;> rfl

theorem get_insertBounded (hk : k ≠ key) : (insertBounded visits table key now window).get k = some entry ↔
    table.get k = some entry ∧ ¬ Dropped visits table key now window k entry := by
  rw [insertBounded, Table.get_upsert, if_neg hk]
  by_cases h : (table.get key).isNone ∧ maxTracked ≤ table.size
  · rw [if_pos h]
    have hdropped : ∀ {e}, Dropped visits table key now window k e ↔
        ¬ now - e.since < window ∧ e.blocked now = false ∨ oldest visits (retain table now window) = some k :=
      fun {e} => ⟨Dropped.gone, fun hgone => ⟨Option.isNone_iff_eq_none.mp h.1, h.2, hgone⟩⟩
    rw [hdropped]
    cases holdest : oldest visits (retain table now window) with
    | none =>
      rw [get_retain]
      simp only [reduceCtorEq, or_false, not_and_or, not_not, Bool.not_eq_false]
    | some victim =>
      simp only [Table.get_remove, Option.some.injEq]
      by_cases hv : k = victim
      · simp [hv]
      · rw [if_neg hv, get_retain]
        simp only [Ne.symm hv, or_false, not_and_or, not_not, Bool.not_eq_false]
  · rw [if_neg h]
    refine ⟨fun hget => ⟨hget, fun hdropped => h ⟨?_, hdropped.full⟩⟩, And.left⟩
    rw [hdropped.absent]
    rfl

theorem size_insertBounded (h : table.size ≤ maxTracked) : (insertBounded visits table key now window).size ≤ maxTracked := by
  rw [insertBounded]
  by_cases hfull : (table.get key).isNone ∧ maxTracked ≤ table.size
  · rw [if_pos hfull]
    have hnone := Option.isNone_iff_eq_none.mp hfull.1
    have hretain : (retain table now window).get key = none := get_retain_none hnone
    have hsize := size_retain table now window
    cases holdest : oldest visits (retain table now window) with
    | none =>
      dsimp only
      rw [Table.size_upsert_none hretain]
      rw [oldest] at holdest
      split at holdest
      · rename_i hle
        have hrows := Table.least_eq_none holdest
        rw [Table.size, hrows] at hle
        exact absurd hle (by decide)
      · omega
    | some victim =>
      dsimp only
      rw [Table.size_upsert_none (by rw [Table.get_remove, hretain, ite_self])]
      rw [oldest] at holdest
      split at holdest
      · obtain ⟨e, he, -⟩ := Table.least_eq_some holdest
        have hremove := Table.size_remove he
        omega
      · cases holdest
  · rw [if_neg hfull]
    cases hget : table.get key with
    | none =>
      rw [Table.size_upsert_none hget]
      rw [hget, Option.isNone_none, not_and, not_le] at hfull
      exact hfull rfl
    | some e =>
      rw [Table.size_upsert_some hget]
      exact h

end insert
end Hoglet.Control.Throttle
