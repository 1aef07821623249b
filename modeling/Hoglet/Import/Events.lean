import Hoglet.Capture.Event
import Mathlib.Data.Prod.Lex
import Mathlib.Order.WithBot

/-! The import of a PostHog project's events: pages in `(timestamp, uuid)` order, sent in batches, and a checkpoint file that a
run which stopped goes on from. -/
namespace Hoglet.Import
open Json Capture

/-- Rows per PostHog query page. -/
def pageRows : Nat := 5000
/-- Events per Hoglet `/batch/` request. -/
def batchEvents : Nat := 500

/-- `(timestamp, uuid)` as PostHog formats them: times of one width, so that text order is time order. -/
abbrev Key := String ×ₗ String

/-- A row of the query's answer: uuid, event, distinct id, timestamp, properties. -/
abbrev Row (ν : Type) := List (Value ν)

structure Event (ν : Type) where
  uuid : String
  event : String
  distinctId : String
  timestamp : String
  properties : Value ν

/-- Whether all events are in is noted beside the last imported key; nothing imported is before every key. -/
structure Checkpoint where
  after : WithBot Key
  events : Nat
  eventsDone : Bool
  deriving DecidableEq

def Checkpoint.default : Checkpoint := ⟨⊥, 0, false⟩

section row
variable {ν : Type} (N : Numbers ν)

def text (row : Row ν) (index : Nat) : String := (row[index]?.bind Value.asStr).getD ""

def key (row : Row ν) : Key := toLex (text row 3, text row 0)

/-- What `continue` does not skip. -/
def importable (row : Row ν) : Bool := text row 0 ≠ "" ∧ text row 1 ≠ "" ∧ text row 2 ≠ ""

/-- `serde_json::from_str`. -/
def readJson (encoded : String) : Option (Value ν) := (parse N recursionBudget encoded.toList).map normalize

def properties (row : Row ν) : Value ν :=
  match (row[4]? : Option (Value ν)) with
  | some (.string encoded) => (readJson N encoded).getD (.object [])
  | some (.object members) => .object members
  | _ => .object []

def rfc3339 (timestamp : String) : String := String.ofList (timestamp.toList.map fun c => if c = ' ' then 'T' else c) ++ "Z"

def toEvent (row : Row ν) : Event ν where
  uuid := text row 0
  event := text row 1
  distinctId := text row 2
  timestamp := rfc3339 (text row 3)
  properties := properties N row

def batch (rows : List (Row ν)) : List (Event ν) := (rows.filter importable).map (toEvent N)

/-- The key of the last row that was kept. -/
def last (rows : List (Row ν)) : WithBot Key := ((rows.filter importable).getLast?.map key : Option Key)

/-- `batch.chunks(BATCH_EVENTS)`. -/
def chunks {α : Type} (l : List α) : List (List α) :=
  (List.range ((l.length + batchEvents - 1) / batchEvents)).map fun i => (l.drop (i * batchEvents)).take batchEvents

/-- PostHog's answer: of the rows past the key, in order, as many as a page holds. Rows with one key come in any order. -/
def IsPage (rows : List (Row ν)) (after : WithBot Key) (page : List (Row ν)) : Prop :=
  ∃ ordered : List (Row ν), ordered.Perm (rows.filter fun row => after < (key row : WithBot Key)) ∧
    ordered.Pairwise (fun a b => key a ≤ key b) ∧ page = ordered.take pageRows

end row

/-- Where a run of `import_events` is. -/
inductive Phase (ν : Type) where
  | stopped
  | head (checkpoint : Checkpoint)
  | sending (checkpoint : Checkpoint) (page : List (Row ν)) (left : List (List (Event ν)))
  | saving (checkpoint : Checkpoint) (page : List (Row ν))
  | finishing (checkpoint : Checkpoint)
  | ended

/-- The checkpoint file and what Hoglet received; `written` is every key that a checkpoint was written with after a page. -/
structure State (ν : Type) where
  file : Checkpoint
  sent : List (Event ν)
  written : List (WithBot Key)
  phase : Phase ν

def State.init (ν : Type) : State ν := ⟨Checkpoint.default, [], [], .stopped⟩

inductive Act (ν : Type) where
  | start
  | read (page : List (Row ν))
  | capture
  | save
  /-- The run stops, at an error or when it is killed; a request it had sent may have arrived, any number of times. -/
  | stop (arrived : Nat)

section steps
variable {ν : Type} (N : Numbers ν) (rows : List (Row ν))

/-- The checkpoint after a page. -/
def Checkpoint.next (c : Checkpoint) (page : List (Row ν)) : Checkpoint :=
  ⟨last page, c.events + (page.filter importable).length, c.eventsDone⟩

/-- The request under way. -/
def Phase.request : Phase ν → List (Event ν)
  | .sending _ _ (chunk :: _) => chunk
  | _ => []

inductive Step : Act ν → State ν → State ν → Prop
  | start {s : State ν} : s.phase = .stopped → s.file.eventsDone = false → Step .start s { s with phase := .head s.file }
  | skip {s : State ν} : s.phase = .stopped → s.file.eventsDone = true → Step .start s { s with phase := .ended }
  | read {s : State ν} {c : Checkpoint} {page : List (Row ν)} : s.phase = .head c → IsPage rows c.after page →
    Step (.read page) s { s with phase := if page = [] then .finishing { c with eventsDone := true } else .sending c page (chunks (batch N page)) }
  | capture {s : State ν} {c : Checkpoint} {page : List (Row ν)} {chunk : List (Event ν)} {left : List (List (Event ν))} :
    s.phase = .sending c page (chunk :: left) →
    Step .capture s { s with sent := s.sent ++ chunk, phase := .sending c page left }
  | sent {s : State ν} {c : Checkpoint} {page : List (Row ν)} : s.phase = .sending c page [] →
    Step .capture s { s with phase := .saving (c.next page) page }
  | save {s : State ν} {c : Checkpoint} {page : List (Row ν)} : s.phase = .saving c page →
    Step .save s { s with
      file := c
      written := s.written ++ [c.after]
      phase := if page.length < pageRows then .finishing { c with eventsDone := true } else .head c }
  | finish {s : State ν} {c : Checkpoint} : s.phase = .finishing c → Step .save s { s with file := c, phase := .ended }
  | stop {s : State ν} (arrived : Nat) :
    Step (.stop arrived) s { s with sent := s.sent ++ (List.replicate arrived s.phase.request).flatten, phase := .stopped }

/-- A run of any steps. -/
inductive Run (P : Act ν → State ν → Prop) : State ν → State ν → Prop
  | refl (s : State ν) : Run P s s
  | tail {a b c : State ν} {act : Act ν} : Run P a b → P act b → Step N rows act b c → Run P a c

/-- A run of so many steps in which every call succeeds. -/
inductive Succeeds (P : Act ν → State ν → Prop) : Nat → State ν → State ν → Prop
  | refl (s : State ν) : Succeeds P 0 s s
  | head {n : Nat} {a b c : State ν} {act : Act ν} : (∀ arrived, act ≠ .stop arrived) → P act a → Step N rows act a b →
    Succeeds P n b c → Succeeds P (n + 1) a c

end steps
end Hoglet.Import
