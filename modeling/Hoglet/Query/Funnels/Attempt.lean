import Mathlib.Data.List.FinRange
import Mathlib.Data.Nat.Bitwise
import Mathlib.Tactic

/-! The search for a person's counting attempt at a funnel: from each anchor the events are scanned once, and the
deepest attempt that no exclusion discards is kept. -/
namespace Hoglet.Query.Funnels

structure Event where
  ts : Int
  mask : Nat
  deriving DecidableEq, Repr

structure Exclusion where
  bit : Nat
  fromStep : Nat
  toStep : Nat
  deriving DecidableEq, Repr

inductive FunnelOrder where
  | ordered | strict | unordered
  deriving DecidableEq, Repr

structure Attempt where
  anchor : Nat
  /-- Time each reached step was reached. -/
  times : List Int
  deriving DecidableEq, Repr

/-- `count_ones` of a `u64`. -/
def countOnes (mask : Nat) : Nat := (List.range 64).countP mask.testBit

/-- The mask of the steps. -/
def stepBits (steps : Nat) : Nat := 1 <<< steps - 1

section scans
variable (events : List Event) (steps : Nat) (window : Int)

/-- The indices after an anchor. -/
def after {n : Nat} (index : Nat) : List (Fin n) := (List.finRange n).drop (index + 1)

def orderedFrom (start : Int) : List (Fin events.length) → List (Fin events.length) → List (Fin events.length)
  | [], positions => positions
  | index :: rest, positions =>
    if positions.length = steps ∨ window < (events.get index).ts - start then positions
    else if (events.get index).mask &&& 1 <<< positions.length ≠ 0 then orderedFrom start rest (positions ++ [index])
    else orderedFrom start rest positions

def orderedPositions (anchor : Fin events.length) : List (Fin events.length) :=
  orderedFrom events steps window (events.get anchor).ts (after anchor) [anchor]

def strictFrom (start : Int) : List (Fin events.length) → List (Fin events.length) → List (Fin events.length)
  | [], positions => positions
  | index :: rest, positions =>
    if positions.length < steps ∧ (events.get index).ts - start ≤ window ∧ (events.get index).mask &&& 1 <<< positions.length ≠ 0 then
      strictFrom start rest (positions ++ [index])
    else positions

def strictPositions (anchor : Fin events.length) : List (Fin events.length) :=
  strictFrom events steps window (events.get anchor).ts (after anchor) [anchor]

def unorderedFrom (start : Int) : List (Fin events.length) → Nat → List Int → List Int
  | [], _, times => times
  | index :: rest, covered, times =>
    if covered = stepBits steps ∨ window < (events.get index).ts - start then times
    else
      let new := (events.get index).mask &&& stepBits steps &&& ((2^64 - 1) ^^^ covered)
      if new ≠ 0 then unorderedFrom start rest (covered ||| new) (times ++ List.replicate (countOnes new) (events.get index).ts)
      else unorderedFrom start rest covered times

def unorderedTimes (anchor : Fin events.length) : List Int :=
  let covered := (events.get anchor).mask &&& stepBits steps
  unorderedFrom events steps window (events.get anchor).ts (after anchor) covered
    (List.replicate (countOnes covered) (events.get anchor).ts)

/-- Whether an exclusion event happens between its two steps; no positions at all would be a panic. -/
def tainted (positions : List (Fin events.length)) (exclusions : List Exclusion) : Bool :=
  match positions with
  | [] => false
  | first :: _ =>
    exclusions.any fun exclusion =>
      match positions[exclusion.fromStep]? with
      | none => false
      | some start =>
        let stop := match positions[exclusion.toStep]? with
          | some last => last.val
          | none => (((after start.val).find? fun index => window < (events.get index).ts - (events.get first).ts).map Fin.val).getD
              events.length
        ((events.take (max stop (start + 1))).drop (start + 1)).any fun event => event.mask &&& exclusion.bit ≠ 0

/-- Chain one step of one event to the latest attempt start that still fits the window. -/
def extendChain (event : Event) (chainStart : List (Option Int)) (step : Nat) : List (Option Int) :=
  match chainStart.getD (step - 1) none with
  | none => chainStart
  | some start =>
    if event.mask &&& 1 <<< step ≠ 0 ∧ event.ts - start ≤ window then chainStart.set step (some start) else chainStart

def chainEvent (chainStart : List (Option Int)) (event : Event) : List (Option Int) :=
  let chainStart := (List.range' 1 (steps - 1)).reverse.foldl (extendChain window event) chainStart
  if event.mask &&& 1 ≠ 0 then chainStart.set 0 (some event.ts) else chainStart

/-- Deepest step any ordered attempt can reach. -/
def orderedMaxDepth : Nat :=
  let chainStart := events.foldl (chainEvent steps window) (List.replicate steps none)
  (((List.range steps).reverse.find? fun step => (chainStart.getD step none).isSome).map (· + 1)).getD 0

/-- The events an attempt may start at. -/
def anchorBits (order : FunnelOrder) : Nat :=
  match order with
  | .unordered => stepBits steps
  | .ordered | .strict => 1

def ceiling (order : FunnelOrder) : Nat :=
  match order with
  | .ordered => orderedMaxDepth events steps window
  | .strict | .unordered => steps

/-- The times of the attempt from an anchor, unless an exclusion discards it. -/
def attemptTimes (order : FunnelOrder) (exclusions : List Exclusion) (anchor : Fin events.length) : Option (List Int) :=
  let surviving (positions : List (Fin events.length)) : Option (List Int) :=
    if tainted events window positions exclusions then none else some (positions.map fun index => (events.get index).ts)
  match order with
  | .unordered => some (unorderedTimes events steps window anchor)
  | .ordered => surviving (orderedPositions events steps window anchor)
  | .strict => surviving (strictPositions events steps window anchor)

def bestFrom (order : FunnelOrder) (exclusions : List Exclusion) : List (Fin events.length) → Option Attempt → Option Attempt
  | [], best => best
  | anchor :: rest, best =>
    if (events.get anchor).mask &&& anchorBits steps order = 0 then bestFrom order exclusions rest best
    else
      match attemptTimes events steps window order exclusions anchor with
      | none => bestFrom order exclusions rest best
      | some times =>
        let best := if best.all fun best => best.times.length < times.length then some ⟨anchor, times⟩ else best
        if ceiling events steps window order ≤ times.length then best else bestFrom order exclusions rest best

/-- The person's counting attempt, if any survives exclusions. -/
def bestAttempt (order : FunnelOrder) (exclusions : List Exclusion) : Option Attempt :=
  bestFrom events steps window order exclusions (List.finRange events.length) none

end scans
end Hoglet.Query.Funnels
