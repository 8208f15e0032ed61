/-
  The two loops that close states under epsilon moves. Subset construction takes
  states from a queue, where one may stand several times, and notes the identifier
  of a state when the state is taken (`Visit`). Simulation drops repetitions in
  place, then reads the list from its beginning, appends what the moves of each
  state lead to, and marks a state when it comes into the list (`Scan`). What
  leaves the bounds of an array gives `none`.
-/
import Std.Data.TreeSet
import PatternAutomata.Dfa

namespace PatternAutomata

/-! ### Marking what is taken -/

/-- The states taken so far, in order, the set of their identifiers, and the queue. -/
structure Visit where
  states : List Nat := []
  visited : Std.TreeSet Nat := {}
  waiting : List Nat

namespace Visit

/-- Take a state. One without an identifier is passed over, and so is one that was taken before. -/
def take (d : Diagram) (numbering : Numbering) (v : Visit) (h : Nat) : Visit :=
  match numbering.id? h with
  | none => v
  | some i =>
    if i ∈ v.visited then v
    else
      { states := v.states ++ [h]
        visited := v.visited.insert i
        waiting := v.waiting ++ d.follow h .epsilon }

/-- Taking the first state of the queue, again and again until the queue is empty, ends with `w`. -/
inductive Drains (d : Diagram) (numbering : Numbering) : Visit → Visit → Prop where
  | done {v : Visit} : v.waiting = [] → Drains d numbering v v
  | more {v w : Visit} {h : Nat} {waiting : List Nat} :
    v.waiting = h :: waiting → Drains d numbering (take d numbering { v with waiting } h) w →
      Drains d numbering v w

/-- What was taken, in order, and the identifiers noted, in ascending order. -/
def configuration (v : Visit) : Configuration where
  members := v.states
  key := v.visited.toList

end Visit

/-- A queue that starts with `seeds` gives the configuration. -/
def Diagram.Visits (d : Diagram) (numbering : Numbering) (seeds : List Nat)
    (k : Configuration) : Prop :=
  ∃ v, Visit.Drains d numbering { waiting := seeds } v ∧ v.configuration = k

/-! ### Marking what is found -/

/-- The array with another entry in a place, if it has that place. -/
def put? {α : Type} (xs : Array α) (i : Nat) (x : α) : Option (Array α) :=
  if i < xs.size then some (xs.setIfInBounds i x) else none

/-- The list of states, and for each handle whether it is marked. -/
structure Scan where
  states : Array Nat
  seen : Array Bool

/-- A list whose repetitions are being dropped: its first `kept` places hold what is kept. -/
structure Packing extends Scan where
  kept : Nat := 0

/-- Keep the state in place `i`, behind those kept before, unless it is marked. -/
def Packing.keep? (p : Packing) (i : Nat) : Option Packing := do
  let h ← p.states[i]?
  if ← p.seen[h]? then return p
  let seen ← put? p.seen h true
  let states ← put? p.states p.kept h
  return { states, seen, kept := p.kept + 1 }

namespace Scan

/-- Drop repetitions. -/
def pack? (s : Scan) : Option Scan := do
  let p ← (List.range s.states.size).foldlM Packing.keep? { s with }
  return { p with states := p.states.take p.kept }

/-- Append a state, unless it is marked. -/
def add? (s : Scan) (h : Nat) : Option Scan := do
  if ← s.seen[h]? then return s
  let seen ← put? s.seen h true
  return { states := s.states.push h, seen }

/-- Reading the list from place `i` on, to the end that it has by then, ends with `t`. -/
inductive Reads (d : Diagram) : Nat → Scan → Scan → Prop where
  | done {i : Nat} {s : Scan} : s.states.size ≤ i → Reads d i s s
  | more {i h : Nat} {s t u : Scan} :
    s.states[i]? = some h → (d.follow h .epsilon).foldlM add? s = some t →
      Reads d (i + 1) t u → Reads d i s u

/-- The record with the marks of the states in the list taken out again. -/
def clear? (s : Scan) : Option (Array Bool) :=
  s.states.foldlM (fun seen h => put? seen h false) s.seen

end Scan

/-- A list that starts with `seeds` comes to hold the states, and the record of marks that it is
given comes out as `after`. -/
def Diagram.Scans (d : Diagram) (seen : Array Bool) (seeds states : List Nat)
    (after : Array Bool) : Prop :=
  ∃ s t : Scan, Scan.pack? { states := seeds.toArray, seen } = some s ∧ Scan.Reads d 0 s t ∧
    t.states.toList = states ∧ t.clear? = some after

end PatternAutomata
