/-
  Subset construction as a loop over the states that wait to be expanded. A state
  waits, with its members, from when it is made, and the one that waits longest
  is expanded next.
-/
import PatternAutomata.Dfa

namespace PatternAutomata

/-- A subset construction under way, and the states that wait to be expanded, with their members. -/
structure Worklist extends Subsets where
  waiting : List (List Nat × Nat) := []

namespace Worklist

/-- The start is made and waits. -/
def initial (n : Nfa) (numbering : Numbering) : Worklist where
  toSubsets := Subsets.initial n numbering
  waiting := [((n.configuration numbering [n.start]).members, 0)]

/-- Give state `h` its move on symbol `c`, if its members have one. If the target is to be made, it
waits behind all others. -/
def extend (n : Nfa) (numbering : Numbering) (h : Nat) (members : List Nat)
    (w : Worklist) (c : Char) : Worklist :=
  match n.followAll members (.symbol c) with
  | [] => w
  | seeds =>
    let k := n.configuration numbering seeds
    match w.made[k.key]? with
    | some target => { w with toSubsets := w.link h target c }
    | none =>
      let target := w.dfa.states.size
      { toSubsets := (w.make n k).link h target c
        waiting := w.waiting ++ [(k.members, target)] }

/-- Expand the first state that waits. -/
def step? (n : Nfa) (numbering : Numbering) (w : Worklist) : Option (Nat × Worklist) :=
  match w.waiting with
  | [] => none
  | (members, h) :: waiting =>
    some (h, n.alphabet.foldl (extend n numbering h members) { w with waiting })

/-- The loop comes to an end with `s`, and the states it expands on the way are `hs`, in order. -/
inductive Drains (n : Nfa) (numbering : Numbering) : Worklist → List Nat → Subsets → Prop where
  | done {w : Worklist} : step? n numbering w = none → Drains n numbering w [] w.toSubsets
  | more {w v : Worklist} {h : Nat} {hs : List Nat} {s : Subsets} :
    step? n numbering w = some (h, v) → Drains n numbering v hs s →
      Drains n numbering w (h :: hs) s

end Worklist

end PatternAutomata
