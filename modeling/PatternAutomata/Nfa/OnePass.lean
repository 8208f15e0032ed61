/-
  Fragments in one pass: all of them grow in one arena, and the stack holds only
  their bounds. Handles are final when they are given, so nothing is ever moved.
-/
import PatternAutomata.Nfa

namespace PatternAutomata

/-- One diagram for all fragments, and the start and accepting state of each fragment that is not
joined yet, last one first. -/
structure Arena where
  diagram : Diagram := {}
  bounds : List (Nat × Nat) := []

namespace Arena

/-- Add a start and an accepting state. -/
def addBounds (d : Diagram) : Diagram :=
  (d.addState { isStart := true }).addState { isAccept := true }

/-- The effect of one token; none if operands are missing or the token is a group mark. -/
def step? (a : Arena) (t : Token) : Option Arena :=
  let start := a.diagram.states.size
  let accept := start + 1
  match t, a.bounds with
  | .operand c, bounds =>
    some {
      diagram := (addBounds a.diagram).addMove start accept (.symbol c)
      bounds := (start, accept) :: bounds }
  | .operator .alternation, (s₂, t₂) :: (s₁, t₁) :: bounds =>
    some {
      diagram := addBounds (a.diagram
          |>.unmarkStart s₁ |>.unmarkAccept t₁ |>.unmarkStart s₂ |>.unmarkAccept t₂)
        |>.addMove start s₁ .epsilon |>.addMove start s₂ .epsilon
        |>.addMove t₁ accept .epsilon |>.addMove t₂ accept .epsilon
      bounds := (start, accept) :: bounds }
  | .operator .concatenation, (s₂, t₂) :: (s₁, t₁) :: bounds =>
    some {
      diagram := a.diagram |>.unmarkAccept t₁ |>.unmarkStart s₂ |>.addMove t₁ s₂ .epsilon
      bounds := (s₁, t₂) :: bounds }
  | .operator .closure, (s₁, t₁) :: bounds =>
    some {
      diagram := addBounds (a.diagram |>.unmarkStart s₁ |>.unmarkAccept t₁)
        |>.addMove start accept .epsilon |>.addMove start s₁ .epsilon
        |>.addMove t₁ accept .epsilon |>.addMove t₁ s₁ .epsilon
      bounds := (start, accept) :: bounds }
  | _, _ => none

/-- The fragment that a postfix sequence leaves in the arena, if it leaves exactly one. -/
def build? (p : Postfix) : Option Nfa := do
  let a ← p.tokens.foldlM step? {}
  match a.bounds with
  | [(start, accept)] => some { toDiagram := a.diagram, start, accept }
  | _ => none

end Arena

end PatternAutomata
