/-
  Identifiers of states. The states that can be reached from the start are
  numbered 1, 2, 3, … breadth first, following each state's moves in order of
  creation. All that is printed names states by these identifiers.
-/
import PatternAutomata.Automaton
import PatternAutomata.Automaton.Roster

namespace PatternAutomata

/-- The numbered states: the one in place `i` of the roster has identifier `i + 1`. -/
structure Numbering where
  roster : Roster

namespace Numbering

/-- The identifier of a state, if it is numbered. -/
def id? (n : Numbering) (h : Nat) : Option Nat := (n.roster.place? h).map (· + 1)

/-- The state with an identifier, if there is one. -/
def handle? (n : Numbering) : Nat → Option Nat
  | 0 => none
  | i + 1 => n.roster.order[i]?

/-- The numbered states in the order of their identifiers. -/
def order (n : Numbering) : List Nat := n.roster.order.toList

/-- How many states are numbered. -/
def size (n : Numbering) : Nat := n.roster.order.size

/-- Whether no state is numbered. -/
def isEmpty (n : Numbering) : Bool := n.roster.order.isEmpty

end Numbering

/-- Number the states that can be reached from the start. -/
def Automaton.numbering (a : Automaton) : Numbering :=
  ⟨((Roster.blank a.states.size).enter a.start).explore a.successors 0⟩

end PatternAutomata
