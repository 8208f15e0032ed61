/-
  Whole-word acceptance by simulation: the states that can be active after the
  symbols read so far are kept as a list without repetitions, closed under
  epsilon moves. One record of places serves all closures of a run; each closure
  finds it blank and leaves it blank.
-/
import PatternAutomata.Automaton
import PatternAutomata.Automaton.Roster

namespace PatternAutomata

namespace Diagram

/-- Enter handles and all that epsilon moves lead to from them into a roster. -/
def enterClosure (d : Diagram) (r : Roster) (seeds : List Nat) : Roster :=
  (r.enterAll seeds).explore (d.follow · .epsilon) 0

/-- The states that epsilon moves lead to from `seeds`, and the scratch record cleared. -/
def closeWith (d : Diagram) (scratch : Array (Option Nat)) (seeds : List Nat) :
    List Nat × Array (Option Nat) :=
  let r := d.enterClosure ⟨#[], scratch⟩ seeds
  (r.order.toList, r.clear)

end Diagram

namespace Automaton

/-- Whether the rest of a word leads from the active states to an accepting one. -/
def acceptsFrom (a : Automaton) (scratch : Array (Option Nat)) (active : List Nat) :
    List Char → Bool
  | [] => active.any fun h => (a.state h).isAccept
  | c :: w =>
    match a.followAll active (.symbol c) with
    | [] => false
    | seeds =>
      let (active, scratch) := a.closeWith scratch seeds
      a.acceptsFrom scratch active w

/-- Whether the automaton accepts the word. -/
def accepts (a : Automaton) (w : List Char) : Bool :=
  let (active, scratch) := a.closeWith (Array.replicate a.states.size none) [a.start]
  a.acceptsFrom scratch active w

end Automaton

end PatternAutomata
