/-
  What makes a diagram sound. `Coherent` is what walking it needs: no handle
  leads out of range. `Consistent` is what building it keeps: the lists at the
  states say exactly, and in order, which moves leave and enter them.
-/
import PatternAutomata.Automaton

namespace PatternAutomata

namespace Diagram

/-- Each state lists moves that exist and leave it, and each move ends at a state that exists. -/
structure Coherent (d : Diagram) : Prop where
  outgoing : ∀ h, ∀ m ∈ (d.state h).outgoing, ∃ move, d.moves[m]? = some move ∧ move.source = h
  target_lt : ∀ move ∈ d.moves, move.target < d.states.size

/-- The handles of the moves that satisfy a test, in order of creation. -/
def movesWhere (d : Diagram) (p : Move → Bool) : List Nat :=
  (List.range d.moves.size).filter fun m => d.moves[m]?.any p

/-- Moves join states that exist; each is listed once at its source and once at its target, in
order of creation; and the alphabet lists each symbol on a move once. -/
structure Consistent (d : Diagram) : Prop where
  source_lt : ∀ move ∈ d.moves, move.source < d.states.size
  target_lt : ∀ move ∈ d.moves, move.target < d.states.size
  outgoing : ∀ h < d.states.size, (d.state h).outgoing = d.movesWhere (·.source = h)
  incoming : ∀ h < d.states.size, (d.state h).incoming = d.movesWhere (·.target = h)
  nodup_alphabet : d.alphabet.Nodup
  mem_alphabet : ∀ c, c ∈ d.alphabet ↔ ∃ move ∈ d.moves, move.label = .symbol c

end Diagram

namespace Automaton

/-- A coherent diagram with a start that exists. -/
structure Coherent (a : Automaton) : Prop extends a.toDiagram.Coherent where
  start_lt : a.start < a.states.size

/-- A consistent diagram with a start that exists, and the accepting states listed in order. -/
structure Consistent (a : Automaton) : Prop extends a.toDiagram.Consistent where
  start_lt : a.start < a.states.size
  accepting : a.accepting = (List.range a.states.size).filter fun h => (a.state h).isAccept

end Automaton

end PatternAutomata
