/-
  Paths: what an automaton accepts, said without running it. A path is a chain
  of moves; it spells the symbols on them, epsilon moves spelling nothing.
-/
import PatternAutomata.Automaton

namespace PatternAutomata

/-- What a label contributes to the word a path spells. -/
def Label.spelling : Label → List Char
  | epsilon => []
  | symbol c => [c]

/-- Moves of the diagram lead from one state to another and spell the word. -/
inductive Diagram.Path (d : Diagram) : Nat → List Char → Nat → Prop where
  | nil (s : Nat) : d.Path s [] s
  | cons {s t : Nat} {m : Move} {w : List Char} :
    m ∈ d.movesFrom s → d.Path m.target w t → d.Path s (m.label.spelling ++ w) t

/-- Some path leads from one state to the other. -/
def Diagram.Reaches (d : Diagram) (s t : Nat) : Prop := ∃ w, d.Path s w t

/-- Some path spells the word from the start to a state with the accepting mark. -/
def Automaton.AcceptsByPath (a : Automaton) (w : List Char) : Prop :=
  ∃ t, a.Path a.start w t ∧ (a.state t).isAccept = true

end PatternAutomata
