/-
  An automaton as a list of statements that describe a graph: an entry node, a
  node per state that can be reached and an edge per move. A node is stated where
  the walk over the moves first meets its state, just before the edge that leads
  there. The walk has a roster of its own for the states it has met.
-/
import PatternAutomata.Automaton.Numbering

namespace PatternAutomata

/-- One statement of a description. -/
inductive Statement where
  /-- The entry node, which is not drawn. -/
  | entry
  /-- A state, drawn with a double border when accepting. -/
  | node (id : Nat) (accepting : Bool)
  /-- An edge; only the one from the entry node has no label. -/
  | edge (source target : Nat) (label : Option Label)
deriving DecidableEq

/-- A description of an automaton. -/
structure Graph where
  statements : List Statement
deriving DecidableEq

/-- The identifier of the entry node; states are numbered from 1. -/
def entryNode : Nat := 0

namespace Graph

/-- The nodes of states in order, each with whether it is accepting. -/
def nodes (g : Graph) : List (Nat × Bool) :=
  g.statements.filterMap fun
    | .node id accepting => some (id, accepting)
    | _ => none

/-- The edges in order, that from the entry node included. -/
def edges (g : Graph) : List (Nat × Nat × Option Label) :=
  g.statements.filterMap fun
    | .edge source target label => some (source, target, label)
    | _ => none

end Graph

/-- The identifier under which a state is drawn. -/
def Numbering.nodeId (n : Numbering) (h : Nat) : Nat := (n.id? h).getD entryNode

namespace Automaton

/-- An edge for each move in order. A state that is not met yet gets its node first. -/
def describeMoves (a : Automaton) (numbering : Numbering) : Roster → List Move → List Statement
  | _, [] => []
  | met, m :: ms =>
    let target := numbering.nodeId m.target
    let edge := .edge (numbering.nodeId m.source) target (some m.label)
    let rest := a.describeMoves numbering (met.enter m.target) ms
    if met.contains m.target then edge :: rest
    else .node target (a.state m.target).isAccept :: edge :: rest

/-- From place `i` on, describe the moves of each state met, those met on the way included. -/
def describeFrom (a : Automaton) (numbering : Numbering) (met : Roster) (i : Nat) :
    List Statement :=
  if h : i < met.order.size then
    a.describeMoves numbering met (a.movesFrom met.order[i]) ++
      a.describeFrom numbering (met.enterAll (a.successors met.order[i])) (i + 1)
  else []
termination_by met.vacancies + met.order.size - i
decreasing_by
  have := Roster.vacancies_enterAll met (a.successors met.order[i])
  omega

/-- The description of the automaton. -/
def graph (a : Automaton) : Graph :=
  let numbering := a.numbering
  let start := numbering.nodeId a.start
  ⟨.entry :: .node start (a.state a.start).isAccept :: .edge entryNode start none ::
    a.describeFrom numbering ((Roster.blank a.states.size).enter a.start) 0⟩

end Automaton

end PatternAutomata
