/-
  Finite automata as arenas. A `Diagram` holds states and moves, each known by
  its handle (its place in the order of creation); every move is listed with the
  state it leaves and with the state it enters, in order of creation. An
  `Automaton` is a diagram with a start and accepting states.
-/
namespace PatternAutomata

/-- What a move reads: nothing, or one symbol. -/
inductive Label where
  | epsilon
  | symbol (c : Char)
deriving DecidableEq

/-- The character that stands for a label. That of an epsilon move is also an ordinary symbol. -/
def Label.char : Label → Char
  | epsilon => 'ϵ'
  | symbol c => c

/-- A directed, labelled move between two states. -/
structure Move where
  source : Nat
  target : Nat
  label : Label
deriving DecidableEq

/-- The move with both ends `k` places further on. -/
def Move.shift (k : Nat) (m : Move) : Move :=
  { m with source := m.source + k, target := m.target + k }

/-- A state: its marks, and the handles of the moves that leave and enter it. -/
structure State where
  isStart : Bool := false
  isAccept : Bool := false
  outgoing : List Nat := []
  incoming : List Nat := []
deriving DecidableEq

/-- The state with the handles of its moves `k` places further on. -/
def State.shift (k : Nat) (s : State) : State :=
  { s with outgoing := s.outgoing.map (· + k), incoming := s.incoming.map (· + k) }

/-- Put a symbol at the end of an alphabet that does not have it yet. -/
def insertSymbol (alphabet : List Char) (c : Char) : List Char :=
  if c ∈ alphabet then alphabet else alphabet ++ [c]

/-- Put the symbol of a label, if it has one, into an alphabet. -/
def Label.insertInto (alphabet : List Char) : Label → List Char
  | epsilon => alphabet
  | symbol c => insertSymbol alphabet c

/-- States and moves, and the symbols on the moves in order of first appearance. -/
structure Diagram where
  states : Array State := #[]
  moves : Array Move := #[]
  alphabet : List Char := []
deriving DecidableEq

namespace Diagram

/-! ### Building -/

/-- Add a state. Its handle is the number of states before. -/
def addState (d : Diagram) (s : State) : Diagram :=
  { d with states := d.states.push s }

/-- Add a move and list it at both its ends. -/
def addMove (d : Diagram) (source target : Nat) (label : Label) : Diagram :=
  let m := d.moves.size
  { states := (d.states.modify source fun s => { s with outgoing := s.outgoing ++ [m] }).modify
      target fun s => { s with incoming := s.incoming ++ [m] }
    moves := d.moves.push { source, target, label }
    alphabet := label.insertInto d.alphabet }

/-- Put all of `e` behind `d`: handles of `e` move on by the numbers of states and moves of `d`. -/
def absorb (d e : Diagram) : Diagram where
  states := d.states ++ e.states.map (·.shift d.moves.size)
  moves := d.moves ++ e.moves.map (·.shift d.states.size)
  alphabet := e.alphabet.foldl insertSymbol d.alphabet

/-- Take the start mark off a state. -/
def unmarkStart (d : Diagram) (h : Nat) : Diagram :=
  { d with states := d.states.modify h fun s => { s with isStart := false } }

/-- Take the accepting mark off a state. -/
def unmarkAccept (d : Diagram) (h : Nat) : Diagram :=
  { d with states := d.states.modify h fun s => { s with isAccept := false } }

/-! ### Looking -/

/-- The state with a handle; beyond the last one, a state with no marks and no moves. -/
def state (d : Diagram) (h : Nat) : State := d.states[h]?.getD {}

/-- The moves that leave a state, in order of creation. -/
def movesFrom (d : Diagram) (h : Nat) : List Move :=
  (d.state h).outgoing.filterMap (d.moves[·]?)

/-- The moves that enter a state, in order of creation. -/
def movesInto (d : Diagram) (h : Nat) : List Move :=
  (d.state h).incoming.filterMap (d.moves[·]?)

/-- Where the moves that leave a state lead. -/
def successors (d : Diagram) (h : Nat) : List Nat :=
  (d.movesFrom h).map Move.target

/-- Where the moves with a label that leave a state lead. -/
def follow (d : Diagram) (h : Nat) (label : Label) : List Nat :=
  (d.movesFrom h).filterMap fun m => if m.label = label then some m.target else none

/-- Where the moves with a label that leave one of several states lead. -/
def followAll (d : Diagram) (hs : List Nat) (label : Label) : List Nat :=
  hs.flatMap (d.follow · label)

/-- No state has an epsilon move or two moves with one label. -/
def Deterministic (d : Diagram) : Prop :=
  ∀ h < d.states.size,
    .epsilon ∉ (d.movesFrom h).map Move.label ∧ ((d.movesFrom h).map Move.label).Nodup

instance (d : Diagram) : Decidable d.Deterministic :=
  inferInstanceAs (Decidable (∀ h < d.states.size, _ ∧ _))

/-- Whether every label has a symbol, and no symbol comes twice or is among those `seen`. -/
def allNew (seen : List Char) : List Label → Bool
  | [] => true
  | .epsilon :: _ => false
  | .symbol c :: labels => if c ∈ seen then false else allNew (seen ++ [c]) labels

/-- Walk along the moves of each state, noting the symbols seen at it. -/
def isDeterministic (d : Diagram) : Bool :=
  (List.range d.states.size).all fun h => allNew [] ((d.movesFrom h).map Move.label)

theorem allNew_iff {seen : List Char} {labels : List Label} : allNew seen labels = true ↔
    .epsilon ∉ labels ∧ labels.Nodup ∧ ∀ c ∈ seen, .symbol c ∉ labels := by
  induction labels generalizing seen with
  | nil => simp [allNew]
  | cons label labels ih =>
    cases label with
    | epsilon => simp [allNew]
    | symbol c =>
      unfold allNew
      by_cases hc : c ∈ seen
      · rw [if_pos hc]
        exact ⟨nofun, fun ⟨_, _, hseen⟩ => absurd List.mem_cons_self (hseen c hc)⟩
      · simp only [hc, if_false, ih, List.nodup_cons, List.mem_cons, List.mem_append, not_or]
        grind

/-- The walk decides. -/
theorem isDeterministic_iff {d : Diagram} : d.isDeterministic = true ↔ d.Deterministic := by
  simp [isDeterministic, Deterministic, allNew_iff]

end Diagram

/-- A diagram with a start and a list of accepting states. -/
structure Automaton extends Diagram where
  start : Nat := 0
  accepting : List Nat := []
deriving DecidableEq

end PatternAutomata
