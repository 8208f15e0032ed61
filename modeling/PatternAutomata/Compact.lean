/-
  Diagrams and numberings with handles of 32 bits. Every handle that is made from a
  length, and every sum and difference of handles, is checked: one that does not fit
  is a fault. `value` reads handles as numbers again. Fragments are built on them;
  deterministic automata keep numbers.
-/
import PatternAutomata.Automaton.Numbering
import PatternAutomata.Error

namespace PatternAutomata

namespace Compact

/-- Why there is no result. -/
inductive Fault where
  /-- What is asked for is refused, whatever the width of handles. -/
  | refused (e : Error)
  /-- A handle does not fit into 32 bits. -/
  | overflow
deriving DecidableEq

/-! ### Arithmetic on handles -/

/-- A length as a handle. -/
def handle (n : Nat) : Except Fault UInt32 :=
  if n < UInt32.size then .ok (UInt32.ofNat n) else .error .overflow

/-- The sum of two handles. -/
def add (a b : UInt32) : Except Fault UInt32 :=
  if a.toNat + b.toNat < UInt32.size then .ok (a + b) else .error .overflow

/-- The difference of two handles. -/
def sub (a b : UInt32) : Except Fault UInt32 :=
  if b.toNat ≤ a.toNat then .ok (a - b) else .error .overflow

/-! ### Diagrams -/

/-- A directed, labelled move between two states. -/
structure Move where
  source : UInt32
  target : UInt32
  label : Label

/-- The move with both ends `k` places further on. -/
def Move.shift (k : UInt32) (m : Move) : Except Fault Move := do
  let source ← add m.source k
  let target ← add m.target k
  return { m with source, target }

/-- A state: its marks, and the handles of the moves that leave and enter it. -/
structure State where
  isStart : Bool := false
  isAccept : Bool := false
  outgoing : List UInt32 := []
  incoming : List UInt32 := []

/-- The state with the handles of its moves `k` places further on. -/
def State.shift (k : UInt32) (s : State) : Except Fault State := do
  let outgoing ← s.outgoing.mapM (add · k)
  let incoming ← s.incoming.mapM (add · k)
  return { s with outgoing, incoming }

/-- States and moves, and the symbols on the moves in order of first appearance. -/
structure Diagram where
  states : Array State := #[]
  moves : Array Move := #[]
  alphabet : List Char := []

/-- The move between the numbers of its states. -/
def Move.value (m : Move) : PatternAutomata.Move where
  source := m.source.toNat
  target := m.target.toNat
  label := m.label

/-- The state with the numbers of its moves. -/
def State.value (s : State) : PatternAutomata.State where
  isStart := s.isStart
  isAccept := s.isAccept
  outgoing := s.outgoing.map UInt32.toNat
  incoming := s.incoming.map UInt32.toNat

namespace Diagram

/-- The diagram with handles as numbers. -/
def value (d : Diagram) : PatternAutomata.Diagram where
  states := d.states.map State.value
  moves := d.moves.map Move.value
  alphabet := d.alphabet

/-- Add a state, and give its handle: the number of states that there are now, less one. -/
def addState (d : Diagram) (s : State) : Except Fault (UInt32 × Diagram) := do
  let states := d.states.push s
  let count ← handle states.size
  let h ← sub count 1
  return (h, { d with states })

/-- Add a move and list it at both its ends. -/
def addMove (d : Diagram) (source target : UInt32) (label : Label) : Except Fault Diagram := do
  let m ← handle d.moves.size
  let states := d.states.modify source.toNat fun s => { s with outgoing := s.outgoing ++ [m] }
  return {
    states := states.modify target.toNat fun s => { s with incoming := s.incoming ++ [m] }
    moves := d.moves.push { source, target, label }
    alphabet := label.insertInto d.alphabet }

/-- Put all of `e` behind `d`, and give what is added to the handles of its states. -/
def absorb (d e : Diagram) : Except Fault (UInt32 × Diagram) := do
  let stateOffset ← handle d.states.size
  let moveOffset ← handle d.moves.size
  let states ← e.states.toList.mapM (·.shift moveOffset)
  let moves ← e.moves.toList.mapM (·.shift stateOffset)
  return (stateOffset, {
    states := d.states ++ states
    moves := d.moves ++ moves
    alphabet := e.alphabet.foldl insertSymbol d.alphabet })

/-- Take the start mark off a state. -/
def unmarkStart (d : Diagram) (h : UInt32) : Diagram :=
  { d with states := d.states.modify h.toNat fun s => { s with isStart := false } }

/-- Take the accepting mark off a state. -/
def unmarkAccept (d : Diagram) (h : UInt32) : Diagram :=
  { d with states := d.states.modify h.toNat fun s => { s with isAccept := false } }

/-- Where the moves that leave a state lead. -/
def successors (d : Diagram) (h : UInt32) : List UInt32 :=
  ((d.states[h.toNat]?.getD {}).outgoing.filterMap (d.moves[·.toNat]?)).map Move.target

end Diagram

/-! ### Numberings -/

/-- The identifier of each state, 0 for one that has none, and the numbered states in order. -/
structure Numbering where
  ids : Array UInt32
  order : Array UInt32

namespace Numbering

/-- The numbering with handles and identifiers as numbers. -/
def value (n : Numbering) : PatternAutomata.Numbering where
  roster := {
    order := n.order.map UInt32.toNat
    places := n.ids.map fun id => if id = 0 then none else some (id.toNat - 1) }

/-- No state is numbered. -/
def blank (n : Nat) : Numbering := { ids := Array.replicate n 0, order := #[] }

/-- Number a state that has no identifier yet: with the number of states numbered then. -/
def enter (n : Numbering) (h : UInt32) : Except Fault Numbering :=
  if n.ids[h.toNat]? = some 0 then do
    let id ← handle (n.order.push h).size
    return { ids := n.ids.setIfInBounds h.toNat id, order := n.order.push h }
  else return n

/-- Number states one after the other. -/
def enterAll (n : Numbering) (hs : List UInt32) : Except Fault Numbering := hs.foldlM enter n

/-- How many states can still be numbered. -/
def vacancies (n : Numbering) : Nat := n.ids.count 0

/-- An identifier takes one vacancy. -/
theorem vacancies_enter {n m : Numbering} {h : UInt32} (hm : n.enter h = .ok m) :
    m.vacancies + m.order.size = n.vacancies + n.order.size := by
  unfold enter at hm
  split at hm
  · rename_i hh
    obtain ⟨hlt, hzero⟩ := Array.getElem?_eq_some_iff.mp hh
    have hpos : 0 < n.ids.count 0 := Array.count_pos_iff.mpr (hzero ▸ Array.getElem_mem hlt)
    unfold handle at hm
    split at hm
    · rename_i hfits
      have hid : UInt32.ofNat (n.order.push h).size ≠ 0 := by
        intro heq
        have hnat := congrArg UInt32.toNat heq
        rw [UInt32.toNat_ofNat_of_lt' hfits] at hnat
        simp at hnat
      cases hm
      generalize UInt32.ofNat (n.order.push h).size = id at hid ⊢
      simp [vacancies, Array.setIfInBounds, hlt, Array.count_set, hzero, hid]
      omega
    · cases hm
  · cases hm
    rfl

theorem vacancies_enterAll {n m : Numbering} {hs : List UInt32} (hm : n.enterAll hs = .ok m) :
    m.vacancies + m.order.size = n.vacancies + n.order.size := by
  induction hs generalizing n with
  | nil =>
    cases hm
    rfl
  | cons h hs ih =>
    unfold enterAll at hm
    rw [List.foldlM_cons] at hm
    cases hn : n.enter h with
    | error f =>
      rw [hn] at hm
      cases hm
    | ok n' =>
      rw [hn] at hm
      rw [ih hm, vacancies_enter hn]

/-- From place `i` on, number the neighbours of each state, those numbered on the way included. -/
def explore (next : UInt32 → List UInt32) (n : Numbering) (i : Nat) : Except Fault Numbering :=
  if h : i < n.order.size then
    match hm : n.enterAll (next n.order[i]) with
    | .ok m => explore next m (i + 1)
    | .error f => .error f
  else .ok n
termination_by n.vacancies + n.order.size - i
decreasing_by
  have := vacancies_enterAll hm
  omega

end Numbering

end Compact

end PatternAutomata
