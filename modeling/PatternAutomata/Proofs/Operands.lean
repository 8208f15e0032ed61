/-
  Operands in their combinations. A combinator adds moves only between the bounds
  of its operands and its own: inside, an operand keeps the moves it had, and at
  its bounds a few epsilon moves are added (`Operand`). New bounds have no moves
  but those added (`NewBounds`).
-/
import PatternAutomata.Proofs.Fragments

namespace PatternAutomata

namespace Diagram

/-! ## The moves at one end -/

/-- The moves with an end at a state, in order of creation; `f` says which end. -/
def movesAt (d : Diagram) (f : Move → Nat) (h : Nat) : List Move :=
  d.moves.toList.filter fun m => f m = h

section Building

variable (d e : Diagram) (f : Move → Nat) (h : Nat)

@[simp] theorem movesAt_unmarkStart (k : Nat) : (d.unmarkStart k).movesAt f h = d.movesAt f h := rfl

@[simp] theorem movesAt_unmarkAccept (k : Nat) :
    (d.unmarkAccept k).movesAt f h = d.movesAt f h := rfl

@[simp] theorem movesAt_addState (s : State) : (d.addState s).movesAt f h = d.movesAt f h := rfl

@[simp] theorem movesAt_addMove (source target : Nat) (label : Label) :
    (d.addMove source target label).movesAt f h =
      d.movesAt f h ++ if f ⟨source, target, label⟩ = h then [⟨source, target, label⟩] else [] := by
  unfold movesAt
  rw [moves_addMove, Array.toList_push, List.filter_append, List.filter_singleton, Bool.cond_eq_ite]
  simp

theorem movesAt_of_le (hf : ∀ m ∈ d.moves, f m < d.states.size) (hle : d.states.size ≤ h) :
    d.movesAt f h = [] := by
  refine List.filter_eq_nil_iff.mpr fun m hm => ?_
  have hlt := hf m (Array.mem_toList_iff.mp hm)
  simp
  omega

end Building

section Absorb

variable {d : Diagram} {f : Move → Nat} (hf : ∀ k m, f (m.shift k) = f m + k) (e : Diagram)
include hf

theorem movesAt_absorb (d : Diagram) (h : Nat) :
    (d.absorb e).movesAt f h =
      d.movesAt f h ++ (e.moves.toList.filter fun m => f m + d.states.size = h).map
        (·.shift d.states.size) := by
  unfold movesAt
  rw [moves_absorb, Array.toList_append, Array.toList_map, List.filter_append, List.filter_map]
  simp only [Function.comp_def, hf]

theorem movesAt_absorb_left {h : Nat} (hlt : h < d.states.size) :
    (d.absorb e).movesAt f h = d.movesAt f h := by
  have hnone : (e.moves.toList.filter fun m => f m + d.states.size = h) = [] := by
    refine List.filter_eq_nil_iff.mpr fun m _ => ?_
    simp
    omega
  rw [movesAt_absorb hf, hnone, List.map_nil, List.append_nil]

theorem movesAt_absorb_right (hd : ∀ m ∈ d.moves, f m < d.states.size) (h : Nat) :
    (d.absorb e).movesAt f (h + d.states.size) =
      (e.movesAt f h).map (·.shift d.states.size) := by
  rw [movesAt_absorb hf, movesAt_of_le d f _ hd (Nat.le_add_left _ _), List.nil_append]
  simp only [Nat.add_right_cancel_iff]
  rfl

end Absorb

end Diagram

namespace Nfa

/-! ## Operands in their combinations -/

/-- The fragment stands in another one, its handles `k` places further on: its states have the moves
they had, its accepting state also the moves `leaving`, and its start the moves `entering`. -/
structure Operand (a : Nfa) (k : Nat) (e : Nfa) (leaving entering : List Move) : Prop where
  source : ∀ h < a.states.size, e.movesAt Move.source (h + k) =
    (a.movesAt Move.source h).map (·.shift k) ++ if a.accept = h then leaving else []
  target : ∀ h < a.states.size, e.movesAt Move.target (h + k) =
    (a.movesAt Move.target h).map (·.shift k) ++ if a.start = h then entering else []

section Operands

variable {a b : Nfa}

theorem map_shift_zero (ms : List Move) : ms.map (·.shift 0) = ms := by
  simp [Move.shift]

theorem Fragment.operand_alternate_left (ha : a.Fragment) (b : Nfa) :
    Operand a 0 (a.alternate b) [⟨a.accept, a.states.size + b.states.size + 1, .epsilon⟩]
      [⟨a.states.size + b.states.size, a.start, .epsilon⟩] where
  source h hlt := by
    have h1 := ha.accept_lt
    rw [Nat.add_zero, map_shift_zero,
      ← Diagram.movesAt_absorb_left (fun _ _ => rfl) b.toDiagram hlt]
    simp (disch := omega) [Nfa.alternate, if_neg]
  target h hlt := by
    have h1 := ha.start_lt
    rw [Nat.add_zero, map_shift_zero,
      ← Diagram.movesAt_absorb_left (fun _ _ => rfl) b.toDiagram hlt]
    simp (disch := omega) [Nfa.alternate, if_neg]

theorem Fragment.operand_alternate_right (ha : a.Fragment) (b : Nfa) :
    Operand b a.states.size (a.alternate b)
      [⟨b.accept + a.states.size, a.states.size + b.states.size + 1, .epsilon⟩]
      [⟨a.states.size + b.states.size, b.start + a.states.size, .epsilon⟩] where
  source h hlt := by
    have h1 := ha.accept_lt
    rw [← Diagram.movesAt_absorb_right (fun _ _ => rfl) b.toDiagram ha.consistent.source_lt]
    simp (disch := omega) [Nfa.alternate, if_neg]
  target h hlt := by
    have h1 := ha.start_lt
    rw [← Diagram.movesAt_absorb_right (fun _ _ => rfl) b.toDiagram ha.consistent.target_lt]
    simp (disch := omega) [Nfa.alternate, if_neg]

theorem operand_concat_left (a b : Nfa) :
    Operand a 0 (a.concat b) [⟨a.accept, b.start + a.states.size, .epsilon⟩] [] where
  source h hlt := by
    rw [Nat.add_zero, map_shift_zero,
      ← Diagram.movesAt_absorb_left (fun _ _ => rfl) b.toDiagram hlt]
    simp [Nfa.concat]
  target h hlt := by
    rw [Nat.add_zero, map_shift_zero,
      ← Diagram.movesAt_absorb_left (fun _ _ => rfl) b.toDiagram hlt]
    simp (disch := omega) [Nfa.concat, if_neg]

theorem Fragment.operand_concat_right (ha : a.Fragment) (b : Nfa) :
    Operand b a.states.size (a.concat b) [] [⟨a.accept, b.start + a.states.size, .epsilon⟩] where
  source h hlt := by
    have h1 := ha.accept_lt
    rw [← Diagram.movesAt_absorb_right (fun _ _ => rfl) b.toDiagram ha.consistent.source_lt]
    simp (disch := omega) [Nfa.concat, if_neg]
  target h hlt := by
    rw [← Diagram.movesAt_absorb_right (fun _ _ => rfl) b.toDiagram ha.consistent.target_lt]
    simp [Nfa.concat]

theorem Fragment.operand_closure (ha : a.Fragment) :
    Operand a 0 a.closure
      [⟨a.accept, a.states.size + 1, .epsilon⟩, ⟨a.accept, a.start, .epsilon⟩]
      [⟨a.states.size, a.start, .epsilon⟩, ⟨a.accept, a.start, .epsilon⟩] where
  source h hlt := by
    have h1 := ha.accept_lt
    rw [Nat.add_zero, map_shift_zero]
    by_cases hh : a.accept = h
    · simp (disch := omega) [Nfa.closure, if_neg, hh]
    · simp (disch := omega) [Nfa.closure, if_neg, hh]
  target h hlt := by
    have h1 := ha.start_lt
    rw [Nat.add_zero, map_shift_zero]
    by_cases hh : a.start = h
    · simp (disch := omega) [Nfa.closure, if_neg, hh]
    · simp (disch := omega) [Nfa.closure, if_neg, hh]

/-- The bounds of the fragment are new: nothing enters its start or leaves its accepting state. -/
structure NewBounds (e : Nfa) (starting ending : List Move) : Prop where
  source_start : e.movesAt Move.source e.start = starting
  target_start : e.movesAt Move.target e.start = []
  source_accept : e.movesAt Move.source e.accept = []
  target_accept : e.movesAt Move.target e.accept = ending

theorem Fragment.newBounds_alternate (ha : a.Fragment) (hb : b.Fragment) :
    NewBounds (a.alternate b)
      [⟨a.states.size + b.states.size, a.start, .epsilon⟩,
        ⟨a.states.size + b.states.size, b.start + a.states.size, .epsilon⟩]
      [⟨a.accept, a.states.size + b.states.size + 1, .epsilon⟩,
        ⟨b.accept + a.states.size, a.states.size + b.states.size + 1, .epsilon⟩] := by
  have h1 := ha.start_lt
  have h2 := ha.accept_lt
  have h3 := hb.start_lt
  have h4 := hb.accept_lt
  have hc := ha.consistent.absorb hb.consistent
  have hsource := fun h => Diagram.movesAt_of_le _ _ h hc.source_lt
  have htarget := fun h => Diagram.movesAt_of_le _ _ h hc.target_lt
  simp only [Diagram.size_states_absorb] at hsource htarget
  constructor
  all_goals
    simp (disch := omega) [Nfa.alternate, if_neg, hsource, htarget]

theorem Fragment.newBounds_closure (ha : a.Fragment) :
    NewBounds a.closure
      [⟨a.states.size, a.states.size + 1, .epsilon⟩, ⟨a.states.size, a.start, .epsilon⟩]
      [⟨a.states.size, a.states.size + 1, .epsilon⟩, ⟨a.accept, a.states.size + 1, .epsilon⟩] := by
  have h1 := ha.start_lt
  have h2 := ha.accept_lt
  have hsource := fun h => Diagram.movesAt_of_le _ _ h ha.consistent.source_lt
  have htarget := fun h => Diagram.movesAt_of_le _ _ h ha.consistent.target_lt
  constructor
  all_goals
    simp (disch := omega) [Nfa.closure, if_neg, hsource, htarget]

end Operands

/-! ### Where a state comes from -/

section States

variable {a b : Nfa} {h : Nat}

theorem lt_concat_cases (hlt : h < (a.concat b).states.size) :
    h < a.states.size ∨ ∃ k < b.states.size, h = k + a.states.size := by
  rw [size_states_concat, ← Diagram.size_states_absorb] at hlt
  exact Diagram.lt_or_eq_add_of_lt_absorb hlt

theorem lt_alternate_cases (hlt : h < (a.alternate b).states.size) :
    (h < a.states.size ∨ ∃ k < b.states.size, h = k + a.states.size) ∨
      h = (a.alternate b).start ∨ h = (a.alternate b).accept := by
  rw [size_states_alternate] at hlt
  rw [start_alternate, accept_alternate]
  by_cases hh : h < a.states.size + b.states.size
  · rw [← Diagram.size_states_absorb] at hh
    exact Or.inl (Diagram.lt_or_eq_add_of_lt_absorb hh)
  · exact Or.inr (by omega)

theorem lt_closure_cases (hlt : h < a.closure.states.size) :
    h < a.states.size ∨ h = a.closure.start ∨ h = a.closure.accept := by
  rw [size_states_closure] at hlt
  rw [start_closure, accept_closure]
  omega

end States

end Nfa

end PatternAutomata
