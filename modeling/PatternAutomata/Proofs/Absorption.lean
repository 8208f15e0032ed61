/-
  Putting one diagram behind another, first or last. Whatever is built on a
  diagram can as well be built after the diagram stands behind another one, at
  the handles it then has (`absorb_addMove` and its like); and of three diagrams
  it does not matter which two are joined first (`absorb_assoc`). No handle needs
  to be in range for this.
-/
import PatternAutomata.Proofs.Building

namespace PatternAutomata

/-! ## Alphabets -/

/-- A symbol can be put in before or after the symbols of an alphabet in front. -/
theorem foldl_insertSymbol_insertSymbol (alphabet symbols : List Char) (c : Char) :
    (insertSymbol symbols c).foldl insertSymbol alphabet =
      insertSymbol (symbols.foldl insertSymbol alphabet) c := by
  by_cases hc : c ∈ symbols
  · have hmem : c ∈ symbols.foldl insertSymbol alphabet :=
      mem_foldl_insertSymbol.mpr (Or.inr hc)
    rw [insertSymbol, if_pos hc, insertSymbol, if_pos hmem]
  · rw [insertSymbol, if_neg hc, List.foldl_append]
    rfl

theorem foldl_insertSymbol_foldl (alphabet symbols more : List Char) :
    (more.foldl insertSymbol symbols).foldl insertSymbol alphabet =
      more.foldl insertSymbol (symbols.foldl insertSymbol alphabet) := by
  induction more generalizing symbols with
  | nil => rfl
  | cons c more ih =>
    rw [List.foldl_cons, ih, foldl_insertSymbol_insertSymbol]
    rfl

theorem Label.foldl_insertInto (label : Label) (alphabet symbols : List Char) :
    (label.insertInto symbols).foldl insertSymbol alphabet =
      label.insertInto (symbols.foldl insertSymbol alphabet) := by
  cases label with
  | epsilon => rfl
  | symbol c => exact foldl_insertSymbol_insertSymbol alphabet symbols c

/-- Putting in symbols that are all different and new lists them. -/
theorem foldl_insertSymbol_of_nodup {alphabet symbols : List Char}
    (h : (alphabet ++ symbols).Nodup) : symbols.foldl insertSymbol alphabet = alphabet ++ symbols := by
  induction symbols generalizing alphabet with
  | nil => exact (List.append_nil alphabet).symm
  | cons c symbols ih =>
    have hc : c ∉ alphabet := fun hmem => List.disjoint_of_nodup_append h hmem List.mem_cons_self
    rw [List.append_cons] at h
    rw [List.foldl_cons, insertSymbol, if_neg hc, ih h, ← List.append_cons]

/-! ## Shifts -/

theorem State.shift_zero (s : State) : s.shift 0 = s := by
  simp [shift]

theorem State.shift_shift (s : State) (j k : Nat) : (s.shift j).shift k = s.shift (j + k) := by
  simp [shift, Function.comp_def, Nat.add_assoc]

theorem Move.shift_zero (m : Move) : m.shift 0 = m := rfl

theorem Move.shift_shift (m : Move) (j k : Nat) : (m.shift j).shift k = m.shift (j + k) := by
  simp [shift, Nat.add_assoc]

namespace Diagram

/-- A change at a state of the second part is one at a state of the whole. -/
theorem append_map_modify (f f' g : State → State) (h : ∀ s, g (f s) = f' (g s))
    (xs ys : Array State) (i : Nat) :
    xs ++ (ys.modify i f).map g = (xs ++ ys.map g).modify (i + xs.size) f' := by
  apply Array.ext_getElem?
  intro j
  rw [Array.getElem?_modify, Array.getElem?_append, Array.getElem?_append, Array.getElem?_map,
    Array.getElem?_map, Array.getElem?_modify]
  by_cases hj : j < xs.size
  · rw [if_pos hj, if_pos hj, if_neg (by omega)]
  · rw [if_neg hj, if_neg hj]
    by_cases hi : i = j - xs.size
    · rw [if_pos hi, if_pos (by omega), Option.map_map, Option.map_map]
      congr 1
      funext s
      exact h s
    · rw [if_neg hi, if_neg (by omega)]

/-! ## What is built on a diagram behind another one -/

variable (d e f : Diagram)

theorem absorb_empty : d.absorb {} = d := by
  simp [absorb]

theorem empty_absorb (h : e.alphabet.Nodup) : ({} : Diagram).absorb e = e := by
  have halphabet := foldl_insertSymbol_of_nodup ((List.nil_append e.alphabet).symm ▸ h)
  have hstates : e.states.map (·.shift 0) = e.states := by simp [State.shift_zero]
  have hmoves : e.moves.map (·.shift 0) = e.moves := by simp [Move.shift_zero]
  simp [absorb, halphabet, hstates, hmoves]

theorem absorb_unmarkStart (h : Nat) :
    d.absorb (e.unmarkStart h) = (d.absorb e).unmarkStart (h + d.states.size) := by
  have hstates := append_map_modify (fun s => { s with isStart := false })
    (fun s => { s with isStart := false }) (·.shift d.moves.size) (fun _ => rfl)
    d.states e.states h
  exact congrArg (fun states => { d.absorb e with states }) hstates

theorem absorb_unmarkAccept (h : Nat) :
    d.absorb (e.unmarkAccept h) = (d.absorb e).unmarkAccept (h + d.states.size) := by
  have hstates := append_map_modify (fun s => { s with isAccept := false })
    (fun s => { s with isAccept := false }) (·.shift d.moves.size) (fun _ => rfl)
    d.states e.states h
  exact congrArg (fun states => { d.absorb e with states }) hstates

theorem absorb_addState (s : State) :
    d.absorb (e.addState s) = (d.absorb e).addState (s.shift d.moves.size) := by
  simp [absorb, addState]

theorem absorb_addMove (source target : Nat) (label : Label) :
    d.absorb (e.addMove source target label) =
      (d.absorb e).addMove (source + d.states.size) (target + d.states.size) label := by
  have hlast : e.moves.size + d.moves.size = (d.absorb e).moves.size := by
    rw [moves_absorb, Array.size_append, Array.size_map, Nat.add_comm]
  -- The new move's handle, shifted, is the number of moves of the whole.
  have hout := append_map_modify
    (fun s => { s with outgoing := s.outgoing ++ [e.moves.size] })
    (fun s => { s with outgoing := s.outgoing ++ [(d.absorb e).moves.size] })
    (·.shift d.moves.size) (by simp [State.shift, hlast]) d.states e.states source
  have hin := append_map_modify
    (fun s => { s with incoming := s.incoming ++ [e.moves.size] })
    (fun s => { s with incoming := s.incoming ++ [(d.absorb e).moves.size] })
    (·.shift d.moves.size) (by simp [State.shift, hlast]) d.states
    (e.states.modify source fun s => { s with outgoing := s.outgoing ++ [e.moves.size] }) target
  rw [hout] at hin
  have hmoves : d.moves ++ (e.addMove source target label).moves.map (·.shift d.states.size) =
      ((d.absorb e).addMove (source + d.states.size) (target + d.states.size) label).moves := by
    simp [Move.shift]
  have halphabet := label.foldl_insertInto d.alphabet e.alphabet
  exact (mk.injEq ..).mpr ⟨hin, hmoves, halphabet⟩

theorem absorb_assoc : d.absorb (e.absorb f) = (d.absorb e).absorb f := by
  have halphabet := foldl_insertSymbol_foldl d.alphabet e.alphabet f.alphabet
  simp [absorb, halphabet, State.shift_shift, Move.shift_shift, Function.comp_def,
    Nat.add_comm]

end Diagram

end PatternAutomata
