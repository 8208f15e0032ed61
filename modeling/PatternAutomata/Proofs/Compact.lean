/-
  Fragments with handles of 32 bits. As long as the numbers of states and moves fit
  into 32 bits (`Diagram.Fits`), no handle that is made from them overflows, and
  what is built with handles reads as what is built with numbers: first each way to
  change a diagram, then each combinator. A lemma on a function says that it gives
  a result (`Yields`), under bounds on what it is given, and how the result reads.
-/
import PatternAutomata.Compact.Nfa
import PatternAutomata.Proofs.Fragments
import PatternAutomata.Proofs.Runs

namespace PatternAutomata

namespace Compact

variable {α β : Type}

/-! ## Results with a property -/

/-- There is a result, and it has the property. -/
def Yields (x : Except Fault α) (P : α → Prop) : Prop := ∃ a, x = .ok a ∧ P a

theorem yields_ok {P : α → Prop} {a : α} (h : P a) : Yields (.ok a) P := ⟨a, rfl, h⟩

theorem Yields.bind {x : Except Fault α} {f : α → Except Fault β} {P : α → Prop} {Q : β → Prop}
    (hx : Yields x P) (hf : ∀ a, P a → Yields (f a) Q) : Yields (x >>= f) Q := by
  obtain ⟨a, rfl, ha⟩ := hx
  exact hf a ha

/-- A list is done if each of its members is; `v` reads results, and `g` says how they read. -/
theorem yields_mapM {γ : Type} {f : α → Except Fault β} {v : β → γ} {g : α → γ} {xs : List α}
    (h : ∀ x ∈ xs, Yields (f x) fun y => v y = g x) :
    Yields (xs.mapM f) fun ys => ys.map v = xs.map g := by
  induction xs with
  | nil => exact yields_ok rfl
  | cons x xs ih =>
    rw [List.mapM_cons]
    refine (h x List.mem_cons_self).bind fun y hy => ?_
    refine (ih fun z hz => h z (List.mem_cons_of_mem x hz)).bind fun ys hys => yields_ok ?_
    rw [List.map_cons, List.map_cons, hy, hys]

/-! ## Arithmetic -/

theorem handle_yields {n : Nat} (h : n < UInt32.size) : Yields (handle n) (·.toNat = n) := by
  unfold handle
  rw [if_pos h]
  exact yields_ok (UInt32.toNat_ofNat_of_lt' h)

theorem add_yields {a b : UInt32} (h : a.toNat + b.toNat < UInt32.size) :
    Yields (add a b) (·.toNat = a.toNat + b.toNat) := by
  unfold add
  rw [if_pos h]
  refine yields_ok ?_
  rw [UInt32.toNat_add, Nat.mod_eq_of_lt h]

theorem sub_yields {a b : UInt32} (h : b.toNat ≤ a.toNat) :
    Yields (sub a b) (·.toNat = a.toNat - b.toNat) := by
  unfold sub
  rw [if_pos h]
  exact yields_ok (UInt32.toNat_sub_of_le a b h)

/-! ## Diagrams -/

/-- Handles move on as numbers do, if none moves out of range. -/
theorem Move.shift_yields {m : Move} {k : UInt32} (hs : m.value.source + k.toNat < UInt32.size)
    (ht : m.value.target + k.toNat < UInt32.size) :
    Yields (m.shift k) (·.value = m.value.shift k.toNat) := by
  unfold shift
  refine (add_yields hs).bind fun source hsource => ?_
  refine (add_yields ht).bind fun target htarget => yields_ok ?_
  simp [value, PatternAutomata.Move.shift, hsource, htarget]

theorem State.shift_yields {s : State} {k : UInt32}
    (ho : ∀ m ∈ s.value.outgoing, m + k.toNat < UInt32.size)
    (hi : ∀ m ∈ s.value.incoming, m + k.toNat < UInt32.size) :
    Yields (s.shift k) (·.value = s.value.shift k.toNat) := by
  have hlist : ∀ ms : List UInt32, (∀ m ∈ ms.map UInt32.toNat, m + k.toNat < UInt32.size) →
      Yields (ms.mapM (add · k)) fun ms' =>
        ms'.map UInt32.toNat = ms.map fun m => m.toNat + k.toNat := by
    intro ms hms
    exact yields_mapM fun m hm => add_yields (hms _ (List.mem_map_of_mem hm))
  unfold shift
  refine (hlist _ ho).bind fun outgoing hout => ?_
  refine (hlist _ hi).bind fun incoming hin => yields_ok ?_
  simp [value, PatternAutomata.State.shift, hout, hin]

namespace Diagram

section Reading

variable (d : Diagram)

theorem size_states_value : d.value.states.size = d.states.size := Array.size_map

theorem size_moves_value : d.value.moves.size = d.moves.size := Array.size_map

/-- A diagram reads as another one if its three parts do. -/
theorem value_eq {d : Diagram} {f : PatternAutomata.Diagram}
    (hs : d.states.map State.value = f.states) (hm : d.moves.map Move.value = f.moves)
    (ha : d.alphabet = f.alphabet) : d.value = f := by
  unfold value
  rw [hs, hm, ha]

/-- A state is changed where it stands, whichever way it is read. -/
theorem map_value_modify {f : State → State} {g : PatternAutomata.State → PatternAutomata.State}
    (h : ∀ s, (f s).value = g s.value) (states : Array State) (i : Nat) :
    (states.modify i f).map State.value = (states.map State.value).modify i g := by
  apply Array.ext_getElem?
  intro j
  rw [Array.getElem?_map, Array.getElem?_modify, Array.getElem?_modify, Array.getElem?_map]
  split
  · rw [Option.map_map, Option.map_map]
    exact congrArg (Option.map · _) (funext h)
  · rfl

end Reading

/-! ### Building

Here `x` and `y` are the diagrams with numbers that the diagrams with handles read as. -/

section Building

variable {d e : Diagram} {x y : PatternAutomata.Diagram}

theorem value_empty : ({} : Diagram).value = {} := value_eq Array.map_empty Array.map_empty rfl

theorem value_unmarkStart (hd : d.value = x) {h : UInt32} {i : Nat} (hh : h.toNat = i) :
    (d.unmarkStart h).value = x.unmarkStart i := by
  subst hd hh
  refine value_eq ?_ rfl rfl
  unfold unmarkStart PatternAutomata.Diagram.unmarkStart
  dsimp only
  exact map_value_modify (fun _ => rfl) d.states h.toNat

theorem value_unmarkAccept (hd : d.value = x) {h : UInt32} {i : Nat} (hh : h.toNat = i) :
    (d.unmarkAccept h).value = x.unmarkAccept i := by
  subst hd hh
  refine value_eq ?_ rfl rfl
  unfold unmarkAccept PatternAutomata.Diagram.unmarkAccept
  dsimp only
  exact map_value_modify (fun _ => rfl) d.states h.toNat

theorem addState_yields (hd : d.value = x) (s : State) (hs : x.states.size + 1 < UInt32.size) :
    Yields (d.addState s) fun (i, d') =>
      i.toNat = x.states.size ∧ d'.value = x.addState s.value := by
  subst hd
  rw [size_states_value] at hs ⊢
  have hone : (1 : UInt32).toNat = 1 := rfl
  unfold addState
  refine (handle_yields (n := (d.states.push s).size) (by simpa using hs)).bind fun n hn => ?_
  rw [Array.size_push] at hn
  refine (sub_yields (by omega)).bind fun i hi => yields_ok ⟨by omega, ?_⟩
  exact value_eq Array.map_push rfl rfl

theorem addMove_yields (hd : d.value = x) {source target : UInt32} {i j : Nat}
    (hi : source.toNat = i) (hj : target.toNat = j) (label : Label)
    (hm : x.moves.size < UInt32.size) :
    Yields (d.addMove source target label) (·.value = x.addMove i j label) := by
  subst hd hi hj
  rw [size_moves_value] at hm
  unfold addMove
  refine (handle_yields hm).bind fun m hm => yields_ok (value_eq ?_ Array.map_push rfl)
  unfold PatternAutomata.Diagram.addMove
  dsimp only
  refine (map_value_modify (fun s => ?_) _ _).trans
    (congrArg (Array.modify · target.toNat _) (map_value_modify (fun s => ?_) _ _))
  · simp [State.value, hm, size_moves_value]
  · simp [State.value, hm, size_moves_value]

/-- The handles at the states of a consistent diagram are those of its moves. -/
theorem shiftStates_yields (he : e.value = y) (hy : y.Consistent) {k : UInt32}
    (hk : k.toNat + y.moves.size < UInt32.size) :
    Yields (e.states.toList.mapM (·.shift k)) fun states =>
      states.map State.value = e.states.toList.map fun s => s.value.shift k.toNat := by
  subst he
  have hlisted : ∀ p, ∀ m ∈ e.value.movesWhere p, m + k.toNat < UInt32.size := by
    intro p m hm
    have hlt := PatternAutomata.Diagram.lt_of_mem_movesWhere hm
    omega
  refine yields_mapM fun s hs => ?_
  obtain ⟨i, hi, rfl⟩ := Array.mem_iff_getElem.mp (Array.mem_toList_iff.mp hs)
  have hlt : i < e.value.states.size := by rwa [size_states_value]
  have hstate : e.value.state i = e.states[i].value := by
    simp [PatternAutomata.Diagram.state, value, hi]
  refine State.shift_yields ?_ ?_
  · rw [← hstate, hy.outgoing i hlt]
    exact hlisted _
  · rw [← hstate, hy.incoming i hlt]
    exact hlisted _

/-- The handles at its moves are those of its states. -/
theorem shiftMoves_yields (he : e.value = y) (hy : y.Consistent) {k : UInt32}
    (hk : k.toNat + y.states.size < UInt32.size) :
    Yields (e.moves.toList.mapM (·.shift k)) fun moves =>
      moves.map Move.value = e.moves.toList.map fun m => m.value.shift k.toNat := by
  subst he
  refine yields_mapM fun m hm => ?_
  have hmem : m.value ∈ e.value.moves := Array.mem_map_of_mem (Array.mem_toList_iff.mp hm)
  have hsource := hy.source_lt _ hmem
  have htarget := hy.target_lt _ hmem
  exact Move.shift_yields (by omega) (by omega)

theorem absorb_yields (hd : d.value = x) (he : e.value = y) (hy : y.Consistent)
    (hs : x.states.size + y.states.size < UInt32.size)
    (hm : x.moves.size + y.moves.size < UInt32.size) :
    Yields (d.absorb e) fun (offset, d') =>
      offset.toNat = x.states.size ∧ d'.value = x.absorb y := by
  subst hd
  rw [size_states_value] at hs ⊢
  rw [size_moves_value] at hm
  unfold absorb
  refine (handle_yields (by omega)).bind fun stateOffset hstate => ?_
  refine (handle_yields (by omega)).bind fun moveOffset hmove => ?_
  refine (shiftStates_yields he hy (hmove ▸ hm)).bind fun states hstates => ?_
  refine (shiftMoves_yields he hy (hstate ▸ hs)).bind fun moves hmoves => ?_
  subst he
  refine yields_ok ⟨hstate, value_eq ?_ ?_ rfl⟩
  · apply Array.toList_inj.mp
    simp [value, PatternAutomata.Diagram.absorb, hstates, hmove]
  · apply Array.toList_inj.mp
    simp [value, PatternAutomata.Diagram.absorb, hmoves, hstate]

theorem addBounds_yields (hd : d.value = x) {n : Nat} (hn : x.states.size = n)
    (hs : n + 2 < UInt32.size) :
    Yields d.addBounds fun (start, accept, d') => start.toNat = n ∧ accept.toNat = n + 1 ∧
      d'.value = (x.addState { isStart := true }).addState { isAccept := true } := by
  subst hn
  unfold addBounds
  refine (addState_yields hd { isStart := true } (by omega)).bind ?_
  rintro ⟨start, d1⟩ ⟨hstart, hd1⟩
  refine (addState_yields hd1 { isAccept := true } (by simpa using hs)).bind ?_
  rintro ⟨accept, d2⟩ ⟨haccept, hd2⟩
  exact yields_ok ⟨hstart, by simpa using haccept, hd2⟩

end Building

end Diagram

end Compact

/-! ## Fragments -/

/-- The numbers of states and moves fit into 32 bits. -/
structure Diagram.Fits (d : Diagram) : Prop where
  states : d.states.size < UInt32.size
  moves : d.moves.size < UInt32.size

namespace Compact.Nfa

open Compact.Diagram (addMove_yields addBounds_yields absorb_yields value_empty value_unmarkStart
  value_unmarkAccept)

variable {a b n : Nfa}

/-- A fragment reads as another one if its diagram and its bounds do. -/
theorem value_eq {f : PatternAutomata.Nfa} (hd : n.toDiagram.value = f.toDiagram)
    (hs : n.start.toNat = f.start) (ha : n.accept.toNat = f.accept) : n.value = f := by
  unfold value
  rw [hd, hs, ha]

theorem behind_yields {d : Diagram} {x : PatternAutomata.Diagram} (hd : d.value = x)
    (hn : n.value.Fragment) (hs : x.states.size + n.value.states.size < UInt32.size)
    (hm : x.moves.size + n.value.moves.size < UInt32.size) :
    Yields (n.behind d) fun (start, accept, d') =>
      start.toNat = n.value.start + x.states.size ∧
      accept.toNat = n.value.accept + x.states.size ∧
      d'.value = x.absorb n.value.toDiagram := by
  unfold behind
  refine (absorb_yields hd rfl hn.consistent hs hm).bind ?_
  rintro ⟨offset, d'⟩ ⟨hoffset, hd'⟩
  rw [← hoffset] at hs ⊢
  have hadd : ∀ h : UInt32, h.toNat < n.value.states.size →
      Yields (add h offset) (·.toNat = h.toNat + offset.toNat) :=
    fun h hlt => add_yields (by omega)
  refine (hadd _ hn.start_lt).bind fun start hstart => ?_
  exact (hadd _ hn.accept_lt).bind fun accept haccept => yields_ok ⟨hstart, haccept, hd'⟩

theorem symbol_yields (c : Char) :
    Yields (symbol c) (·.value = PatternAutomata.Nfa.symbol c) := by
  unfold symbol
  refine (addBounds_yields value_empty rfl (by decide)).bind ?_
  rintro ⟨start, accept, d⟩ ⟨hstart, haccept, hd⟩
  refine (addMove_yields hd hstart haccept (.symbol c) (by decide)).bind fun d hd => ?_
  exact yields_ok (value_eq hd hstart haccept)

theorem alternate_yields (hb : b.value.Fragment) (hfits : (a.value.alternate b.value).Fits) :
    Yields (a.alternate b) (·.value = a.value.alternate b.value) := by
  have hsize := hfits.states
  have hm := hfits.moves
  rw [PatternAutomata.Nfa.size_states_alternate] at hsize
  rw [PatternAutomata.Nfa.size_moves_alternate] at hm
  have hstart : a.start.toNat = a.value.start := rfl
  have haccept : a.accept.toNat = a.value.accept := rfl
  unfold alternate
  refine (behind_yields (x := a.value.toDiagram) rfl hb (by omega) (by omega)).bind ?_
  rintro ⟨bStart, bAccept, d⟩ ⟨hbStart, hbAccept, hd⟩
  have hd := value_unmarkAccept (value_unmarkStart (value_unmarkAccept (value_unmarkStart hd
    hstart) haccept) hbStart) hbAccept
  refine (addBounds_yields hd (n := a.value.states.size + b.value.states.size) (by simp)
    hsize).bind ?_
  rintro ⟨s, t, d⟩ ⟨hs, ht, hd⟩
  refine (addMove_yields hd hs hstart .epsilon (by simp; omega)).bind fun d hd => ?_
  refine (addMove_yields hd hs hbStart .epsilon (by simp; omega)).bind fun d hd => ?_
  refine (addMove_yields hd haccept ht .epsilon (by simp; omega)).bind fun d hd => ?_
  refine (addMove_yields hd hbAccept ht .epsilon (by simp; omega)).bind fun d hd => ?_
  exact yields_ok (value_eq hd hs ht)

theorem concat_yields (hb : b.value.Fragment) (hfits : (a.value.concat b.value).Fits) :
    Yields (a.concat b) (·.value = a.value.concat b.value) := by
  have hsize := hfits.states
  have hm := hfits.moves
  rw [PatternAutomata.Nfa.size_states_concat] at hsize
  rw [PatternAutomata.Nfa.size_moves_concat] at hm
  have haccept : a.accept.toNat = a.value.accept := rfl
  unfold concat
  refine (behind_yields (x := a.value.toDiagram) rfl hb (by omega) (by omega)).bind ?_
  rintro ⟨bStart, bAccept, d⟩ ⟨hbStart, hbAccept, hd⟩
  have hd := value_unmarkStart (value_unmarkAccept hd haccept) hbStart
  refine (addMove_yields hd haccept hbStart .epsilon (by simp; omega)).bind fun d hd => ?_
  exact yields_ok (value_eq hd rfl hbAccept)

theorem closure_yields (hfits : a.value.closure.Fits) :
    Yields a.closure (·.value = a.value.closure) := by
  have hsize := hfits.states
  have hm := hfits.moves
  rw [PatternAutomata.Nfa.size_states_closure] at hsize
  rw [PatternAutomata.Nfa.size_moves_closure] at hm
  have hstart : a.start.toNat = a.value.start := rfl
  have haccept : a.accept.toNat = a.value.accept := rfl
  unfold closure
  have hd := value_unmarkAccept (value_unmarkStart (d := a.toDiagram) (x := a.value.toDiagram) rfl
    hstart) haccept
  refine (addBounds_yields hd (n := a.value.states.size) (by simp) hsize).bind ?_
  rintro ⟨s, t, d⟩ ⟨hs, ht, hd⟩
  refine (addMove_yields hd hs ht .epsilon (by simp; omega)).bind fun d hd => ?_
  refine (addMove_yields hd hs hstart .epsilon (by simp; omega)).bind fun d hd => ?_
  refine (addMove_yields hd haccept ht .epsilon (by simp; omega)).bind fun d hd => ?_
  refine (addMove_yields hd haccept hstart .epsilon (by simp; omega)).bind fun d hd => ?_
  exact yields_ok (value_eq hd hs ht)

end Compact.Nfa

end PatternAutomata
