/-
  Fragments are well formed. Whatever is built from symbols by the combinators is
  the fragment of some expression (`exists_ofExpr_of_built`), so a property of
  all fragments needs four cases. The first such property is `Fragment`: the
  diagram is consistent, start and accepting state are two states of it, and
  they alone are marked.
-/
import PatternAutomata.Nfa
import PatternAutomata.Proofs.Consistency
import PatternAutomata.Proofs.Evaluation

namespace PatternAutomata

namespace Nfa

/-- A fragment that can be built is the fragment of an expression. -/
theorem exists_ofExpr_of_built {n : Nfa} (h : n.Built) : ∃ e, n = ofExpr e := by
  induction h with
  | symbol c => exact ⟨.symbol c, rfl⟩
  | alternate _ _ iha ihb =>
    obtain ⟨a, rfl⟩ := iha
    obtain ⟨b, rfl⟩ := ihb
    exact ⟨.alternate a b, rfl⟩
  | concat _ _ iha ihb =>
    obtain ⟨a, rfl⟩ := iha
    obtain ⟨b, rfl⟩ := ihb
    exact ⟨.concat a b, rfl⟩
  | closure _ ih =>
    obtain ⟨a, rfl⟩ := ih
    exact ⟨.closure a, rfl⟩
  | @ofPostfix p n hp =>
    unfold Nfa.ofPostfix at hp
    rw [Postfix.evaluate_eq_map_trees] at hp
    cases ht : p.evaluate Expr.trees with
    | ok e =>
      rw [ht] at hp
      exact ⟨e, (Except.ok.inj hp).symm⟩
    | error e =>
      rw [ht] at hp
      cases hp

/-! ## Bounds and sizes of the combinators -/

section Bounds

variable (a b : Nfa)

@[simp] theorem start_alternate : (a.alternate b).start = a.states.size + b.states.size := rfl

@[simp] theorem accept_alternate : (a.alternate b).accept = a.states.size + b.states.size + 1 := rfl

@[simp] theorem size_states_alternate :
    (a.alternate b).states.size = a.states.size + b.states.size + 2 := by
  simp [alternate]

@[simp] theorem size_moves_alternate :
    (a.alternate b).moves.size = a.moves.size + b.moves.size + 4 := by
  simp [alternate, Nat.add_assoc]

@[simp] theorem start_concat : (a.concat b).start = a.start := by
  simp only [concat]

@[simp] theorem accept_concat : (a.concat b).accept = b.accept + a.states.size := rfl

@[simp] theorem size_states_concat :
    (a.concat b).states.size = a.states.size + b.states.size := by
  simp [concat]

@[simp] theorem size_moves_concat :
    (a.concat b).moves.size = a.moves.size + b.moves.size + 1 := by
  simp [concat, Nat.add_assoc]

@[simp] theorem start_closure : a.closure.start = a.states.size := rfl

@[simp] theorem accept_closure : a.closure.accept = a.states.size + 1 := rfl

@[simp] theorem size_states_closure : a.closure.states.size = a.states.size + 2 := by
  simp [closure]

@[simp] theorem size_moves_closure : a.closure.moves.size = a.moves.size + 4 := by
  simp [closure]

end Bounds

/-! ## Well-formed fragments -/

/-- The diagram is consistent, and the bounds are two of its states and the only marked ones. -/
structure Fragment (n : Nfa) : Prop where
  consistent : n.toDiagram.Consistent
  start_lt : n.start < n.states.size
  accept_lt : n.accept < n.states.size
  start_ne_accept : n.start ≠ n.accept
  isStart_iff : ∀ h, n.IsStart h ↔ h = n.start
  isAccept_iff : ∀ h, n.IsAccept h ↔ h = n.accept

theorem not_isStart_empty (h : Nat) : ¬ ({} : Diagram).IsStart h := by
  simp [Diagram.IsStart, Diagram.state]

theorem not_isAccept_empty (h : Nat) : ¬ ({} : Diagram).IsAccept h := by
  simp [Diagram.IsAccept, Diagram.state]

theorem fragment_symbol (c : Char) : (symbol c).Fragment where
  consistent := ((Diagram.consistent_empty.addState rfl rfl).addState rfl rfl).addMove
    (by simp) (by simp) (.symbol c)
  start_lt := by simp [symbol]
  accept_lt := by simp [symbol]
  start_ne_accept := by simp [symbol]
  isStart_iff h := by
    simp [symbol, not_isStart_empty]
    omega
  isAccept_iff h := by
    simp [symbol, not_isAccept_empty]

section Combinators

variable {a b : Nfa}

theorem Fragment.alternate (ha : a.Fragment) (hb : b.Fragment) : (a.alternate b).Fragment where
  consistent := by
    have h1 := ha.start_lt
    have h2 := ha.accept_lt
    have h3 := hb.start_lt
    have h4 := hb.accept_lt
    have hc := ((((ha.consistent.absorb hb.consistent).unmarkStart a.start).unmarkAccept
      a.accept).unmarkStart (b.start + a.states.size)).unmarkAccept (b.accept + a.states.size)
    have hc' := (hc.addState (s := { isStart := true }) rfl rfl).addState
      (s := { isAccept := true }) rfl rfl
    refine (((hc'.addMove ?_ ?_ _).addMove ?_ ?_ _).addMove ?_ ?_ _).addMove ?_ ?_ _
    all_goals
      simp only [Diagram.size_states_addMove, Diagram.size_states_addState,
        Diagram.size_states_unmarkStart, Diagram.size_states_unmarkAccept, Diagram.size_states_absorb]
      omega
  start_lt := by simp
  accept_lt := by simp
  start_ne_accept := by simp
  isStart_iff h := by
    have h1 := ha.start_lt
    simp [Nfa.alternate, ha.isStart_iff, hb.isStart_iff]
    omega
  isAccept_iff h := by
    have h1 := ha.accept_lt
    simp [Nfa.alternate, ha.isAccept_iff, hb.isAccept_iff]
    omega

theorem Fragment.concat (ha : a.Fragment) (hb : b.Fragment) : (a.concat b).Fragment where
  consistent := by
    have h1 := ha.accept_lt
    have h2 := hb.start_lt
    have hc := ((ha.consistent.absorb hb.consistent).unmarkAccept a.accept).unmarkStart
      (b.start + a.states.size)
    refine hc.addMove ?_ ?_ _
    all_goals
      simp only [Diagram.size_states_unmarkStart, Diagram.size_states_unmarkAccept,
        Diagram.size_states_absorb]
      omega
  start_lt := by
    have h1 := ha.start_lt
    rw [start_concat, size_states_concat]
    omega
  accept_lt := by
    have h1 := hb.accept_lt
    rw [accept_concat, size_states_concat]
    omega
  start_ne_accept := by
    have h1 := ha.start_lt
    rw [start_concat, accept_concat]
    omega
  isStart_iff h := by
    have h1 := ha.start_lt
    simp [Nfa.concat, ha.isStart_iff, hb.isStart_iff]
    omega
  isAccept_iff h := by
    have h1 := ha.accept_lt
    simp [Nfa.concat, ha.isAccept_iff, hb.isAccept_iff]
    omega

theorem Fragment.closure (ha : a.Fragment) : a.closure.Fragment where
  consistent := by
    have h1 := ha.start_lt
    have h2 := ha.accept_lt
    have hc := (ha.consistent.unmarkStart a.start).unmarkAccept a.accept
    have hc' := (hc.addState (s := { isStart := true }) rfl rfl).addState
      (s := { isAccept := true }) rfl rfl
    refine (((hc'.addMove ?_ ?_ _).addMove ?_ ?_ _).addMove ?_ ?_ _).addMove ?_ ?_ _
    all_goals
      simp only [Diagram.size_states_addMove, Diagram.size_states_addState,
        Diagram.size_states_unmarkStart, Diagram.size_states_unmarkAccept]
      omega
  start_lt := by simp
  accept_lt := by simp
  start_ne_accept := by simp
  isStart_iff h := by
    have h1 := ha.start_lt
    simp [Nfa.closure, ha.isStart_iff]
    omega
  isAccept_iff h := by
    simp [Nfa.closure, ha.isAccept_iff]

end Combinators

theorem fragment_ofExpr (e : Expr) : (ofExpr e).Fragment := by
  induction e with
  | symbol c => exact fragment_symbol c
  | alternate a b iha ihb => exact iha.alternate ihb
  | concat a b iha ihb => exact iha.concat ihb
  | closure a ih => exact ih.closure

theorem Built.fragment {n : Nfa} (h : n.Built) : n.Fragment := by
  obtain ⟨e, rfl⟩ := exists_ofExpr_of_built h
  exact fragment_ofExpr e

end Nfa

end PatternAutomata
