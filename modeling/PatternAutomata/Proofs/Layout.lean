/-
  Fragments built by copying and in one pass. A stack of fragments, each put
  behind those before it, is the arena that one pass over the tokens fills
  (`Arena.ofStack`): reading a token and laying out the stack can be done in
  either order (`step?_ofStack`), so both ways of building give the same diagram
  with the same handles (`build?_eq_toOption`). A pass only appends: every token
  but a concatenation appends two states, and moves stand in the order of the
  tokens (`Arena.InOrder`).
-/
import PatternAutomata.Nfa.OnePass
import PatternAutomata.Proofs.Absorption
import PatternAutomata.Proofs.Fragments

namespace PatternAutomata

namespace Arena

/-! ## A stack of fragments as an arena -/

/-- The fragments one behind the other, the one on top of the stack last. -/
def ofStack : List Nfa → Arena
  | [] => {}
  | n :: stack =>
    let a := ofStack stack
    let k := a.diagram.states.size
    { diagram := a.diagram.absorb n.toDiagram
      bounds := (n.start + k, n.accept + k) :: a.bounds }

theorem ofStack_nil : ofStack [] = {} := rfl

theorem diagram_ofStack_cons (n : Nfa) (stack : List Nfa) :
    (ofStack (n :: stack)).diagram = (ofStack stack).diagram.absorb n.toDiagram := rfl

theorem bounds_ofStack_cons (n : Nfa) (stack : List Nfa) :
    (ofStack (n :: stack)).bounds =
      (n.start + (ofStack stack).diagram.states.size,
        n.accept + (ofStack stack).diagram.states.size) :: (ofStack stack).bounds := rfl

theorem eq_of_parts {a b : Arena} (hd : a.diagram = b.diagram) (hb : a.bounds = b.bounds) :
    a = b := by
  cases a
  cases b
  exact (mk.injEq ..).mpr ⟨hd, hb⟩

theorem absorb_addBounds (d e : Diagram) :
    d.absorb (addBounds e) = addBounds (d.absorb e) := by
  unfold addBounds
  rw [Diagram.absorb_addState, Diagram.absorb_addState]
  rfl

/-! ## Each token -/

section Tokens

variable (a b : Nfa) (stack : List Nfa)

theorem step?_operand (c : Char) :
    (ofStack stack).step? (.operand c) = some (ofStack (Nfa.symbol c :: stack)) := by
  refine congrArg some (eq_of_parts ?_ ?_)
  · have hsymbol : (Nfa.symbol c).toDiagram = (addBounds {}).addMove 0 1 (.symbol c) := rfl
    rw [diagram_ofStack_cons, hsymbol, Diagram.absorb_addMove, absorb_addBounds,
      Diagram.absorb_empty, Nat.zero_add, Nat.add_comm 1]
  · simp [bounds_ofStack_cons, Nfa.symbol, Nat.add_comm]

/-- Handles of the operands, shifted twice, are those that their bounds had. -/
theorem step?_alternation :
    (ofStack (b :: a :: stack)).step? (.operator .alternation) =
      some (ofStack (a.alternate b :: stack)) := by
  refine congrArg some (eq_of_parts ?_ ?_)
  · simp only [diagram_ofStack_cons, Nfa.alternate, addBounds, Diagram.absorb_addMove,
      Diagram.absorb_addState, Diagram.absorb_unmarkStart, Diagram.absorb_unmarkAccept,
      Diagram.absorb_assoc, Diagram.size_states_absorb, State.shift, List.map_nil, Nat.add_assoc,
      Nat.add_comm, Nat.add_left_comm]
  · simp only [bounds_ofStack_cons, diagram_ofStack_cons, Diagram.size_states_absorb,
      Nfa.start_alternate, Nfa.accept_alternate, Nat.add_assoc, Nat.add_comm, Nat.add_left_comm]

theorem step?_concatenation :
    (ofStack (b :: a :: stack)).step? (.operator .concatenation) =
      some (ofStack (a.concat b :: stack)) := by
  refine congrArg some (eq_of_parts ?_ ?_)
  · simp only [diagram_ofStack_cons, Nfa.concat, Diagram.absorb_addMove,
      Diagram.absorb_unmarkStart, Diagram.absorb_unmarkAccept, Diagram.absorb_assoc,
      Diagram.size_states_absorb, Nat.add_assoc, Nat.add_comm]
  · simp only [bounds_ofStack_cons, diagram_ofStack_cons, Diagram.size_states_absorb,
      Nfa.start_concat, Nfa.accept_concat, Nat.add_assoc, Nat.add_comm]

theorem step?_closure :
    (ofStack (a :: stack)).step? (.operator .closure) = some (ofStack (a.closure :: stack)) := by
  refine congrArg some (eq_of_parts ?_ ?_)
  · simp only [diagram_ofStack_cons, Nfa.closure, addBounds, Diagram.absorb_addMove,
      Diagram.absorb_addState, Diagram.absorb_unmarkStart, Diagram.absorb_unmarkAccept,
      Diagram.size_states_absorb, State.shift, List.map_nil, Nat.add_assoc, Nat.add_comm,
      Nat.add_left_comm]
  · simp only [bounds_ofStack_cons, diagram_ofStack_cons, Diagram.size_states_absorb,
      Nfa.start_closure, Nfa.accept_closure, Nat.add_assoc, Nat.add_comm, Nat.add_left_comm]

/-- A token does to the arena of a stack what it does to the stack. -/
theorem step?_ofStack (t : Token) :
    (ofStack stack).step? t = (Nfa.fragments.step stack t).toOption.map ofStack := by
  cases t with
  | operand c => exact step?_operand stack c
  | operator op =>
    cases op with
    | alternation =>
      rcases stack with _ | ⟨b, _ | ⟨a, stack⟩⟩
      · rfl
      · rfl
      · exact step?_alternation a b stack
    | concatenation =>
      rcases stack with _ | ⟨b, _ | ⟨a, stack⟩⟩
      · rfl
      · rfl
      · exact step?_concatenation a b stack
    | closure =>
      rcases stack with _ | ⟨a, stack⟩
      · rfl
      · exact step?_closure a stack
  | leftGroup => rfl
  | rightGroup => rfl

theorem run_ofStack (ts : List Token) :
    ts.foldlM step? (ofStack stack) =
      (ts.foldlM Nfa.fragments.step stack).toOption.map ofStack := by
  induction ts generalizing stack with
  | nil => rfl
  | cons t ts ih =>
    rw [List.foldlM_cons, List.foldlM_cons, step?_ofStack]
    cases Nfa.fragments.step stack t with
    | ok s => exact ih s
    | error e => rfl

end Tokens

/-! ## What is left in the end -/

/-- The one fragment that an arena holds, if it holds exactly one. -/
def only? (a : Arena) : Option Nfa :=
  match a.bounds with
  | [(start, accept)] => some { toDiagram := a.diagram, start, accept }
  | _ => none

theorem build?_eq_only? (p : Postfix) : build? p = (p.tokens.foldlM step? {}).bind only? := rfl

/-- An arena that holds one fragment holds it as it is. -/
theorem only?_ofStack_singleton {n : Nfa} (h : n.alphabet.Nodup) : (ofStack [n]).only? = some n := by
  have hd : (ofStack [n]).diagram = n.toDiagram := Diagram.empty_absorb n.toDiagram h
  have hb : (ofStack [n]).bounds = [(n.start, n.accept)] := rfl
  unfold only?
  rw [hb]
  dsimp only
  rw [hd]

/-- Whatever the tokens, one pass gives the fragment that copying gives, and none if that fails. -/
theorem build?_eq_toOption (p : Postfix) : build? p = (Nfa.ofPostfix p).toOption := by
  have hvalue : Nfa.ofPostfix p = p.tokens.foldlM Nfa.fragments.step [] >>= onlyValue := rfl
  rw [build?_eq_only?, ← ofStack_nil, run_ofStack]
  cases hrun : p.tokens.foldlM Nfa.fragments.step [] with
  | error e =>
    rw [hvalue, hrun]
    rfl
  | ok stack =>
    rw [hrun, ok_bind] at hvalue
    rw [hvalue]
    rcases stack with _ | ⟨n, _ | ⟨m, stack⟩⟩
    · rfl
    · exact only?_ofStack_singleton (Nfa.Built.ofPostfix hvalue).fragment.consistent.nodup_alphabet
    · rfl

/-! ## The order of states and moves -/

/-- How many of the tokens are not concatenations. -/
def owners (ts : List Token) : Nat := ts.countP fun t => t ≠ .operator .concatenation

theorem owners_cons (t : Token) (ts : List Token) :
    owners (t :: ts) = owners ts + if t = .operator .concatenation then 0 else 1 := by
  unfold owners
  rw [List.countP_cons]
  by_cases ht : t = .operator .concatenation
  · simp [ht]
  · simp [ht]

/-- What a token adds: two states, unless it is a concatenation, and moves behind those there are. -/
theorem step?_spec {a b : Arena} {t : Token} (h : a.step? t = some b) :
    (t = .operator .concatenation → b.diagram.states.size = a.diagram.states.size) ∧
      (t ≠ .operator .concatenation →
        b.diagram.states.size = a.diagram.states.size + 2 ∧
          b.bounds.head? = some (a.diagram.states.size, a.diagram.states.size + 1)) ∧
      a.diagram.moves.toList <+: b.diagram.moves.toList := by
  obtain ⟨d, bounds⟩ := a
  cases t with
  | operand c =>
    rw [← Option.some.inj h]
    simp [addBounds]
  | operator op =>
    cases op with
    | alternation =>
      rcases bounds with _ | ⟨second, _ | ⟨first, bounds⟩⟩
      · exact absurd h.symm (Option.some_ne_none b)
      · exact absurd h.symm (Option.some_ne_none b)
      · rw [← Option.some.inj h]
        simp [addBounds]
    | concatenation =>
      rcases bounds with _ | ⟨second, _ | ⟨first, bounds⟩⟩
      · exact absurd h.symm (Option.some_ne_none b)
      · exact absurd h.symm (Option.some_ne_none b)
      · rw [← Option.some.inj h]
        simp
    | closure =>
      rcases bounds with _ | ⟨operand, bounds⟩
      · exact absurd h.symm (Option.some_ne_none b)
      · rw [← Option.some.inj h]
        simp [addBounds]
  | leftGroup => exact absurd h.symm (Option.some_ne_none b)
  | rightGroup => exact absurd h.symm (Option.some_ne_none b)

theorem run_spec {a b : Arena} {ts : List Token} (h : ts.foldlM step? a = some b) :
    b.diagram.states.size = a.diagram.states.size + 2 * owners ts ∧
      a.diagram.moves.toList <+: b.diagram.moves.toList := by
  induction ts generalizing a with
  | nil =>
    rw [← Option.some.inj h]
    exact ⟨rfl, List.prefix_rfl⟩
  | cons t ts ih =>
    rw [List.foldlM_cons] at h
    obtain ⟨c, hc, hb⟩ := Option.bind_eq_some_iff.mp h
    obtain ⟨hsize, hmoves⟩ := ih hb
    obtain ⟨hconcat, hother, hfirst⟩ := step?_spec hc
    refine ⟨?_, hfirst.trans hmoves⟩
    rw [owners_cons]
    by_cases ht : t = .operator .concatenation
    · rw [if_pos ht, hsize, hconcat ht]
      omega
    · rw [if_neg ht, hsize, (hother ht).1]
      omega

/-- States and moves of the fragment stand in the order of the tokens that the pass makes them for.
The states `2 * i` and `2 * i + 1`, start and accepting state of what it joins, are those of the token
that `i` tokens other than concatenations precede; a concatenation has none. -/
structure InOrder (p : Postfix) (n : Nfa) : Prop where
  size : n.states.size = 2 * owners p.tokens
  token : ∀ xs t ys, p.tokens = xs ++ t :: ys → ∃ a b : Arena,
    xs.foldlM step? {} = some a ∧ a.step? t = some b ∧
      a.diagram.states.size = 2 * owners xs ∧
      (t = .operator .concatenation → b.diagram.states.size = 2 * owners xs) ∧
      (t ≠ .operator .concatenation → b.diagram.states.size = 2 * owners xs + 2 ∧
        b.bounds.head? = some (2 * owners xs, 2 * owners xs + 1)) ∧
      a.diagram.moves.toList <+: b.diagram.moves.toList ∧
      b.diagram.moves.toList <+: n.moves.toList

theorem inOrder_of_run {p : Postfix} {c : Arena} {n : Nfa} (hrun : p.tokens.foldlM step? {} = some c)
    (hdiagram : n.toDiagram = c.diagram) : InOrder p n where
  size := by
    have hsize := (run_spec hrun).1
    rw [hdiagram, hsize]
    exact Nat.zero_add _
  token xs t ys hts := by
    rw [hts, List.foldlM_append] at hrun
    obtain ⟨a, ha, hrest⟩ := Option.bind_eq_some_iff.mp hrun
    rw [List.foldlM_cons] at hrest
    obtain ⟨b, hb, hc⟩ := Option.bind_eq_some_iff.mp hrest
    obtain ⟨hconcat, hother, hmoves⟩ := step?_spec hb
    have hsize : a.diagram.states.size = 2 * owners xs := by
      rw [(run_spec ha).1]
      exact Nat.zero_add _
    rw [hsize] at hconcat hother
    rw [hdiagram]
    exact ⟨a, b, ha, hb, hsize, hconcat, hother, hmoves, (run_spec hc).2⟩

theorem toDiagram_of_only? {a : Arena} {n : Nfa} (h : a.only? = some n) :
    n.toDiagram = a.diagram := by
  unfold only? at h
  split at h
  · rw [← Option.some.inj h]
  · cases h

end Arena

/-- Building by copying is building in one pass: where tokens can be evaluated, one pass over them
gives the same fragment, with its states and moves in the order of the tokens. -/
theorem build?_of_ofPostfix (p : Postfix) (n : Nfa) (h : Nfa.ofPostfix p = .ok n) :
    Arena.build? p = some n ∧ Arena.InOrder p n := by
  have hbuild : Arena.build? p = some n := by
    rw [Arena.build?_eq_toOption, h]
    rfl
  refine ⟨hbuild, ?_⟩
  rw [Arena.build?_eq_only?] at hbuild
  obtain ⟨c, hrun, honly⟩ := Option.bind_eq_some_iff.mp hbuild
  exact Arena.inOrder_of_run hrun (Arena.toDiagram_of_only? honly)

theorem build?_of_ofPostfix_nested :
    Nfa.ofPostfix ⟨[.operand 'a', .operand 'b', .operand 'c', .operator .alternation,
        .operator .closure, .operator .concatenation]⟩ =
      .ok ((Nfa.symbol 'a').concat ((Nfa.symbol 'b').alternate (Nfa.symbol 'c')).closure) ∧
    Arena.build? ⟨[.operand 'a', .operand 'b', .operand 'c', .operator .alternation,
        .operator .closure, .operator .concatenation]⟩ =
      some ((Nfa.symbol 'a').concat ((Nfa.symbol 'b').alternate (Nfa.symbol 'c')).closure) ∧
    Arena.InOrder ⟨[.operand 'a', .operand 'b', .operand 'c', .operator .alternation,
        .operator .closure, .operator .concatenation]⟩
      ((Nfa.symbol 'a').concat ((Nfa.symbol 'b').alternate (Nfa.symbol 'c')).closure) :=
  ⟨rfl, build?_of_ofPostfix _ _ rfl⟩

end PatternAutomata
