/-
  Evaluating postfix order. The postorder of a tree leaves the tree's value on
  the stack (`run_postorder`). For any other sequence the depth of the stack is
  a sum over the tokens read (`gains`), whatever the interpretation, and what is
  left in the end is at least one value as soon as one token was read. All
  interpretations agree with the one by trees (`evaluate_eq_map_trees`).
-/
import PatternAutomata.Expr
import PatternAutomata.Proofs.Runs

namespace PatternAutomata

namespace Token

/-- How many values the token adds to the stack. -/
def gain : Token → Int
  | operand _ => 1
  | operator op => 1 - op.arity
  | leftGroup | rightGroup => 0

/-- How many values a sequence adds to the stack. -/
def gains : List Token → Int
  | [] => 0
  | t :: ts => t.gain + gains ts

theorem gains_nil : gains [] = 0 := rfl

theorem gains_cons (t : Token) (ts : List Token) : gains (t :: ts) = t.gain + gains ts := rfl

theorem gains_append (ts us : List Token) : gains (ts ++ us) = gains ts + gains us := by
  induction ts with
  | nil => simp [gains_nil]
  | cons t ts ih =>
    rw [List.cons_append, gains_cons, gains_cons, ih]
    omega

theorem gains_singleton (t : Token) : gains [t] = t.gain := by
  rw [gains_cons, gains_nil]
  omega

theorem gains_perm {ts us : List Token} (h : ts.Perm us) : gains ts = gains us := by
  induction h with
  | nil => rfl
  | cons t _ ih => rw [gains_cons, gains_cons, ih]
  | swap t u ts =>
    simp only [gains_cons]
    omega
  | trans _ _ ih ih' => exact ih.trans ih'

/-- Group marks add nothing. -/
theorem gains_filter_isGroup (ts : List Token) :
    gains (ts.filter fun t => !t.isGroup) = gains ts := by
  induction ts with
  | nil => rfl
  | cons t ts ih =>
    rw [List.filter_cons, gains_cons]
    split
    · rw [gains_cons, ih]
    · rename_i ht
      rw [ih]
      cases t with
      | operand c => simp [isGroup] at ht
      | operator op => simp [isGroup] at ht
      | leftGroup => simp [gain]
      | rightGroup => simp [gain]

end Token

namespace Interpretation

variable {α : Type} (I : Interpretation α)

/-! ## One step -/

/-- A step that succeeds leaves a value, and as many more as its token adds. -/
theorem step_ok {stack s : List α} {t : Token} (h : I.step stack t = .ok s) :
    s ≠ [] ∧ (s.length : Int) = stack.length + t.gain := by
  cases t with
  | operand c =>
    cases h
    simp [Token.gain]
  | operator op =>
    cases op with
    | closure =>
      rcases stack with _ | ⟨a, stack⟩
      · cases h
      · cases h
        simp [Token.gain, Operator.arity]
    | _ =>
      rcases stack with _ | ⟨b, _ | ⟨a, stack⟩⟩
      · cases h
      · cases h
      · cases h
        refine ⟨List.cons_ne_nil _ _, ?_⟩
        simp only [List.length_cons, Token.gain, Operator.arity]
        omega
  | leftGroup => cases h
  | rightGroup => cases h

/-- Outside of group marks, only an operator is refused, for want of operands. -/
theorem step_error {stack : List α} {t : Token} {e : Error} (ht : t.isGroup = false)
    (h : I.step stack t = .error e) :
    ∃ op, t = .operator op ∧ stack.length < op.arity ∧ e = .missingOperand op stack.length := by
  cases t with
  | operand c => cases h
  | operator op =>
    refine ⟨op, rfl, ?_⟩
    cases op with
    | closure =>
      rcases stack with _ | ⟨a, stack⟩
      · cases h
        exact ⟨by simp [Operator.arity], rfl⟩
      · cases h
    | _ =>
      rcases stack with _ | ⟨b, _ | ⟨a, stack⟩⟩
      · cases h
        exact ⟨by simp [Operator.arity], rfl⟩
      · cases h
        exact ⟨by simp [Operator.arity], rfl⟩
      · cases h
  | leftGroup => cases ht
  | rightGroup => cases ht

/-- Values of trees on the stack, or the trees: a step does the same. -/
theorem step_map_interpret (stack : List Expr) (t : Token) :
    I.step (stack.map (Expr.interpret I)) t =
      (Expr.trees.step stack t).map (List.map (Expr.interpret I)) := by
  cases t with
  | operator op =>
    cases op with
    | closure =>
      rcases stack with _ | ⟨a, stack⟩
      · rfl
      · rfl
    | _ =>
      rcases stack with _ | ⟨b, _ | ⟨a, stack⟩⟩
      · rfl
      · rfl
      · rfl
  | _ => rfl

/-! ## Runs -/

theorem run_length {stack s : List α} {ts : List Token} (h : ts.foldlM I.step stack = .ok s) :
    (s.length : Int) = stack.length + Token.gains ts := by
  refine run_induction (motive := fun ts s => (s.length : Int) = stack.length + Token.gains ts)
    ?_ ?_ h
  · simp [Token.gains_nil]
  · intro xs t y z ih hstep
    rw [(I.step_ok hstep).2, ih, Token.gains_append, Token.gains_singleton, Int.add_assoc]

/-- Only nothing leaves nothing. -/
theorem run_eq_nil {ts : List Token} (h : ts.foldlM I.step [] = .ok []) : ts = [] := by
  rcases List.eq_nil_or_concat ts with rfl | ⟨us, t, rfl⟩
  · rfl
  · rw [List.concat_eq_append] at h
    obtain ⟨s, -, hs⟩ := run_prefix h
    rw [run_singleton] at hs
    exact absurd rfl (I.step_ok hs).1

/-- The postorder of a tree puts the tree's value on the stack. -/
theorem run_postorder (e : Expr) (stack : List α) :
    e.postorder.foldlM I.step stack = .ok (e.interpret I :: stack) := by
  induction e generalizing stack with
  | symbol c => rfl
  | alternate a b iha ihb =>
    unfold Expr.postorder
    rw [List.append_assoc, run_append_of_ok (iha stack), run_append_of_ok (ihb _)]
    rfl
  | concat a b iha ihb =>
    unfold Expr.postorder
    rw [List.append_assoc, run_append_of_ok (iha stack), run_append_of_ok (ihb _)]
    rfl
  | closure a ih =>
    unfold Expr.postorder
    rw [run_append_of_ok (ih stack)]
    rfl

theorem run_map_interpret (stack : List Expr) (ts : List Token) :
    ts.foldlM I.step (stack.map (Expr.interpret I)) =
      (ts.foldlM Expr.trees.step stack).map (List.map (Expr.interpret I)) := by
  induction ts generalizing stack with
  | nil => rfl
  | cons t ts ih =>
    rw [List.foldlM_cons, List.foldlM_cons, step_map_interpret]
    cases Expr.trees.step stack t with
    | ok s => exact ih s
    | error e => rfl

end Interpretation

/-! ## Whole sequences -/

namespace Postfix

variable {α : Type} (I : Interpretation α)

theorem evaluate_postorder (e : Expr) : evaluate I ⟨e.postorder⟩ = .ok (e.interpret I) := by
  unfold evaluate
  rw [I.run_postorder, ok_bind]
  rfl

theorem onlyValue_map (f : Expr → α) (stack : List Expr) :
    onlyValue (stack.map f) = (onlyValue stack).map f := by
  rcases stack with _ | ⟨a, _ | ⟨b, stack⟩⟩
  · rfl
  · rfl
  · simp [onlyValue, Except.map]

/-- Evaluating is evaluating to a tree and taking the tree's value. -/
theorem evaluate_eq_map_trees (p : Postfix) :
    evaluate I p = (evaluate Expr.trees p).map (Expr.interpret I) := by
  have hrun := I.run_map_interpret [] p.tokens
  rw [List.map_nil] at hrun
  unfold evaluate
  rw [hrun]
  cases p.tokens.foldlM Expr.trees.step [] with
  | ok s => exact onlyValue_map _ s
  | error e => rfl

/-- A sequence that evaluates adds one value in all. -/
theorem gains_of_evaluate {p : Postfix} {a : α} (h : evaluate I p = .ok a) :
    Token.gains p.tokens = 1 := by
  unfold evaluate at h
  cases hrun : p.tokens.foldlM I.step [] with
  | ok s =>
    have hlen := I.run_length hrun
    rw [hrun, ok_bind] at h
    rcases s with _ | ⟨b, _ | ⟨c, s⟩⟩
    · cases h
    · simpa using hlen.symm
    · cases h
  | error e =>
    rw [hrun, error_bind] at h
    cases h

/-- Without group marks, and with at most one value in all, a sequence that does not evaluate is
empty or has an operator that lacks operands. -/
theorem evaluate_error {p : Postfix} {e : Error} (hgroup : ∀ t ∈ p.tokens, t.isGroup = false)
    (hgains : Token.gains p.tokens ≤ 1) (h : evaluate I p = .error e) :
    (p.tokens = [] ∧ e = .nothingToBuild) ∨ ∃ op depth, e = .missingOperand op depth := by
  unfold evaluate at h
  cases hrun : p.tokens.foldlM I.step [] with
  | ok s =>
    have hlen := I.run_length hrun
    rw [hrun, ok_bind] at h
    rcases s with _ | ⟨b, _ | ⟨c, s⟩⟩
    · cases h
      exact Or.inl ⟨I.run_eq_nil hrun, rfl⟩
    · cases h
    · simp at hlen
      omega
  | error e' =>
    rw [hrun, error_bind] at h
    cases h
    obtain ⟨us, t, vs, s, hts, -, ht⟩ := run_refused hrun
    obtain ⟨op, -, -, rfl⟩ := I.step_error (hgroup t (by simp [hts])) ht
    exact Or.inr ⟨op, s.length, rfl⟩

end Postfix

end PatternAutomata
