/-
  Which sequences can be evaluated, and how all others are refused. The depth of a
  sequence, its operands less the operators that join two, is the height of the
  stack that it leaves. So the tokens before a token say whether it can be taken in
  (`Token.unfit`): the first one that cannot is refused (`evaluate_of_firstUnfit`),
  and if there is none, the depth of the whole decides. The trees on the stack list
  what was read (`postorder_of_run`), so a sequence that can be evaluated is the
  postorder of a tree, and of one only.
-/
import Mathlib.Data.Nat.Find
import PatternAutomata.Nfa
import PatternAutomata.Proofs.Evaluation

namespace PatternAutomata

namespace Token

/-! ## Depth -/

/-- Whether the token stands for a symbol. -/
def isOperand : Token → Bool
  | operand _ => true
  | _ => false

/-- How many more operands a sequence has than operators that join two. -/
def depth (ts : List Token) : Int :=
  ts.countP isOperand - ts.count (operator .alternation) - ts.count (operator .concatenation)

/-- Whether the token cannot be taken in at a depth. Group marks never can, and operators need
their operands. -/
def unfit (depth : Int) : Token → Bool
  | operand _ => false
  | operator .closure => depth = 0
  | operator _ => depth < 2
  | leftGroup | rightGroup => true

theorem depth_eq_gains (ts : List Token) : depth ts = gains ts := by
  induction ts with
  | nil => rfl
  | cons t ts ih =>
    rw [gains_cons, ← ih]
    unfold depth
    rw [List.countP_cons, List.count_cons, List.count_cons]
    cases t with
    | operand c =>
      simp [isOperand, gain]
      omega
    | operator op =>
      cases op with
      | closure => simp [isOperand, gain, Operator.arity]
      | _ =>
        simp [isOperand, gain, Operator.arity]
        omega
    | leftGroup => simp [isOperand, gain]
    | rightGroup => simp [isOperand, gain]

theorem unfit_operator_iff (n : Nat) (op : Operator) :
    unfit n (operator op) = true ↔ n < op.arity := by
  cases op with
  | closure =>
    change decide ((n : Int) = 0) = true ↔ n < 1
    rw [decide_eq_true_iff]
    omega
  | _ =>
    change decide ((n : Int) < 2) = true ↔ n < 2
    rw [decide_eq_true_iff]
    omega

end Token

namespace Interpretation

variable {α : Type} (I : Interpretation α) {stack : List α} {t : Token}

/-! ## One step -/

/-- A token is taken in unless it is unfit at the height of the stack. -/
theorem step_of_fit (h : t.unfit stack.length = false) : ∃ s, I.step stack t = .ok s := by
  cases hstep : I.step stack t with
  | ok s => exact ⟨s, rfl⟩
  | error e =>
    have hgroup : t.isGroup = false := by
      cases t with
      | leftGroup => cases h
      | rightGroup => cases h
      | _ => rfl
    obtain ⟨op, rfl, hlt, -⟩ := I.step_error hgroup hstep
    rw [(Token.unfit_operator_iff _ op).mpr hlt] at h
    cases h

theorem step_operator_of_unfit {op : Operator}
    (h : Token.unfit stack.length (.operator op) = true) :
    I.step stack (.operator op) = .error (.missingOperand op stack.length) := by
  have hlt := (Token.unfit_operator_iff _ op).mp h
  cases hstep : I.step stack (.operator op) with
  | ok s =>
    -- A value is left, so the stack was at least as high as the operator needs.
    obtain ⟨hne, hlength⟩ := I.step_ok hstep
    have hpos := List.length_pos_iff.mpr hne
    simp only [Token.gain] at hlength
    omega
  | error e =>
    obtain ⟨op', heq, -, rfl⟩ := I.step_error rfl hstep
    obtain rfl := Token.operator.inj heq
    rfl

/-- A tree on the stack is listed behind those below it; a step lists its token last. -/
theorem postorder_of_step {stack s : List Expr} (h : Expr.trees.step stack t = .ok s) :
    s.reverse.flatMap Expr.postorder = stack.reverse.flatMap Expr.postorder ++ [t] := by
  cases t with
  | operand c =>
    cases h
    simp [Expr.trees, Expr.postorder]
  | operator op =>
    cases op with
    | closure =>
      rcases stack with _ | ⟨a, stack⟩
      · cases h
      · cases h
        simp [Expr.trees, Expr.postorder]
    | _ =>
      rcases stack with _ | ⟨b, _ | ⟨a, stack⟩⟩
      · cases h
      · cases h
      · cases h
        simp [Expr.trees, Expr.postorder]
  | leftGroup => cases h
  | rightGroup => cases h

/-! ## Runs -/

/-- The trees that a run leaves list the tokens that it read. -/
theorem postorder_of_run {s : List Expr} {ts : List Token}
    (h : ts.foldlM Expr.trees.step [] = .ok s) : s.reverse.flatMap Expr.postorder = ts := by
  refine run_induction (motive := fun ts s => s.reverse.flatMap Expr.postorder = ts) rfl ?_ h
  intro xs t y z ih hstep
  rw [postorder_of_step hstep, ih]

theorem run_depth {s : List α} {ts : List Token} (h : ts.foldlM I.step [] = .ok s) :
    (s.length : Int) = Token.depth ts := by
  have hlength := I.run_length h
  rw [List.length_nil] at hlength
  rw [Token.depth_eq_gains]
  omega

end Interpretation

namespace Postfix

open Token (depth)

/-! ## Unfit tokens in a sequence -/

/-- Whether the token in a place is unfit at the depth of those before it. -/
def unfitAt (ts : List Token) (i : Nat) : Bool :=
  ts[i]?.any (Token.unfit (depth (ts.take i)))

/-- The token in the place is the first that is unfit. -/
structure FirstUnfit (ts : List Token) (i : Nat) (t : Token) : Prop where
  getElem? : ts[i]? = some t
  unfit : t.unfit (depth (ts.take i)) = true
  first : ∀ j < i, unfitAt ts j = false

theorem unfitAt_append {ts : List Token} {i : Nat} (h : i < ts.length) (us : List Token) :
    unfitAt (ts ++ us) i = unfitAt ts i := by
  unfold unfitAt
  rw [List.getElem?_append_left h, List.take_append_of_le_length (Nat.le_of_lt h)]

theorem unfitAt_length (ts : List Token) (t : Token) (us : List Token) :
    unfitAt (ts ++ t :: us) ts.length = t.unfit (depth ts) := by
  unfold unfitAt
  rw [List.getElem?_append_right (Nat.le_refl _), Nat.sub_self, List.take_left]
  rfl

theorem exists_firstUnfit {ts : List Token} (h : ∃ i, unfitAt ts i = true) :
    ∃ i t, FirstUnfit ts i t := by
  have hi := Nat.find_spec h
  obtain ⟨t, ht, hunfit⟩ := (Option.any_eq_true _ _).mp hi
  refine ⟨Nat.find h, t, ht, hunfit, fun j hj => ?_⟩
  simpa using Nat.find_min h hj

/-- A first unfit token splits the sequence; no token before it is unfit. -/
theorem FirstUnfit.split {ts : List Token} {i : Nat} {t : Token} (h : FirstUnfit ts i t) :
    ts = ts.take i ++ t :: ts.drop (i + 1) ∧ ∀ j, unfitAt (ts.take i) j = false := by
  obtain ⟨hlt, rfl⟩ := List.getElem?_eq_some_iff.mp h.getElem?
  refine ⟨by rw [List.getElem_cons_drop, List.take_append_drop], fun j => ?_⟩
  by_cases hj : j < (ts.take i).length
  · rw [← unfitAt_append hj (ts.drop i), List.take_append_drop]
    exact h.first j (by rw [List.length_take] at hj; omega)
  · unfold unfitAt
    rw [List.getElem?_eq_none (Nat.le_of_not_lt hj)]
    rfl

/-! ## Evaluation -/

section Evaluation

variable {α : Type} (I : Interpretation α) {ts : List Token}

/-- Without unfit tokens, a sequence is taken in. -/
theorem run_of_fit (h : ∀ i, unfitAt ts i = false) : ∃ s, ts.foldlM I.step [] = .ok s := by
  induction ts using List.reverseRecOn with
  | nil => exact ⟨[], rfl⟩
  | append_singleton ts t ih =>
    obtain ⟨y, hy⟩ := ih fun i => by
      by_cases hi : i < ts.length
      · rw [← unfitAt_append hi [t]]
        exact h i
      · unfold unfitAt
        rw [List.getElem?_eq_none (Nat.le_of_not_lt hi)]
        rfl
    have ht := h ts.length
    rw [unfitAt_length, ← I.run_depth hy] at ht
    obtain ⟨s, hs⟩ := I.step_of_fit ht
    exact ⟨s, by rw [run_append_of_ok hy, run_singleton, hs]⟩

/-- Evaluation is refused at the first unfit token, on a stack as high as the depth there. -/
theorem evaluate_of_firstUnfit {i : Nat} {t : Token} (h : FirstUnfit ts i t) :
    ∃ s : List α, (s.length : Int) = depth (ts.take i) ∧
      ∀ e, I.step s t = .error e → evaluate I ⟨ts⟩ = .error e := by
  obtain ⟨hsplit, hfit⟩ := h.split
  obtain ⟨s, hs⟩ := run_of_fit I hfit
  refine ⟨s, I.run_depth hs, fun e he => ?_⟩
  have hrun : ts.foldlM I.step [] = .error e := by
    rw [hsplit, run_append_of_ok hs, List.foldlM_cons, he, error_bind]
  rw [evaluate, hrun, error_bind]

theorem evaluate_of_fit (h : ∀ i, unfitAt ts i = false) :
    ∃ s : List α, (s.length : Int) = depth ts ∧ evaluate I ⟨ts⟩ = onlyValue s := by
  obtain ⟨s, hs⟩ := run_of_fit I h
  exact ⟨s, I.run_depth hs, by rw [evaluate, hs, ok_bind]⟩

end Evaluation

/-- A sequence evaluates to a tree exactly if it is the tree's postorder. -/
theorem evaluate_trees_eq_ok_iff {ts : List Token} {e : Expr} :
    evaluate Expr.trees ⟨ts⟩ = .ok e ↔ ts = e.postorder := by
  constructor
  · intro h
    unfold evaluate at h
    cases hrun : ts.foldlM Expr.trees.step [] with
    | error e' =>
      rw [hrun, error_bind] at h
      cases h
    | ok s =>
      have hlist := Interpretation.postorder_of_run hrun
      rw [hrun, ok_bind] at h
      rcases s with _ | ⟨a, _ | ⟨b, s⟩⟩
      · cases h
      · cases h
        simpa using hlist.symm
      · cases h
  · rintro rfl
    rw [evaluate_postorder, Expr.interpret_trees]

end Postfix

/-- No two trees have one postorder. -/
theorem Expr.postorder_injective : Function.Injective Expr.postorder := fun a b h => by
  have ha := Postfix.evaluate_trees_eq_ok_iff.mpr h
  rw [Postfix.evaluate_trees_eq_ok_iff.mpr rfl] at ha
  exact Except.ok.inj ha

/-- The fragment of a sequence is that of the tree whose postorder it is. -/
theorem Nfa.ofPostfix_eq_ok_iff {p : Postfix} {n : Nfa} :
    Nfa.ofPostfix p = .ok n ↔ ∃ e, p.tokens = e.postorder ∧ n = Nfa.ofExpr e := by
  have hmap := Postfix.evaluate_eq_map_trees Nfa.fragments p
  constructor
  · intro h
    rw [Nfa.ofPostfix, hmap] at h
    cases ht : p.evaluate Expr.trees with
    | error e =>
      rw [ht] at h
      cases h
    | ok e =>
      rw [ht] at h
      exact ⟨e, Postfix.evaluate_trees_eq_ok_iff.mp ht, (Except.ok.inj h).symm⟩
  · rintro ⟨e, he, rfl⟩
    rw [Nfa.ofPostfix, hmap, Postfix.evaluate_trees_eq_ok_iff.mpr he]
    rfl

/-! ## How sequences are refused -/

/-- A name in a message says which operator it is. -/
theorem Operator.describe_injective : Function.Injective Operator.describe := by
  intro op op' h
  cases op <;> cases op' <;> first | rfl | exact absurd h (by decide)

/-- How an unfit token is refused: a group mark as such, an operator with the number of operands
that it needs and the depth that there is. -/
structure Postfix.Rejection (t : Token) (depth : Int) (e : Error) : Prop where
  left : t = .leftGroup → e.kind = .unmatchedLeftGroup
  right : t = .rightGroup → e.kind = .unmatchedRightGroup
  operator : ∀ op, t = .operator op → e.kind = .missingOperand ∧ ∃ n : Nat, n = depth ∧
    e = .missingOperand op n ∧
    e.message = "Missing operand for " ++ op.describe ++ ": needs " ++
      (if op = .closure then "1" else "2") ++ ", stack depth " ++ toString n

namespace Nfa

open Postfix (FirstUnfit Rejection unfitAt)
open Token (depth)

variable {ts : List Token}

theorem ofPostfix_of_firstUnfit {i : Nat} {t : Token} (h : FirstUnfit ts i t) :
    ∃ e, ofPostfix ⟨ts⟩ = .error e ∧ Rejection t (depth (ts.take i)) e := by
  obtain ⟨s, hlength, heval⟩ := Postfix.evaluate_of_firstUnfit fragments h
  have hunfit := h.unfit
  cases t with
  | operand c => cases hunfit
  | operator op =>
    rw [← hlength] at hunfit
    refine ⟨_, heval _ (fragments.step_operator_of_unfit hunfit), nofun, nofun, ?_⟩
    rintro op' heq
    obtain rfl := Token.operator.inj heq
    refine ⟨rfl, s.length, hlength, rfl, ?_⟩
    cases op <;> rfl
  | leftGroup => exact ⟨_, heval .leftInPostfix rfl, fun _ => rfl, nofun, nofun⟩
  | rightGroup => exact ⟨_, heval .rightInPostfix rfl, nofun, fun _ => rfl, nofun⟩

/-- Without unfit tokens, all is decided by the depth in the end. -/
theorem ofPostfix_of_fit (h : ∀ i, unfitAt ts i = false) :
    (∃ n, depth ts = 1 ∧ ofPostfix ⟨ts⟩ = .ok n) ∨
      (depth ts = 0 ∧ ofPostfix ⟨ts⟩ = .error .nothingToBuild) ∨
      ∃ n : Nat, 1 < n ∧ depth ts = n ∧ ofPostfix ⟨ts⟩ = .error (.leftover n) := by
  obtain ⟨s, hlength, heval⟩ := Postfix.evaluate_of_fit fragments h
  rcases s with _ | ⟨a, _ | ⟨b, s⟩⟩
  · exact Or.inr (Or.inl ⟨hlength.symm, heval⟩)
  · exact Or.inl ⟨a, hlength.symm, heval⟩
  · exact Or.inr (Or.inr ⟨(a :: b :: s).length, by simp, hlength.symm, heval⟩)

end Nfa

/-- Exactly which sequences have a fragment, and for which cause all others are refused. If there
are unfit tokens, the first of them is refused. If there are none, the fragment exists when the
depth in the end is 1, and otherwise the sequence is unbalanced, with that depth reported when it
is above 1. The sequences with a fragment are the postorders of trees, of one tree each, and it is
the tree's. -/
theorem ofPostfix_verdict (ts : List Token) :
    ((∃ i, Postfix.unfitAt ts i = true) → ∃ i t, Postfix.FirstUnfit ts i t) ∧
    (∀ i t, Postfix.FirstUnfit ts i t →
      ∃ e, Nfa.ofPostfix ⟨ts⟩ = .error e ∧ Postfix.Rejection t (Token.depth (ts.take i)) e) ∧
    ((∀ i, Postfix.unfitAt ts i = false) →
      ((∃ n, Nfa.ofPostfix ⟨ts⟩ = .ok n) ↔ Token.depth ts = 1) ∧
      (Token.depth ts ≠ 1 → ∃ e, Nfa.ofPostfix ⟨ts⟩ = .error e ∧ e.kind = .unbalancedExpression ∧
        ∀ n : Nat, 1 < n → Token.depth ts = n → e.message =
          "Unbalanced expression: " ++ toString n ++ " automata left without an operator")) ∧
    ((∃ n, Nfa.ofPostfix ⟨ts⟩ = .ok n) ↔ ∃ e : Expr, ts = e.postorder) ∧
    ∀ e : Expr, ts = e.postorder →
      Nfa.ofPostfix ⟨ts⟩ = .ok (Nfa.ofExpr e) ∧ ∀ e' : Expr, ts = e'.postorder → e' = e := by
  refine ⟨Postfix.exists_firstUnfit, fun i t => Nfa.ofPostfix_of_firstUnfit, ?_, ?_, ?_⟩
  · intro hfit
    rcases Nfa.ofPostfix_of_fit hfit with ⟨n, hd, hp⟩ | ⟨hd, hp⟩ | ⟨n, hn, hd, hp⟩
    · simp [hd, hp]
    · refine ⟨by simp [hd, hp], fun _ => ⟨_, hp, rfl, fun n hn hdn => ?_⟩⟩
      omega
    · refine ⟨by simp [hd, hp]; omega, fun _ => ⟨_, hp, rfl, fun m _ hdm => ?_⟩⟩
      obtain rfl : m = n := by omega
      rfl
  · constructor
    · intro ⟨n, hn⟩
      obtain ⟨e, he, -⟩ := Nfa.ofPostfix_eq_ok_iff.mp hn
      exact ⟨e, he⟩
    · intro ⟨e, he⟩
      exact ⟨Nfa.ofExpr e, Nfa.ofPostfix_eq_ok_iff.mpr ⟨e, he, rfl⟩⟩
  · intro e he
    exact ⟨Nfa.ofPostfix_eq_ok_iff.mpr ⟨e, he, rfl⟩, fun e' he' =>
      Expr.postorder_injective (he' ▸ he)⟩

/-- A closure and an alternation find what they need. The concatenation does not, and what follows
it is not looked at. -/
theorem ofPostfix_verdict_short :
    Postfix.FirstUnfit [.operand 'a', .operator .closure, .operand 'b', .operator .alternation,
      .operator .concatenation, .leftGroup] 4 (.operator .concatenation) ∧
    ∃ e, Nfa.ofPostfix ⟨[.operand 'a', .operator .closure, .operand 'b', .operator .alternation,
      .operator .concatenation, .leftGroup]⟩ = .error e ∧
    Postfix.Rejection (.operator .concatenation) 1 e := by
  have hfirst : Postfix.FirstUnfit [.operand 'a', .operator .closure, .operand 'b',
      .operator .alternation, .operator .concatenation, .leftGroup] 4 (.operator .concatenation) :=
    ⟨rfl, by decide, by decide⟩
  exact ⟨hfirst, (ofPostfix_verdict _).2.1 4 _ hfirst⟩

end PatternAutomata
