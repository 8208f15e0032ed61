/-
  Sizes of fragments. Each token of an expression adds a fixed number of states and
  moves to the fragment, and concatenations add no states and one move for each, of
  which there is one less than there are operands. So sizes are weights of the
  postorder (`Nfa.size_states_ofExpr`, `Nfa.size_moves_ofExpr`) in which
  concatenations and group marks count for nothing, and these weights are read off
  the characters of a pattern (`Token.weight_ofChars`).
-/
import Mathlib.Algebra.Group.Action.Defs
import Mathlib.Algebra.Order.BigOperators.Group.List
import Mathlib.Algebra.Order.Ring.Nat
import PatternAutomata.Proofs.Compilation
import PatternAutomata.Proofs.Decoding
import PatternAutomata.Proofs.Fragments
import PatternAutomata.Proofs.Lexing

namespace PatternAutomata

namespace Token

/-! ## Weights -/

/-- The weight of a token, given those of operands, alternations and closures. -/
def weigh (o v k : Nat) : Token → Nat
  | operand _ => o
  | operator .alternation => v
  | operator .closure => k
  | operator .concatenation | leftGroup | rightGroup => 0

/-- The weight of a sequence. -/
def weight (o v k : Nat) (ts : List Token) : Nat := (ts.map (weigh o v k)).sum

section Weight

variable {o v k : Nat}

theorem weight_append (ts us : List Token) :
    weight o v k (ts ++ us) = weight o v k ts + weight o v k us := by
  unfold weight
  rw [List.map_append, List.sum_append]

theorem weight_singleton (t : Token) : weight o v k [t] = weigh o v k t := List.sum_singleton

theorem weight_perm {ts us : List Token} (h : ts.Perm us) : weight o v k ts = weight o v k us :=
  (h.map _).sum_eq

theorem weight_le_of_sublist {ts us : List Token} (h : ts.Sublist us) :
    weight o v k ts ≤ weight o v k us :=
  (h.map _).sum_le_sum fun _ _ => Nat.zero_le _

/-- Tokens that weigh nothing can be left out. -/
theorem weight_filter {keep : Token → Bool} (h : ∀ t, keep t = false → weigh o v k t = 0)
    (ts : List Token) : weight o v k (ts.filter keep) = weight o v k ts := by
  induction ts with
  | nil => rfl
  | cons t ts ih =>
    rw [← List.singleton_append, List.filter_append, weight_append, weight_append, ih]
    cases ht : keep t with
    | true => rw [List.filter_singleton, ht, cond_true]
    | false =>
      rw [List.filter_singleton, ht, cond_false, weight_singleton, h t ht]
      rfl

theorem weight_ungrouped (ts : List Token) : weight o v k (ungrouped ts) = weight o v k ts :=
  weight_filter (fun t ht => by cases t <;> first | rfl | cases ht) ts

theorem weight_written (ts : List Token) : weight o v k (written ts) = weight o v k ts :=
  weight_filter (fun t ht => by rw [of_not_not (of_decide_eq_false ht)]; rfl) ts

theorem weight_mono {o' v' k' : Nat} (ho : o ≤ o') (hv : v ≤ v') (hk : k ≤ k') (ts : List Token) :
    weight o v k ts ≤ weight o' v' k' ts := by
  refine List.sum_le_sum fun t _ => ?_
  unfold weigh
  split
  all_goals omega

/-- Where no token weighs more than `m`, a sequence weighs at most `m` for each token. -/
theorem weight_le_length (m : Nat) (ts : List Token) : weight m m m ts ≤ ts.length * m := by
  have hle : ∀ x ∈ ts.map (weigh m m m), x ≤ m := by
    intro x hx
    obtain ⟨t, -, rfl⟩ := List.mem_map.mp hx
    unfold weigh
    split
    all_goals omega
  have hsum := List.sum_le_card_nsmul _ _ hle
  rwa [List.length_map, smul_eq_mul] at hsum

/-- Concatenations are not written, so a pattern weighs at most `m` for each character. -/
theorem weight_ofChars_le (m : Nat) (p : List Char) : weight m m m (ofChars p) ≤ p.length * m := by
  have hle := weight_le_length m (p.map ofChar)
  rwa [List.length_map, ← written_ofChars, weight_written] at hle

/-- What a pattern weighs is seen from its characters. -/
theorem weight_ofChars (p : List Char) :
    weight o v k (ofChars p) = o * p.countP (¬ Reserved ·) + v * p.count '|' + k * p.count '*' := by
  rw [← weight_written, written_ofChars]
  induction p with
  | nil => rfl
  | cons c p ih =>
    rw [List.map_cons, ← List.singleton_append, weight_append, ih, weight_singleton,
      List.countP_cons, List.count_cons, List.count_cons]
    by_cases hc : Reserved c
    · rcases hc with rfl | rfl | rfl | rfl
      all_goals
        simp [ofChar, weigh, Reserved, Nat.mul_add]
        try omega
    · have hne : c ≠ '|' ∧ c ≠ '*' := by
        unfold Reserved at hc
        tauto
      simp [ofChar_of_not_reserved hc, weigh, hc, hne, Nat.mul_add]
      omega

end Weight

end Token

/-! ## Fragments -/

namespace Nfa

open Token (weight weight_append weight_singleton weigh)

/-- Two states for each operand, alternation and closure. -/
theorem size_states_ofExpr (e : Expr) : (ofExpr e).states.size = weight 2 2 2 e.postorder := by
  induction e with
  | symbol c => rfl
  | alternate a b iha ihb =>
    change ((ofExpr a).alternate (ofExpr b)).states.size = _
    rw [size_states_alternate, iha, ihb, Expr.postorder, weight_append, weight_append]
    rfl
  | concat a b iha ihb =>
    change ((ofExpr a).concat (ofExpr b)).states.size = _
    rw [size_states_concat, iha, ihb, Expr.postorder, weight_append, weight_append]
    rfl
  | closure a ih =>
    change (ofExpr a).closure.states.size = _
    rw [size_states_closure, ih, Expr.postorder, weight_append]
    rfl

/-- Each operand but the first is joined to what stands before it, so the moves that join are
counted with the operands, and an alternation adds three more. -/
theorem size_moves_ofExpr (e : Expr) : (ofExpr e).moves.size + 1 = weight 2 3 4 e.postorder := by
  induction e with
  | symbol c => rfl
  | alternate a b iha ihb =>
    change ((ofExpr a).alternate (ofExpr b)).moves.size + 1 = _
    rw [size_moves_alternate, Expr.postorder, weight_append, weight_append, ← iha, ← ihb,
      weight_singleton, weigh]
    omega
  | concat a b iha ihb =>
    change ((ofExpr a).concat (ofExpr b)).moves.size + 1 = _
    rw [size_moves_concat, Expr.postorder, weight_append, weight_append, ← iha, ← ihb,
      weight_singleton, weigh]
    omega
  | closure a ih =>
    change (ofExpr a).closure.moves.size + 1 = _
    rw [size_moves_closure, Expr.postorder, weight_append, ← ih]
    exact Nat.add_right_comm _ 4 1

end Nfa

/-! ## Patterns -/

/-- Group marks are dropped, and all else is kept. -/
theorem Postfix.weight_of_ofTokens {ts : List Token} {p : Postfix} {o v k : Nat}
    (h : ofTokens ts = .ok p) : Token.weight o v k p.tokens = Token.weight o v k ts := by
  rw [Token.weight_perm (perm_of_ofTokens h).1, Token.weight_ungrouped]

theorem Regex.sizes_of_ok {p : String} {n : Nfa} (h : ofPattern p = .ok ⟨n⟩) :
    n.states.size = 2 * p.toList.countP (¬ Reserved ·) + 2 * p.toList.count '|' +
        2 * p.toList.count '*' ∧
      n.moves.size + 1 = 2 * p.toList.countP (¬ Reserved ·) + 3 * p.toList.count '|' +
        4 * p.toList.count '*' := by
  obtain ⟨post, hpost, hn⟩ := exists_postfix_of_ok h
  obtain ⟨e, he, rfl⟩ := Nfa.ofPostfix_eq_ok_iff.mp hn
  rw [Nfa.size_states_ofExpr, Nfa.size_moves_ofExpr, ← he]
  constructor
  · rw [Postfix.weight_of_ofTokens hpost, Token.weight_ofChars]
  · rw [Postfix.weight_of_ofTokens hpost, Token.weight_ofChars]

end PatternAutomata
