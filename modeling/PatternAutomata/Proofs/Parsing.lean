/-
  Parsing. Reading a piece that derives from a nonterminal brings the postorder
  of its tree into the yard, whatever waits there already and binds less tightly
  than the nonterminal (`takes_of_derives`). The last operators of the postorder
  may still wait in front; they are the right spine of the tree, and none of
  them is looser than the nonterminal allows. A whole pattern starts from the
  empty yard and releases them in the end, so its postfix order is the postorder.
-/
import PatternAutomata.Expr.Grammar
import PatternAutomata.Proofs.Conversion

namespace PatternAutomata

open Grammar (Level Derives)
open Token (ofChars opensAtom closesAtom seam)

/-! ## The ends of a derived piece -/

namespace Grammar

theorem opensAtom_of_derives {L : Level} {p : List Char} {e : Expr} (h : Derives L p e) :
    opensAtom p = true := by
  induction h with
  | alternate _ _ ih _ => exact Token.opensAtom_append ih _
  | ofTerm _ ih => exact ih
  | concat _ _ ih _ => exact Token.opensAtom_append ih _
  | ofFactor _ ih => exact ih
  | closure _ ih => exact Token.opensAtom_append ih _
  | ofAtom _ ih => exact ih
  | symbol hc => exact Token.opensAtom_symbol hc
  | group _ _ => rfl

theorem closesAtom_of_derives {L : Level} {p : List Char} {e : Expr} (h : Derives L p e) :
    closesAtom p = true := by
  induction h with
  | alternate _ _ _ ih =>
    rw [← List.singleton_append, ← List.append_assoc]
    exact Token.closesAtom_append _ ih
  | ofTerm _ ih => exact ih
  | concat _ _ _ ih => exact Token.closesAtom_append _ ih
  | ofFactor _ ih => exact ih
  | closure _ _ => exact Token.closesAtom_concat _ '*'
  | ofAtom _ ih => exact ih
  | symbol hc => exact Token.closesAtom_symbol hc
  | group _ _ => exact Token.closesAtom_concat _ ')'

/-- The least binding strength of an operator that can stand, outside groups, in a nonterminal. -/
def Level.strength : Level → Nat
  | expr => Operator.alternation.precedence
  | term => Operator.concatenation.precedence
  | factor => Operator.closure.precedence
  | atom => Operator.closure.precedence + 1

end Grammar

namespace Yard

/-! ## What taking in a piece does -/

/-- Taking in the tokens, where only operators looser than `k` wait, brings the tree's postorder
into the yard: a part of it into the output, the operators of the rest in front of those that wait,
none of them looser than `k`. -/
def Takes (ts : List Token) (k : Nat) (e : Expr) : Prop :=
  ∃ out ops, out ++ ops.map Token.operator = e.postorder ∧ (∀ op ∈ ops, k ≤ op.precedence) ∧
    ∀ y : Yard, (∀ op ∈ y.pending, op.precedence < k) →
      ts.foldlM step y =
        .ok { output := y.output ++ out.toArray, pending := ops ++ y.pending, outer := y.outer }

theorem Takes.mono {ts : List Token} {j k : Nat} {e : Expr} (h : Takes ts k e) (hjk : j ≤ k) :
    Takes ts j e := by
  obtain ⟨out, ops, heq, hops, hrun⟩ := h
  refine ⟨out, ops, heq, fun op hop => hjk.trans (hops op hop), fun y hy => ?_⟩
  exact hrun y fun op hop => (hy op hop).trans_le hjk

/-- An operator releases those in front that bind at least as tightly, and no others. -/
theorem await_append (output : Array Token) (ops pending : List Operator)
    (outer : List (List Operator)) {op : Operator}
    (hops : ∀ o ∈ ops, op.precedence ≤ o.precedence)
    (hpending : ∀ o ∈ pending, o.precedence < op.precedence) :
    await { output, pending := ops ++ pending, outer } op =
      { output := emit output ops, pending := op :: pending, outer } := by
  have htake : pending.takeWhile (op.precedence ≤ ·.precedence) = [] := by
    cases pending with
    | nil => rfl
    | cons o pending =>
      rw [List.takeWhile_cons_of_neg]
      simpa using hpending o List.mem_cons_self
  have hdrop : pending.dropWhile (op.precedence ≤ ·.precedence) = pending := by
    have hsplit : pending.takeWhile (op.precedence ≤ ·.precedence) ++
        pending.dropWhile (op.precedence ≤ ·.precedence) = pending :=
      List.takeWhile_append_dropWhile
    rwa [htake, List.nil_append] at hsplit
  have hall : ∀ o ∈ ops, decide (op.precedence ≤ o.precedence) = true := by simpa using hops
  simp only [await, List.takeWhile_append_of_pos hall, List.dropWhile_append_of_pos hall, htake,
    hdrop, List.append_nil]

theorem emit_append (output : Array Token) (out : List Token) (ops : List Operator) :
    emit (output ++ out.toArray) ops = output ++ (out ++ ops.map Token.operator).toArray := by
  apply Array.ext'
  simp [toList_emit]

theorem takes_symbol (c : Char) : Takes [.operand c] Level.atom.strength (.symbol c) := by
  refine ⟨[.operand c], [], rfl, by simp, fun y _ => ?_⟩
  rw [run_singleton, step]
  simp

theorem takes_group {ts : List Token} {e : Expr} (h : Takes ts Level.expr.strength e) :
    Takes (.leftGroup :: (ts ++ [.rightGroup])) Level.atom.strength e := by
  obtain ⟨out, ops, heq, -, hrun⟩ := h
  refine ⟨e.postorder, [], by simp, by simp, fun y _ => ?_⟩
  rw [List.foldlM_cons, step, ok_bind, run_append_of_ok (hrun _ (by simp)), run_singleton, step]
  simp only [emit_append, List.append_nil, List.nil_append, heq]

theorem takes_closure {ts : List Token} {e : Expr} (h : Takes ts Level.factor.strength e) :
    Takes (ts ++ [.operator .closure]) Level.factor.strength (.closure e) := by
  obtain ⟨out, ops, heq, hops, hrun⟩ := h
  refine ⟨e.postorder, [.closure], rfl, by simp [Level.strength], fun y hy => ?_⟩
  rw [run_append_of_ok (hrun y hy), run_singleton, step, await_append _ _ _ _ hops hy, emit_append,
    heq]
  rfl

/-- Both binary operators: the left operand is released before the operator waits, and the right
operand must bind more tightly than the operator. -/
theorem takes_binary {op : Operator} {k : Nat} {xs ys : List Token} {a b c : Expr}
    (hc : c.postorder = a.postorder ++ b.postorder ++ [.operator op]) (hk : op.precedence < k)
    (ha : Takes xs op.precedence a) (hb : Takes ys k b) :
    Takes (xs ++ .operator op :: ys) op.precedence c := by
  obtain ⟨out₁, ops₁, heq₁, hops₁, hrun₁⟩ := ha
  obtain ⟨out₂, ops₂, heq₂, hops₂, hrun₂⟩ := hb
  refine ⟨a.postorder ++ out₂, ops₂ ++ [op], ?_, ?_, fun y hy => ?_⟩
  · rw [hc, ← heq₂]
    simp
  · intro o ho
    rcases List.mem_append.mp ho with ho | ho
    · exact hk.le.trans (hops₂ o ho)
    · rw [List.mem_singleton.mp ho]
  · rw [run_append_of_ok (hrun₁ y hy), List.foldlM_cons, step, ok_bind,
      await_append _ _ _ _ hops₁ hy, hrun₂, emit_append, heq₁]
    · simp
    · intro o ho
      rcases List.mem_cons.mp ho with rfl | ho
      · exact hk
      · exact (hy o ho).trans hk

/-! ## Derived pieces -/

theorem takes_of_derives {L : Level} {p : List Char} {e : Expr} (h : Derives L p e) :
    Takes (ofChars p) L.strength e := by
  induction h with
  | @alternate p q _ _ hp hq ihp ihq =>
    rw [Token.ofChars_around rfl rfl]
    exact takes_binary rfl (by decide) ihp ihq
  | ofTerm _ ih => exact ih.mono (by decide)
  | @concat p q _ _ hp hq ihp ihq =>
    rw [Token.ofChars_append, Token.seam_of_both (Grammar.closesAtom_of_derives hp)
      (Grammar.opensAtom_of_derives hq), List.singleton_append]
    exact takes_binary rfl (by decide) ihp ihq
  | ofFactor _ ih => exact ih.mono (by decide)
  | closure _ ih =>
    rw [Token.ofChars_append, Token.seam_of_not_opensAtom _ rfl, List.nil_append]
    exact takes_closure ih
  | ofAtom _ ih => exact ih.mono (by decide)
  | @symbol c hc =>
    rw [Token.ofChars_singleton, Token.ofChar_of_not_reserved hc]
    exact takes_symbol c
  | group _ ih =>
    rw [Token.ofChars_group]
    exact takes_group ih

end Yard

/-- The tokens of a derived pattern come out in the postorder of the tree. -/
theorem Postfix.ofTokens_of_derives {p : List Char} {e : Expr} (h : Derives .expr p e) :
    Postfix.ofTokens (ofChars p) = .ok ⟨e.postorder⟩ := by
  obtain ⟨out, ops, heq, -, hrun⟩ := Yard.takes_of_derives h
  rw [Postfix.ofTokens_of_run (hrun {} (by simp)), Yard.finish]
  simp [Yard.emit, heq]

/-- The postfix order of a derived pattern is the postorder of its tree: closures bind most
tightly and alternations least, both binary operators associate to the left, and groups leave
nothing behind. -/
theorem ofPattern_eq_postorder (p : String) (e : Expr) (h : Derives .expr p.toList e) :
    Postfix.ofPattern p = .ok ⟨e.postorder⟩ := by
  unfold Postfix.ofPattern
  rw [Token.tokenize_eq_ofChars]
  exact Postfix.ofTokens_of_derives h

theorem ofPattern_eq_postorder_mixed :
    Derives .expr "a|b(c)d*".toList
        (.alternate (.symbol 'a')
          (.concat (.concat (.symbol 'b') (.symbol 'c')) (.closure (.symbol 'd')))) ∧
      Postfix.ofPattern "a|b(c)d*" = .ok ⟨[.operand 'a', .operand 'b', .operand 'c',
        .operator .concatenation, .operand 'd', .operator .closure, .operator .concatenation,
        .operator .alternation]⟩ := by
  have ha : Derives .term ['a'] (.symbol 'a') := .ofFactor (.ofAtom (.symbol (by decide)))
  have hb : Derives .term ['b'] (.symbol 'b') := .ofFactor (.ofAtom (.symbol (by decide)))
  have hc : Derives .term ['c'] (.symbol 'c') := .ofFactor (.ofAtom (.symbol (by decide)))
  have hd : Derives .factor ['d'] (.symbol 'd') := .ofAtom (.symbol (by decide))
  have hbc := Derives.concat hb (.ofAtom (.group (.ofTerm hc)))
  have hp := Derives.alternate (.ofTerm ha) (.concat hbc (.closure hd))
  exact ⟨hp, ofPattern_eq_postorder "a|b(c)d*" _ hp⟩

end PatternAutomata
