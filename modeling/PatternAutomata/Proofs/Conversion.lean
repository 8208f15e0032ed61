/-
  What the conversion to postfix order does with any tokens, patterns or not.
  The yard never loses a token (`held`), and one scope stays outside for each
  group that is open. Hence group marks alone decide whether the conversion
  succeeds, and what comes out is a permutation of all other tokens. Only
  operators wait, so operands come out in the order in which they went in
  (`operands_held_of_run`).
-/
import Mathlib.Data.List.Perm.Basic
import PatternAutomata.Proofs.Runs
import PatternAutomata.Proofs.Tokens
import PatternAutomata.Postfix.Yard

namespace PatternAutomata

namespace Token

/-- The tokens that are no group marks. -/
def ungrouped (ts : List Token) : List Token := ts.filter fun t => !t.isGroup

/-- The symbols of the operands, in order. -/
def operands (ts : List Token) : List Char :=
  ts.filterMap fun
    | operand c => some c
    | _ => none

theorem operands_append (ts us : List Token) : operands (ts ++ us) = operands ts ++ operands us :=
  List.filterMap_append

theorem operands_map_operator (ops : List Operator) : operands (ops.map operator) = [] := by
  simp [operands]

end Token

namespace Yard

open Token (ungrouped operands)

/-- All operators that wait, innermost group first. -/
def waiting (y : Yard) : List Operator := y.pending ++ y.outer.flatten

/-- All that was taken in and is no group mark. -/
def held (y : Yard) : List Token := y.output.toList ++ y.waiting.map Token.operator

theorem toList_emit (output : Array Token) (ops : List Operator) :
    (emit output ops).toList = output.toList ++ ops.map Token.operator := by
  simp [emit]

/-! ## One step -/

theorem held_await (y : Yard) (op : Operator) :
    (y.await op).held.Perm (y.held ++ [.operator op]) := by
  obtain ⟨released, kept, hrel, hkept, hpend⟩ : ∃ released kept,
      y.pending.takeWhile (op.precedence ≤ ·.precedence) = released ∧
        y.pending.dropWhile (op.precedence ≤ ·.precedence) = kept ∧ y.pending = released ++ kept :=
    ⟨_, _, rfl, rfl, List.takeWhile_append_dropWhile.symm⟩
  simp only [held, waiting, await, hrel, hkept, toList_emit]
  rw [hpend]
  simp only [List.map_append, List.map_cons, List.append_assoc, List.cons_append]
  refine List.Perm.append_left _ (List.Perm.append_left _ ?_)
  rw [← List.append_assoc]
  exact List.perm_append_singleton _ _ |>.symm

/-- A step that succeeds takes in its token, or opens or closes one scope. -/
theorem step_ok {y z : Yard} {t : Token} (h : y.step t = .ok z) :
    z.held.Perm (y.held ++ ungrouped [t]) ∧
      z.outer.length + [t].count .rightGroup = y.outer.length + [t].count .leftGroup := by
  cases t with
  | operand c =>
    cases h
    refine ⟨?_, rfl⟩
    simp only [held, waiting, Array.toList_push, List.append_assoc]
    exact List.Perm.append_left _ List.perm_append_comm
  | operator op =>
    cases h
    exact ⟨held_await y op, rfl⟩
  | leftGroup =>
    cases h
    refine ⟨?_, by simp⟩
    simp [held, waiting, ungrouped, Token.isGroup]
  | rightGroup =>
    simp only [step] at h
    split at h
    · cases h
    · rename_i scope outer hout
      cases h
      refine ⟨?_, by simp [hout]⟩
      simp [held, waiting, ungrouped, Token.isGroup, toList_emit, hout]

/-- Only a closing mark outside every group is refused, with the number of tokens before it. -/
theorem step_error {y : Yard} {t : Token} {e : Error} (h : y.step t = .error e) :
    t = .rightGroup ∧ y.outer = [] ∧ e = .unmatchedRight y.held.length := by
  cases t with
  | rightGroup =>
    simp only [step] at h
    split at h
    · rename_i hout
      cases h
      refine ⟨rfl, hout, ?_⟩
      rw [← Array.length_toList, toList_emit, held, waiting, hout, List.flatten_nil,
        List.append_nil]
    · cases h
  | _ => cases h

theorem operands_held (y : Yard) : operands y.held = operands y.output.toList := by
  rw [held, Token.operands_append, Token.operands_map_operator, List.append_nil]

theorem operands_emit (output : Array Token) (ops : List Operator) :
    operands (emit output ops).toList = operands output.toList := by
  rw [toList_emit, Token.operands_append, Token.operands_map_operator, List.append_nil]

/-- An operand is put behind the others at once; what a step releases are operators. -/
theorem operands_step {y z : Yard} {t : Token} (h : y.step t = .ok z) :
    operands z.held = operands y.held ++ operands [t] := by
  rw [operands_held, operands_held]
  cases t with
  | operand c =>
    cases h
    rw [Array.toList_push, Token.operands_append]
  | operator op =>
    cases h
    exact (operands_emit _ _).trans (List.append_nil _).symm
  | leftGroup =>
    cases h
    exact (List.append_nil _).symm
  | rightGroup =>
    simp only [step] at h
    split at h
    · cases h
    · cases h
      exact (operands_emit _ _).trans (List.append_nil _).symm

/-! ## A run -/

theorem run_ok {y z : Yard} {ts : List Token} (h : ts.foldlM step y = .ok z) :
    z.held.Perm (y.held ++ ungrouped ts) ∧
      z.outer.length + ts.count .rightGroup = y.outer.length + ts.count .leftGroup := by
  refine run_induction (motive := fun ts z => z.held.Perm (y.held ++ ungrouped ts) ∧
    z.outer.length + ts.count .rightGroup = y.outer.length + ts.count .leftGroup) ?_ ?_ h
  · simp [ungrouped]
  · intro xs t u v ih hstep
    obtain ⟨hperm, hcount⟩ := step_ok hstep
    refine ⟨?_, ?_⟩
    · unfold ungrouped
      rw [List.filter_append, ← List.append_assoc]
      exact hperm.trans (ih.1.append_right _)
    · rw [List.count_append, List.count_append]
      omega

theorem operands_held_of_run {y z : Yard} {ts : List Token} (h : ts.foldlM step y = .ok z) :
    operands z.held = operands y.held ++ operands ts := by
  refine run_induction (motive := fun ts z => operands z.held = operands y.held ++ operands ts)
    ?_ ?_ h
  · exact (List.append_nil _).symm
  · intro xs t u v ih hstep
    rw [operands_step hstep, ih, Token.operands_append, List.append_assoc]

/-- A run is refused at the first closing mark that exceeds the groups open before it. -/
theorem run_error {y : Yard} {ts : List Token} {e : Error} (h : ts.foldlM step y = .error e) :
    ∃ us vs z, ts = us ++ .rightGroup :: vs ∧ us.foldlM step y = .ok z ∧ z.outer = [] ∧
      e = .unmatchedRight z.held.length := by
  obtain ⟨us, t, vs, z, rfl, hz, ht⟩ := run_refused h
  obtain ⟨rfl, hout, rfl⟩ := step_error ht
  exact ⟨us, vs, z, rfl, hz, hout, rfl⟩

/-- From the empty yard, the overclosed lists are refused and no others. -/
theorem run_ok_iff (ts : List Token) :
    (∃ z, ts.foldlM step {} = .ok z) ↔ ¬ Overclosed .leftGroup .rightGroup ts := by
  constructor
  · rintro ⟨z, hz⟩ ⟨q, ⟨rest, rfl⟩, hlt⟩
    obtain ⟨y, hy, -⟩ := run_prefix hz
    have hcount : y.outer.length + _ = 0 + _ := (run_ok hy).2
    omega
  · intro hn
    cases hts : ts.foldlM step {} with
    | ok z => exact ⟨z, rfl⟩
    | error e =>
      obtain ⟨us, vs, z, rfl, hz, hout, -⟩ := run_error hts
      refine absurd ⟨us ++ [.rightGroup], ⟨vs, by simp⟩, ?_⟩ hn
      have hcount : z.outer.length + _ = 0 + _ := (run_ok hz).2
      rw [hout, List.length_nil] at hcount
      simp [List.count_append]
      omega

end Yard

/-! ## The whole conversion -/

/-- Where no group is open, all that is held comes out. -/
theorem Yard.finish_eq_ok_iff {y : Yard} {p : Postfix} :
    y.finish = .ok p ↔ y.outer = [] ∧ p = ⟨y.held⟩ := by
  unfold finish
  split
  · rename_i hout
    rw [toList_emit, held, waiting, hout, List.flatten_nil, List.append_nil, Except.ok.injEq]
    simp [eq_comm]
  · rename_i hout
    simp [hout]

namespace Postfix

theorem ofTokens_of_run {ts : List Token} {z : Yard} (h : ts.foldlM Yard.step {} = .ok z) :
    ofTokens ts = z.finish := by
  unfold ofTokens
  rw [h, ok_bind]

/-- What comes out was held when all tokens were taken in. -/
theorem exists_run_of_ofTokens {ts : List Token} {p : Postfix} (h : ofTokens ts = .ok p) :
    ∃ z, ts.foldlM Yard.step {} = .ok z ∧ z.outer = [] ∧ p = ⟨z.held⟩ := by
  cases hts : ts.foldlM Yard.step {} with
  | ok z =>
    rw [ofTokens_of_run hts] at h
    exact ⟨z, rfl, Yard.finish_eq_ok_iff.mp h⟩
  | error e =>
    rw [ofTokens, hts, error_bind] at h
    cases h

/-- Overclosed tokens are refused at the mark that makes them so. -/
theorem ofTokens_of_overclosed {ts : List Token} (h : Overclosed .leftGroup .rightGroup ts) :
    ∃ n, ofTokens ts = .error (.unmatchedRight n) := by
  cases hts : ts.foldlM Yard.step {} with
  | ok z => exact absurd h ((Yard.run_ok_iff ts).mp ⟨z, hts⟩)
  | error e =>
    obtain ⟨-, -, z, -, -, -, rfl⟩ := Yard.run_error hts
    exact ⟨z.held.length, by rw [ofTokens, hts, error_bind]⟩

/-- Groups left open are refused in the end, and counted. -/
theorem ofTokens_of_open {ts : List Token} (hn : ¬ Overclosed .leftGroup .rightGroup ts)
    (hlt : ts.count .rightGroup < ts.count .leftGroup) :
    ofTokens ts = .error (.unmatchedLeft (ts.count .leftGroup - ts.count .rightGroup)) := by
  obtain ⟨z, hz⟩ := (Yard.run_ok_iff ts).mpr hn
  have hcount : z.outer.length + _ = 0 + _ := (Yard.run_ok hz).2
  rw [ofTokens_of_run hz, Yard.finish]
  split
  · rename_i hout
    rw [hout, List.length_nil] at hcount
    omega
  · congr 2
    omega

/-- Where the groups match, all tokens but the marks come out, in some order. -/
theorem ofTokens_of_closed {ts : List Token} (hn : ¬ Overclosed .leftGroup .rightGroup ts)
    (hle : ts.count .leftGroup ≤ ts.count .rightGroup) :
    ∃ out, ofTokens ts = .ok ⟨out⟩ ∧ out.Perm (Token.ungrouped ts) := by
  obtain ⟨z, hz⟩ := (Yard.run_ok_iff ts).mpr hn
  obtain ⟨hperm, hcount⟩ := Yard.run_ok hz
  have hout : z.outer = [] := by
    apply List.eq_nil_of_length_eq_zero
    change z.outer.length + _ = 0 + _ at hcount
    omega
  refine ⟨z.held, ?_, hperm⟩
  rw [ofTokens_of_run hz]
  exact Yard.finish_eq_ok_iff.mpr ⟨hout, rfl⟩

/-! ## Which tokens are refused -/

open Token (ungrouped operands)

/-- Behind the first tokens stands the first closing mark that exceeds the groups open before it. -/
def FirstExcess (before ts : List Token) : Prop :=
  before ++ [.rightGroup] <+: ts ∧ ¬ Overclosed .leftGroup .rightGroup before ∧
    Overclosed .leftGroup .rightGroup (before ++ [.rightGroup])

theorem exists_firstExcess {ts : List Token} (h : Overclosed .leftGroup .rightGroup ts) :
    ∃ before, FirstExcess before ts := by
  cases hts : ts.foldlM Yard.step {} with
  | ok z => exact absurd h ((Yard.run_ok_iff ts).mp ⟨z, hts⟩)
  | error e =>
    obtain ⟨us, vs, z, rfl, hz, hout, -⟩ := Yard.run_error hts
    have hcount : z.outer.length + _ = 0 + _ := (Yard.run_ok hz).2
    rw [hout, List.length_nil] at hcount
    refine ⟨us, ⟨vs, by simp⟩, (Yard.run_ok_iff us).mp ⟨z, hz⟩, us ++ [.rightGroup],
      List.prefix_rfl, ?_⟩
    simp [List.count_append]
    omega

/-- The refusal counts what stands before that mark and is no group mark. -/
theorem ofTokens_of_firstExcess {before ts : List Token} (h : FirstExcess before ts) :
    ofTokens ts = .error (.unmatchedRight (ungrouped before).length) := by
  obtain ⟨⟨rest, rfl⟩, hopen, hover⟩ := h
  obtain ⟨z, hz⟩ := (Yard.run_ok_iff before).mpr hopen
  have hrun : (before ++ [Token.rightGroup]).foldlM Yard.step {} = z.step .rightGroup := by
    rw [run_append_of_ok hz, run_singleton]
  cases hstep : z.step .rightGroup with
  | ok y => exact absurd hover ((Yard.run_ok_iff _).mp ⟨y, hrun.trans hstep⟩)
  | error e =>
    obtain ⟨-, -, rfl⟩ := Yard.step_error hstep
    have hlength : z.held.length = (ungrouped before).length := (Yard.run_ok hz).1.length_eq
    rw [ofTokens, run_append_of_error (hrun.trans hstep), error_bind, hlength]

/-- The tokens are refused, for a cause of the kind. -/
def Refused (ts : List Token) (k : ErrorKind) : Prop := ∃ e, ofTokens ts = .error e ∧ e.kind = k

/-- All tokens come out but the group marks, and operands in the order in which they stood. -/
theorem perm_of_ofTokens {ts : List Token} {p : Postfix} (h : ofTokens ts = .ok p) :
    p.tokens.Perm (ungrouped ts) ∧ operands p.tokens = operands ts := by
  obtain ⟨z, hz, -, rfl⟩ := exists_run_of_ofTokens h
  exact ⟨(Yard.run_ok hz).1, Yard.operands_held_of_run hz⟩

theorem isGroup_of_ofTokens {ts : List Token} {p : Postfix} (h : ofTokens ts = .ok p) :
    ∀ t ∈ p.tokens, t.isGroup = false := by
  intro t ht
  have hkept := List.of_mem_filter ((perm_of_ofTokens h).1.mem_iff.mp ht)
  simpa using hkept

end Postfix

/-- Exactly which tokens convert, and for which cause, count and wording all others are refused. Tokens
that are closed too often are refused at the first mark that is too much, with the number of tokens
before it that are no group marks; of the rest, those with groups left open are refused with their number;
all others convert, and lose nothing but the marks. -/
theorem ofTokens_verdict (ts : List Token) :
    (Postfix.Refused ts .unmatchedRightGroup ↔ Overclosed .leftGroup .rightGroup ts) ∧
    (Overclosed .leftGroup .rightGroup ts → ∃ before, Postfix.FirstExcess before ts) ∧
    (∀ before, Postfix.FirstExcess before ts →
      ∃ e, Postfix.ofTokens ts = .error e ∧ e = .unmatchedRight (Token.ungrouped before).length ∧
        e.message = "Unmatched ')' after " ++ toString (Token.ungrouped before).length ++
          " tokens") ∧
    (Postfix.Refused ts .unmatchedLeftGroup ↔
      ¬ Overclosed .leftGroup .rightGroup ts ∧ ts.count .rightGroup < ts.count .leftGroup) ∧
    (∀ e, Postfix.ofTokens ts = .error e → e.kind = .unmatchedLeftGroup →
      e = .unmatchedLeft (ts.count .leftGroup - ts.count .rightGroup) ∧
      e.message = "Unmatched '(': " ++ toString (ts.count .leftGroup - ts.count .rightGroup) ++
        " group(s) left open") ∧
    ((∃ p, Postfix.ofTokens ts = .ok p) ↔
      ¬ Overclosed .leftGroup .rightGroup ts ∧ ts.count .leftGroup ≤ ts.count .rightGroup) ∧
    ∀ p, Postfix.ofTokens ts = .ok p →
      p.tokens.Perm (Token.ungrouped ts) ∧ (∀ t ∈ p.tokens, t.isGroup = false) ∧
        Token.operands p.tokens = Token.operands ts := by
  have hexcess : Overclosed .leftGroup .rightGroup ts → ∃ before, Postfix.FirstExcess before ts :=
    Postfix.exists_firstExcess
  have hrefusal : ∀ before, Postfix.FirstExcess before ts →
      ∃ e, Postfix.ofTokens ts = .error e ∧ e = .unmatchedRight (Token.ungrouped before).length ∧
        e.message = "Unmatched ')' after " ++ toString (Token.ungrouped before).length ++
          " tokens" := fun _ hfirst => ⟨_, Postfix.ofTokens_of_firstExcess hfirst, rfl, rfl⟩
  have hout : ∀ p, Postfix.ofTokens ts = .ok p →
      p.tokens.Perm (Token.ungrouped ts) ∧ (∀ t ∈ p.tokens, t.isGroup = false) ∧
        Token.operands p.tokens = Token.operands ts := fun p h =>
    ⟨(Postfix.perm_of_ofTokens h).1, Postfix.isGroup_of_ofTokens h, (Postfix.perm_of_ofTokens h).2⟩
  by_cases ho : Overclosed .leftGroup .rightGroup ts
  · obtain ⟨n, hp⟩ := Postfix.ofTokens_of_overclosed ho
    refine ⟨?_, hexcess, hrefusal, ?_, ?_, ?_, hout⟩
    all_goals simp [Postfix.Refused, hp, ho, Error.kind]
  by_cases hlt : ts.count .rightGroup < ts.count .leftGroup
  · have hp := Postfix.ofTokens_of_open ho hlt
    have hle : ¬ ts.count .leftGroup ≤ ts.count .rightGroup := Nat.not_le.mpr hlt
    refine ⟨?_, hexcess, hrefusal, ?_, ?_, ?_, hout⟩
    all_goals simp [Postfix.Refused, hp, ho, hlt, hle, Error.kind, Error.message_unmatchedLeft]
  · have hle : ts.count .leftGroup ≤ ts.count .rightGroup := Nat.not_lt.mp hlt
    obtain ⟨out, hp, -⟩ := Postfix.ofTokens_of_closed ho hle
    refine ⟨?_, hexcess, hrefusal, ?_, ?_, ?_, hout⟩
    all_goals simp [Postfix.Refused, hp, ho, hlt, hle]

/-- No pattern reads as these tokens: an alternation stands first in its group, and operands stand side
by side. The second closing mark is too much. -/
theorem ofTokens_verdict_closed_twice :
    Postfix.FirstExcess [.operand 'a', .leftGroup, .operator .alternation, .operand 'b', .rightGroup]
      [.operand 'a', .leftGroup, .operator .alternation, .operand 'b', .rightGroup, .rightGroup,
        .operand 'c'] ∧
    ∃ e, Postfix.ofTokens [.operand 'a', .leftGroup, .operator .alternation, .operand 'b', .rightGroup,
      .rightGroup, .operand 'c'] = .error e ∧ e = .unmatchedRight 3 ∧
      e.message = "Unmatched ')' after 3 tokens" := by
  have hexcess : Postfix.FirstExcess
      [.operand 'a', .leftGroup, .operator .alternation, .operand 'b', .rightGroup]
      [.operand 'a', .leftGroup, .operator .alternation, .operand 'b', .rightGroup, .rightGroup,
        .operand 'c'] :=
    ⟨⟨[.operand 'c'], rfl⟩, (Yard.run_ok_iff _).mp ⟨_, rfl⟩, _, List.prefix_rfl, by decide⟩
  exact ⟨hexcess, (ofTokens_verdict _).2.2.1 _ hexcess⟩

end PatternAutomata
