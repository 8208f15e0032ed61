/-
  Compiling patterns: which are refused, and for which cause. Five cases follow
  one another, and each holds only where the ones before do not: a group is
  closed too often, a group is left open, there is nothing but groups in groups,
  the pattern derives from the grammar, or some operator lacks an operand
  (`Regex.Case`). Nothing else happens: no ungrammatical pattern is taken for
  another, and no value is ever left over.
-/
import PatternAutomata.Regex
import PatternAutomata.Proofs.Nesting
import PatternAutomata.Proofs.Parsing

namespace PatternAutomata

open Grammar (Derives)
open Token (ofChars)

namespace Regex

theorem ofPattern_of_postfix_error {p : String} {e : Error}
    (h : Postfix.ofTokens (ofChars p.toList) = .error e) : ofPattern p = .error e := by
  unfold ofPattern Postfix.ofPattern
  rw [Token.tokenize_eq_ofChars, h, error_bind]

theorem ofPattern_of_postfix_ok {p : String} {post : Postfix}
    (h : Postfix.ofTokens (ofChars p.toList) = .ok post) :
    ofPattern p = (Nfa.ofPostfix post).map Regex.mk := by
  unfold ofPattern Postfix.ofPattern
  rw [Token.tokenize_eq_ofChars, h, ok_bind]
  cases Nfa.ofPostfix post with
  | ok n => rfl
  | error e => rfl

/-- Compiling is bringing into postfix order and evaluating. -/
theorem map_nfa_ofPattern (p : String) :
    (ofPattern p).map Regex.nfa = Postfix.ofPattern p >>= Nfa.ofPostfix := by
  unfold ofPattern
  cases Postfix.ofPattern p with
  | error e => rfl
  | ok post =>
    rw [ok_bind, ok_bind]
    cases Nfa.ofPostfix post with
    | error e => rfl
    | ok n => rfl

/-- What compiles is the fragment of the pattern's postfix order. -/
theorem exists_postfix_of_ok {p : String} {n : Nfa} (h : ofPattern p = .ok ⟨n⟩) :
    ∃ post, Postfix.ofTokens (ofChars p.toList) = .ok post ∧ Nfa.ofPostfix post = .ok n := by
  cases hpost : Postfix.ofTokens (ofChars p.toList) with
  | error e =>
    rw [ofPattern_of_postfix_error hpost] at h
    cases h
  | ok post =>
    refine ⟨post, rfl, ?_⟩
    rw [ofPattern_of_postfix_ok hpost] at h
    cases hn : Nfa.ofPostfix post with
    | error e =>
      rw [hn] at h
      cases h
    | ok n' =>
      rw [hn] at h
      cases h
      rfl

/-- A derived pattern compiles to the fragment of its tree. -/
theorem ofPattern_of_derives {p : String} {e : Expr} (h : Derives .expr p.toList e) :
    ofPattern p = .ok ⟨Nfa.ofExpr e⟩ := by
  rw [ofPattern_of_postfix_ok (Postfix.ofTokens_of_derives h), Nfa.ofPostfix,
    Postfix.evaluate_postorder]
  rfl

theorem ofPattern_of_overclosed {p : String} (h : Overclosed '(' ')' p.toList) :
    ∃ n, ofPattern p = .error (.unmatchedRight n) := by
  obtain ⟨n, hn⟩ := Postfix.ofTokens_of_overclosed ((Token.overclosed_ofChars p.toList).mpr h)
  exact ⟨n, ofPattern_of_postfix_error hn⟩

theorem ofPattern_of_open {p : String} (hn : ¬ Overclosed '(' ')' p.toList)
    (hlt : p.toList.count ')' < p.toList.count '(') :
    ofPattern p = .error (.unmatchedLeft (p.toList.count '(' - p.toList.count ')')) := by
  have hl := Token.count_leftGroup_ofChars p.toList
  have hr := Token.count_rightGroup_ofChars p.toList
  have hopen := Postfix.ofTokens_of_open (mt (Token.overclosed_ofChars p.toList).mp hn)
    (by rw [hl, hr]; exact hlt)
  rw [hl, hr] at hopen
  exact ofPattern_of_postfix_error hopen

/-- Where the groups match, evaluation decides, and it sees all tokens but the group marks. -/
theorem ofPattern_of_closed {p : String} (hn : ¬ Overclosed '(' ')' p.toList)
    (hle : p.toList.count '(' ≤ p.toList.count ')') :
    ∃ out, out.Perm (Token.ungrouped (ofChars p.toList)) ∧
      ofPattern p = (Nfa.ofPostfix ⟨out⟩).map Regex.mk := by
  have hl := Token.count_leftGroup_ofChars p.toList
  have hr := Token.count_rightGroup_ofChars p.toList
  obtain ⟨out, hout, hperm⟩ := Postfix.ofTokens_of_closed
    (mt (Token.overclosed_ofChars p.toList).mp hn) (by rw [hl, hr]; exact hle)
  exact ⟨out, hperm, ofPattern_of_postfix_ok hout⟩

theorem ofPattern_of_hollow {p : String} (h : Hollow p.toList) :
    ofPattern p = .error .nothingToBuild := by
  obtain ⟨out, hperm, hp⟩ := ofPattern_of_closed h.not_overclosed h.count_le
  have hout : out = [] := by
    rw [← List.perm_nil]
    refine hperm.trans (List.Perm.of_eq ?_)
    unfold Token.ungrouped
    rw [List.filter_eq_nil_iff]
    intro t ht
    simp [isGroup_of_hollow h t ht]
  rw [hp, hout]
  rfl

/-- Where the groups match and enclose something, and the grammar does not derive the pattern,
some operator lacks an operand. -/
theorem ofPattern_of_ungrammatical {p : String} (hn : ¬ Overclosed '(' ')' p.toList)
    (hle : p.toList.count '(' ≤ p.toList.count ')') (hh : ¬ Hollow p.toList)
    (hd : ∀ e, ¬ Derives .expr p.toList e) :
    ∃ op depth, ofPattern p = .error (.missingOperand op depth) := by
  have hnested := nested_of_not_overclosed hn hle
  have hsound := sound_of_nested hnested
  obtain ⟨out, hperm, hp⟩ := ofPattern_of_closed hn hle
  have hgains : Token.gains out = Token.gains (ofChars p.toList) := by
    rw [Token.gains_perm hperm]
    exact Token.gains_filter_isGroup _
  have hgroup : ∀ t ∈ out, t.isGroup = false := by
    intro t ht
    have := List.of_mem_filter (hperm.mem_iff.mp ht)
    simpa using this
  cases hv : Nfa.ofPostfix ⟨out⟩ with
  | ok n =>
    have h1 : Token.gains out = 1 := Postfix.gains_of_evaluate Nfa.fragments hv
    obtain ⟨e, he⟩ := hsound.derives (hgains ▸ h1)
    exact absurd he (hd e)
  | error e =>
    have hle1 : Token.gains out ≤ 1 := hgains ▸ hsound.gains_le
    rcases Postfix.evaluate_error Nfa.fragments hgroup hle1 hv with
      ⟨hnil, -⟩ | ⟨op, depth, rfl⟩
    · refine absurd (hollow_of_nested hnested ?_) hh
      intro t ht
      change out = [] at hnil
      rw [hnil] at hperm
      have hnone := List.filter_eq_nil_iff.mp (List.nil_perm.mp hperm) t ht
      simpa using hnone
    · rw [hv] at hp
      exact ⟨op, depth, hp⟩

/-- The five cases in which a pattern can be, each with its outcome. -/
inductive Case (p : String) : Except Error Regex → Prop where
  | overclosed {n : Nat} : Overclosed '(' ')' p.toList → Case p (.error (.unmatchedRight n))
  | opened : ¬ Overclosed '(' ')' p.toList → p.toList.count ')' < p.toList.count '(' →
    Case p (.error (.unmatchedLeft (p.toList.count '(' - p.toList.count ')')))
  | hollow : Hollow p.toList → Case p (.error .nothingToBuild)
  | derived {e : Expr} : ¬ Overclosed '(' ')' p.toList →
    p.toList.count '(' ≤ p.toList.count ')' → ¬ Hollow p.toList → Derives .expr p.toList e →
      Case p (.ok ⟨Nfa.ofExpr e⟩)
  | ungrammatical {op : Operator} {depth : Nat} : ¬ Overclosed '(' ')' p.toList →
    p.toList.count '(' ≤ p.toList.count ')' → ¬ Hollow p.toList →
      (∀ e, ¬ Derives .expr p.toList e) → Case p (.error (.missingOperand op depth))

/-- Every pattern is in one of them, and has its outcome. -/
theorem case_ofPattern (p : String) : Case p (ofPattern p) := by
  by_cases ho : Overclosed '(' ')' p.toList
  · obtain ⟨n, hp⟩ := ofPattern_of_overclosed ho
    rw [hp]
    exact .overclosed ho
  by_cases hlt : p.toList.count ')' < p.toList.count '('
  · rw [ofPattern_of_open ho hlt]
    exact .opened ho hlt
  have hle : p.toList.count '(' ≤ p.toList.count ')' := Nat.not_lt.mp hlt
  by_cases hh : Hollow p.toList
  · rw [ofPattern_of_hollow hh]
    exact .hollow hh
  by_cases hd : ∃ e, Derives .expr p.toList e
  · obtain ⟨e, he⟩ := hd
    rw [ofPattern_of_derives he]
    exact .derived ho hle hh he
  · have hd' : ∀ e, ¬ Derives .expr p.toList e := fun e he => hd ⟨e, he⟩
    obtain ⟨op, depth, hp⟩ := ofPattern_of_ungrammatical ho hle hh hd'
    rw [hp]
    exact .ungrammatical ho hle hh hd'

/-- What compiles is derived, and gives the fragment of its tree. -/
theorem exists_derives_of_ok {p : String} {r : Regex} (h : ofPattern p = .ok r) :
    ∃ e, Derives .expr p.toList e ∧ r = ⟨Nfa.ofExpr e⟩ := by
  have hcase := case_ofPattern p
  rw [h] at hcase
  cases hcase with
  | derived _ _ _ he => exact ⟨_, he, rfl⟩

/-- The misplaced closure repeats the symbol before it; it is the alternation that comes up short. -/
example : Regex.ofPattern "a|*b" = .error (.missingOperand .alternation 1) := by decide

/-- The pattern is refused, for a cause of the kind. -/
def Refused (p : String) (k : ErrorKind) : Prop := ∃ e, ofPattern p = .error e ∧ e.kind = k

theorem refused_iff_of_error {p : String} {e : Error} (h : ofPattern p = .error e)
    (k : ErrorKind) : Refused p k ↔ e.kind = k := by
  simp [Refused, h]

theorem not_refused_of_ok {p : String} {r : Regex} (h : ofPattern p = .ok r) (k : ErrorKind) :
    ¬ Refused p k := by
  simp [Refused, h]

theorem not_derives_of_error {p : String} {e : Error} (h : ofPattern p = .error e) (t : Expr) :
    ¬ Derives .expr p.toList t := by
  intro ht
  rw [ofPattern_of_derives ht] at h
  cases h

end Regex

/-- Exactly which patterns compile, and of which kind the cause is for all others. Patterns that
are closed too often are refused first, then those with groups left open, which the cause and its wording
count; of the rest, those of groups in groups have nothing to build, and all others that the grammar does
not derive have an operator that lacks an operand. -/
theorem ofPattern_verdict (p : String) :
    (Regex.Refused p .unmatchedRightGroup ↔ Overclosed '(' ')' p.toList) ∧
    (Regex.Refused p .unmatchedLeftGroup ↔
      ¬ Overclosed '(' ')' p.toList ∧ p.toList.count ')' < p.toList.count '(') ∧
    (∀ e, Regex.ofPattern p = .error e → e.kind = .unmatchedLeftGroup →
      e = .unmatchedLeft (p.toList.count '(' - p.toList.count ')') ∧
      e.message = "Unmatched '(': " ++ toString (p.toList.count '(' - p.toList.count ')') ++
        " group(s) left open") ∧
    (Regex.Refused p .unbalancedExpression ↔ Hollow p.toList) ∧
    (∀ e, Regex.ofPattern p = .error e → e.kind = .unbalancedExpression →
      e = .nothingToBuild ∧ e.message = "Unbalanced expression: nothing to build") ∧
    ((∃ r, Regex.ofPattern p = .ok r) ↔ ∃ e, Derives .expr p.toList e) ∧
    (Regex.Refused p .missingOperand ↔
      ¬ Overclosed '(' ')' p.toList ∧ p.toList.count '(' ≤ p.toList.count ')' ∧
        ¬ Hollow p.toList ∧ ∀ e, ¬ Derives .expr p.toList e) ∧
    ¬ Regex.Refused p .unsupported := by
  have hcase := Regex.case_ofPattern p
  generalize hp : Regex.ofPattern p = outcome at hcase ⊢
  cases hcase with
  | overclosed ho =>
    have hh : ¬ Hollow p.toList := fun h => h.not_overclosed ho
    have hd := Regex.not_derives_of_error hp
    simp [Regex.refused_iff_of_error hp, ho, hh, hd, Error.kind]
  | opened ho hlt =>
    have hh : ¬ Hollow p.toList := fun h => absurd hlt (Nat.not_lt.mpr h.count_le)
    have hd := Regex.not_derives_of_error hp
    have hle : ¬ p.toList.count '(' ≤ p.toList.count ')' := Nat.not_le.mpr hlt
    simp [Regex.refused_iff_of_error hp, ho, hlt, hle, hh, hd, Error.kind,
      Error.message_unmatchedLeft]
  | hollow hh =>
    have ho := hh.not_overclosed
    have hlt : ¬ p.toList.count ')' < p.toList.count '(' := Nat.not_lt.mpr hh.count_le
    have hd := Regex.not_derives_of_error hp
    simp [Regex.refused_iff_of_error hp, ho, hlt, hh, hd, Error.kind, Error.message_nothingToBuild]
  | @derived e ho hle hh he =>
    have hlt : ¬ p.toList.count ')' < p.toList.count '(' := Nat.not_lt.mpr hle
    have hd : ∃ e, Derives .expr p.toList e := ⟨e, he⟩
    simp [Regex.not_refused_of_ok hp, ho, hlt, hh, hd]
  | ungrammatical ho hle hh hd =>
    have hlt : ¬ p.toList.count ')' < p.toList.count '(' := Nat.not_lt.mpr hle
    simp [Regex.refused_iff_of_error hp, ho, hlt, hle, hh, hd, Error.kind]

end PatternAutomata
