/-
  Patterns whose groups match, grammatical or not. `Nested` builds them from the
  left, one character or one group at a time, and every pattern that is neither
  overclosed nor left open is so built (`nested_of_not_overclosed`).

  The count that tells the grammatical ones apart is `credit`: the values that
  the tokens add to the stack, and one more where an atom is still expected. It
  starts at one, an atom leaves it as it is, and only what the grammar forbids
  lowers it: an operator where an atom is expected, or a group that is worth
  less than one value. Nothing raises it. So a pattern that adds up to one value
  derives from the grammar (`Sound.derives`), and none adds up to more.
-/
import PatternAutomata.Expr.Grammar
import PatternAutomata.Proofs.Evaluation
import PatternAutomata.Proofs.Tokens

namespace PatternAutomata

open Grammar (Derives)
open Token (ofChars opensAtom closesAtom seam gains)

/-- The groups of the pattern match. -/
inductive Nested : List Char → Prop where
  | nil : Nested []
  | snoc {p : List Char} {c : Char} : Nested p → c ≠ '(' → c ≠ ')' → Nested (p ++ [c])
  | group {p q : List Char} : Nested p → Nested q → Nested (p ++ ('(' :: q ++ [')']))

/-- So many groups are open at the end, and all others match. -/
inductive Nesting : Nat → List Char → Prop where
  | closed {p : List Char} : Nested p → Nesting 0 p
  | opened {k : Nat} {p q : List Char} : Nesting k p → Nested q → Nesting (k + 1) (p ++ '(' :: q)

/-- What can follow in the innermost group can follow. -/
theorem Nesting.append {k : Nat} {p r : List Char} (h : Nesting k p)
    (hr : ∀ q, Nested q → Nested (q ++ r)) : Nesting k (p ++ r) := by
  cases h with
  | closed hp => exact .closed (hr _ hp)
  | opened hp hq =>
    rw [List.append_assoc, List.cons_append]
    exact .opened hp (hr _ hq)

theorem Nesting.close {k : Nat} {p : List Char} (h : Nesting (k + 1) p) :
    Nesting k (p ++ [')']) := by
  cases h with
  | opened hp hq =>
    rw [List.append_assoc, List.cons_append]
    exact hp.append fun q hq' => .group hq' hq

theorem nesting_of_not_overclosed {p : List Char} (h : ¬ Overclosed '(' ')' p) :
    ∃ k, Nesting k p ∧ p.count '(' = p.count ')' + k := by
  induction p using List.reverseRecOn with
  | nil => exact ⟨0, .closed .nil, rfl⟩
  | append_singleton p c ih =>
    obtain ⟨k, hk, hcount⟩ := ih fun ⟨q, hq, hlt⟩ => h ⟨q, hq.trans (List.prefix_append p [c]), hlt⟩
    by_cases hl : c = '('
    · subst hl
      refine ⟨k + 1, .opened hk .nil, ?_⟩
      simp [List.count_append]
      omega
    by_cases hr : c = ')'
    · subst hr
      cases k with
      | zero =>
        refine absurd ⟨p ++ [')'], List.prefix_rfl, ?_⟩ h
        simp [List.count_append]
        omega
      | succ k =>
        refine ⟨k, hk.close, ?_⟩
        simp [List.count_append]
        omega
    · refine ⟨k, hk.append fun q hq => .snoc hq hl hr, ?_⟩
      rw [List.count_append, List.count_append, List.count_singleton, List.count_singleton]
      simp [hl, hr, hcount]

theorem nested_of_not_overclosed {p : List Char} (h : ¬ Overclosed '(' ')' p)
    (hle : p.count '(' ≤ p.count ')') : Nested p := by
  obtain ⟨k, hk, hcount⟩ := nesting_of_not_overclosed h
  obtain rfl : k = 0 := by omega
  cases hk with
  | closed hp => exact hp

/-! ## Extending a derivation at its right end -/

namespace Grammar

theorem derives_append_atom {p a : List Char} {e f : Expr} (h : Derives .expr p e)
    (ha : Derives .atom a f) : ∃ g, Derives .expr (p ++ a) g := by
  cases h with
  | alternate hp hq =>
    rw [List.append_assoc, List.cons_append]
    exact ⟨_, .alternate hp (.concat hq (.ofAtom ha))⟩
  | ofTerm hp => exact ⟨_, .ofTerm (.concat hp (.ofAtom ha))⟩

theorem derives_term_append_star {p : List Char} {e : Expr} (h : Derives .term p e) :
    ∃ g, Derives .term (p ++ ['*']) g := by
  cases h with
  | concat hp hq =>
    rw [List.append_assoc]
    exact ⟨_, .concat hp (.closure hq)⟩
  | ofFactor hp => exact ⟨_, .ofFactor (.closure hp)⟩

theorem derives_append_star {p : List Char} {e : Expr} (h : Derives .expr p e) :
    ∃ g, Derives .expr (p ++ ['*']) g := by
  cases h with
  | alternate hp hq =>
    obtain ⟨g, hg⟩ := derives_term_append_star hq
    rw [List.append_assoc, List.cons_append]
    exact ⟨_, .alternate hp hg⟩
  | ofTerm hp =>
    obtain ⟨g, hg⟩ := derives_term_append_star hp
    exact ⟨g, .ofTerm hg⟩

end Grammar

/-- The pattern can still become grammatical: it is, or it expects an atom at its end. -/
inductive Viable : List Char → Prop where
  | empty : Viable []
  | whole {p : List Char} {e : Expr} : Derives .expr p e → Viable p
  | choice {p : List Char} {e : Expr} : Derives .expr p e → Viable (p ++ ['|'])

theorem Viable.append_atom {p a : List Char} {f : Expr} (h : Viable p) (ha : Derives .atom a f) :
    Viable (p ++ a) := by
  cases h with
  | empty => exact .whole (.ofTerm (.ofFactor (.ofAtom ha)))
  | whole hp =>
    obtain ⟨g, hg⟩ := Grammar.derives_append_atom hp ha
    exact .whole hg
  | choice hp =>
    rw [List.append_assoc]
    exact .whole (.alternate hp (.ofFactor (.ofAtom ha)))

theorem Viable.derives {p : List Char} (h : Viable p) (hc : closesAtom p = true) :
    ∃ e, Derives .expr p e := by
  cases h with
  | empty => cases hc
  | whole hp => exact ⟨_, hp⟩
  | choice _ =>
    rw [Token.closesAtom_concat] at hc
    cases hc

/-! ## Credit -/

/-- The values a pattern adds to the stack, and one more where it expects an atom. -/
def credit (p : List Char) : Int := gains (ofChars p) + if closesAtom p then 0 else 1

theorem credit_of_closesAtom {p : List Char} (h : closesAtom p = true) :
    credit p = gains (ofChars p) := by
  simp [credit, h]

theorem credit_of_not_closesAtom {p : List Char} (h : closesAtom p = false) :
    credit p = gains (ofChars p) + 1 := by
  simp [credit, h]

theorem gains_append_ofChars (p q : List Char) :
    gains (ofChars (p ++ q)) = gains (ofChars p) + (gains (seam p q) + gains (ofChars q)) := by
  rw [Token.ofChars_append, Token.gains_append, Token.gains_append]

/-- An atom that is worth one value leaves the credit as it is; the concatenation in the seam pays
for it where no atom is expected. -/
theorem credit_append_atom (p : List Char) {a : List Char} (ho : opensAtom a = true)
    (hc : closesAtom a = true) : credit (p ++ a) = credit p + gains (ofChars a) - 1 := by
  rw [credit_of_closesAtom (Token.closesAtom_append p hc), gains_append_ofChars]
  cases hp : closesAtom p with
  | true =>
    have hseam : gains (seam p a) = -1 := by
      rw [Token.seam_of_both hp ho]
      rfl
    rw [credit_of_closesAtom hp, hseam]
    omega
  | false =>
    rw [credit_of_not_closesAtom hp, Token.seam_of_not_closesAtom hp, Token.gains_nil]
    omega

theorem credit_append_alternation (p : List Char) :
    credit (p ++ ['|']) = gains (ofChars p) := by
  have hg : gains (ofChars ['|']) = -1 := rfl
  rw [credit_of_not_closesAtom (Token.closesAtom_concat p '|'), gains_append_ofChars,
    Token.seam_of_not_opensAtom p rfl, Token.gains_nil, hg]
  omega

theorem credit_append_closure (p : List Char) : credit (p ++ ['*']) = gains (ofChars p) := by
  have hg : gains (ofChars ['*']) = 0 := rfl
  rw [credit_of_closesAtom (Token.closesAtom_concat p '*'), gains_append_ofChars,
    Token.seam_of_not_opensAtom p rfl, Token.gains_nil, hg]
  omega

theorem gains_ofChars_group (q : List Char) :
    gains (ofChars ('(' :: q ++ [')'])) = gains (ofChars q) := by
  rw [Token.ofChars_group, Token.gains_cons, Token.gains_append, Token.gains_singleton]
  simp [Token.gain]

/-- Credit never exceeds one, and at one the pattern is viable. -/
def Sound (p : List Char) : Prop := credit p ≤ 1 ∧ (credit p = 1 → Viable p)

/-- A value in full is a grammatical pattern. -/
theorem Sound.derives {p : List Char} (h : Sound p) (hg : gains (ofChars p) = 1) :
    ∃ e, Derives .expr p e := by
  obtain ⟨hle, hviable⟩ := h
  cases hc : closesAtom p with
  | true =>
    rw [credit_of_closesAtom hc] at hviable
    exact (hviable hg).derives hc
  | false =>
    rw [credit_of_not_closesAtom hc] at hle
    omega

theorem Sound.gains_le {p : List Char} (h : Sound p) : gains (ofChars p) ≤ 1 := by
  have hle := h.1
  unfold credit at hle
  split at hle
  · omega
  · omega

/-- An operator where no atom is expected keeps the credit; where one is, it takes the last. -/
theorem sound_append_operator {p : List Char} {c : Char} (h : Sound p)
    (hcredit : credit (p ++ [c]) = gains (ofChars p))
    (hext : ∀ e, Derives .expr p e → Viable (p ++ [c])) : Sound (p ++ [c]) := by
  refine ⟨hcredit ▸ h.gains_le, fun h1 => ?_⟩
  obtain ⟨e, he⟩ := h.derives (hcredit ▸ h1)
  exact hext e he

theorem sound_snoc {p : List Char} {c : Char} (h : Sound p) (hl : c ≠ '(') (hr : c ≠ ')') :
    Sound (p ++ [c]) := by
  by_cases ha : c = '|'
  · subst ha
    exact sound_append_operator h (credit_append_alternation p) fun e he => .choice he
  by_cases hs : c = '*'
  · subst hs
    refine sound_append_operator h (credit_append_closure p) fun e he => ?_
    obtain ⟨g, hg⟩ := Grammar.derives_append_star he
    exact .whole hg
  · have hres : ¬ Reserved c := by simp [Reserved, hl, hr, ha, hs]
    have hcredit : credit (p ++ [c]) = credit p := by
      rw [credit_append_atom p (Token.opensAtom_symbol hres) (Token.closesAtom_symbol hres),
        Token.ofChars_singleton, Token.ofChar_of_not_reserved hres, Token.gains_singleton]
      simp [Token.gain]
    unfold Sound
    rw [hcredit]
    exact ⟨h.1, fun h1 => (h.2 h1).append_atom (.symbol hres)⟩

theorem sound_group {p q : List Char} (hp : Sound p) (hq : Sound q) :
    Sound (p ++ ('(' :: q ++ [')'])) := by
  have hcredit := credit_append_atom p (a := '(' :: q ++ [')']) rfl (Token.closesAtom_concat _ ')')
  rw [gains_ofChars_group] at hcredit
  have hq1 := hq.gains_le
  have hp1 := hp.1
  refine ⟨by omega, fun h1 => ?_⟩
  obtain ⟨e, he⟩ := hq.derives (by omega)
  exact (hp.2 (by omega)).append_atom (.group he)

theorem sound_of_nested {p : List Char} (h : Nested p) : Sound p := by
  induction h with
  | nil => exact ⟨by decide, fun _ => .empty⟩
  | snoc _ hl hr ih => exact sound_snoc ih hl hr
  | group _ _ ihp ihq => exact sound_group ihp ihq

/-! ## Hollow patterns -/

/-- So many groups, one in the other, and nothing in the innermost. -/
def Hollow (p : List Char) : Prop :=
  ∃ n, p = List.replicate n '(' ++ List.replicate n ')'

theorem Hollow.enclose {p : List Char} (h : Hollow p) : Hollow ('(' :: p ++ [')']) := by
  obtain ⟨n, rfl⟩ := h
  refine ⟨n + 1, ?_⟩
  rw [List.replicate_succ, List.replicate_succ']
  simp

theorem Hollow.count_le {p : List Char} (h : Hollow p) : p.count '(' ≤ p.count ')' := by
  obtain ⟨n, rfl⟩ := h
  simp [List.count_append, List.count_replicate]

theorem Hollow.not_overclosed {p : List Char} (h : Hollow p) : ¬ Overclosed '(' ')' p := by
  obtain ⟨n, rfl⟩ := h
  intro ⟨q, hq, hlt⟩
  rcases List.prefix_or_prefix_of_prefix hq (List.prefix_append _ _) with hq' | ⟨r, rfl⟩
  · have hle := hq'.sublist.count_le ')'
    rw [List.count_replicate] at hle
    simp at hle
    omega
  · have hle := ((List.prefix_append_right_inj _).mp hq).sublist.count_le ')'
    rw [List.count_replicate_self] at hle
    simp [List.count_append, List.count_replicate] at hlt
    omega

/-- Where the groups match and there is nothing but group marks, the pattern is hollow: two groups
side by side would have a concatenation between them. -/
theorem hollow_of_nested {p : List Char} (h : Nested p)
    (hg : ∀ t ∈ ofChars p, t.isGroup = true) : Hollow p := by
  induction h with
  | nil => exact ⟨0, rfl⟩
  | @snoc p c _ hl hr _ =>
    have hc := hg (Token.ofChar c) (by simp [Token.ofChars_append, Token.ofChars_singleton])
    rw [Token.isGroup_ofChar_eq_false hl hr] at hc
    cases hc
  | @group p q _ _ ihp ihq =>
    rw [Token.ofChars_append, Token.ofChars_group] at hg
    have hp : Hollow p := ihp fun t ht => hg t (by simp [ht])
    have hq : Hollow q := ihq fun t ht => hg t (by simp [ht])
    obtain ⟨n, rfl⟩ := hp
    cases n with
    | zero => exact hq.enclose
    | succ n =>
      have hc : closesAtom (List.replicate (n + 1) '(' ++ List.replicate (n + 1) ')') = true := by
        refine Token.closesAtom_append _ ?_
        rw [List.replicate_succ']
        exact Token.closesAtom_concat _ ')'
      have ht := hg (.operator .concatenation) (by rw [Token.seam_of_both hc rfl]; simp)
      cases ht

theorem isGroup_of_hollow {p : List Char} (h : Hollow p) :
    ∀ t ∈ ofChars p, t.isGroup = true := by
  obtain ⟨n, rfl⟩ := h
  induction n with
  | zero => simp [Token.ofChars_nil]
  | succ n ih =>
    intro t ht
    have heq : List.replicate (n + 1) '(' ++ List.replicate (n + 1) ')' =
        '(' :: (List.replicate n '(' ++ List.replicate n ')') ++ [')'] := by
      rw [List.replicate_succ, List.replicate_succ']
      simp
    rw [heq, Token.ofChars_group] at ht
    simp only [List.mem_cons, List.mem_append, List.not_mem_nil, or_false] at ht
    rcases ht with rfl | ht | rfl
    · rfl
    · exact ih t ht
    · rfl

end PatternAutomata
