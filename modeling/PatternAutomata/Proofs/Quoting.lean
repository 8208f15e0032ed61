/-
  What is quoted stays in its place. No control character stands in quoted text, line ends least of
  all (`not_isControl_of_mem_quoteString`), and the text shows where it ends and what it quotes
  (`prefixFree_quoteString`). Both hold whichever characters print.
-/
import PatternAutomata.Text.Quoted
import PatternAutomata.Proofs.Codes

namespace PatternAutomata

namespace Quoted

/-! ## Escapes of two characters -/

/-- The two characters that quoted text stands between. -/
def IsDelimiter (c : Char) : Prop := c = '"' ∨ c = '\''

section Shorthand

variable {delimiter : Char} (hd : IsDelimiter delimiter)
include hd

/-- The letter behind the backslash is no control character, and never the one that opens a number. -/
theorem letter_of_shorthand? {c letter : Char} (h : shorthand? delimiter c = some letter) :
    isControl letter = false ∧ letter ≠ 'u' := by
  unfold shorthand? at h
  rcases hd with rfl | rfl
  all_goals
    split_ifs at h with hc
    · rcases hc with rfl | rfl <;> cases h <;> decide
    · split at h <;> cases h <;> decide

theorem shorthand?_inj {c c' letter : Char} (h : shorthand? delimiter c = some letter)
    (h' : shorthand? delimiter c' = some letter) : c = c' := by
  unfold shorthand? at h h'
  rcases hd with rfl | rfl
  all_goals
    split_ifs at h h' with hc hc' hc'
    · rw [Option.some.inj h, Option.some.inj h']
    · rcases hc with rfl | rfl <;> cases h <;> split at h' <;> cases h'
    · rcases hc' with rfl | rfl <;> cases h' <;> split at h <;> cases h
    · split at h <;> split at h' <;> cases h <;> cases h' <;> rfl

end Shorthand

theorem ne_of_shorthand?_eq_none {delimiter c : Char} (h : shorthand? delimiter c = none) :
    c ≠ delimiter ∧ c ≠ '\\' := by
  unfold shorthand? at h
  split_ifs at h with hc
  exact not_or.mp hc

/-! ## Numbers -/

theorem digitChar_spec : ∀ d < 16, isControl (Nat.digitChar d) = false ∧ Nat.digitChar d ≠ '}' := by
  decide

theorem not_isControl_of_mem_byNumber {c x : Char} (h : x ∈ byNumber c) : isControl x = false := by
  simp only [byNumber, List.mem_append, List.mem_cons, List.not_mem_nil, or_false] at h
  rcases h with ((rfl | rfl | rfl) | h) | rfl
  · rfl
  · rfl
  · rfl
  · obtain ⟨d, hd, rfl⟩ := exists_of_mem_toDigits (by decide) h
    exact (digitChar_spec d hd).1
  · rfl

/-- The number ends at its brace. -/
theorem prefixFree_byNumber : PrefixFree byNumber := by
  intro c c' x y h
  have hdigits : ∀ n : Nat, ∀ z ∈ Nat.toDigits 16 n, (z != '}') = true := by
    intro n z hz
    obtain ⟨d, hd, rfl⟩ := exists_of_mem_toDigits (by decide) hz
    exact bne_iff_ne.mpr (digitChar_spec d hd).2
  simp only [byNumber, List.append_assoc, List.append_cancel_left_eq] at h
  obtain ⟨hnumber, hrest⟩ := append_inj_of_all (hdigits _) (hdigits _) (by simp) (by simp) h
  exact ⟨Char.toNat_inj.mp (hexNumeral_injective hnumber), (List.cons.inj hrest).2⟩

/-! ## Quoted text -/

section Quoted

variable [Printing] {delimiter : Char} (hd : IsDelimiter delimiter)
include hd

theorem not_isControl_of_mem_escape {c x : Char} (h : x ∈ escape delimiter c) :
    isControl x = false := by
  unfold escape at h
  split at h
  · rename_i letter hletter
    simp only [List.mem_cons, List.not_mem_nil, or_false] at h
    rcases h with rfl | rfl
    · rfl
    · exact (letter_of_shorthand? hd hletter).1
  · split_ifs at h with hprints
    · obtain rfl := List.mem_singleton.mp h
      by_contra hcontrol
      rw [Printing.not_prints_of_isControl x (by simpa using hcontrol)] at hprints
      cases hprints
    · exact not_isControl_of_mem_byNumber h

theorem escape_append_ne (c : Char) (x y : List Char) : escape delimiter c ++ x ≠ delimiter :: y := by
  have hne : '\\' ≠ delimiter := by rcases hd with rfl | rfl <;> decide
  unfold escape
  split
  · exact fun h => hne (List.cons.inj h).1
  · rename_i hnone
    split_ifs
    · exact fun h => (ne_of_shorthand?_eq_none hnone).1 (List.cons.inj h).1
    · exact fun h => hne (List.cons.inj h).1

/-- The first character tells escapes from characters that stand for themselves, and the second one
escapes of two characters from numbers. -/
theorem prefixFree_escape : PrefixFree (escape delimiter) := by
  intro c c' x y h
  unfold escape at h
  cases hc : shorthand? delimiter c with
  | some letter =>
    cases hc' : shorthand? delimiter c' with
    | some letter' =>
      simp only [hc, hc', List.cons_append, List.nil_append, List.cons.injEq, true_and] at h
      obtain ⟨rfl, hxy⟩ := h
      exact ⟨shorthand?_inj hd hc hc', hxy⟩
    | none =>
      simp only [hc, hc'] at h
      split_ifs at h
      · exact absurd (List.cons.inj h).1.symm (ne_of_shorthand?_eq_none hc').2
      · exact absurd (List.cons.inj (List.cons.inj h).2).1 (letter_of_shorthand? hd hc).2
  | none =>
    cases hc' : shorthand? delimiter c' with
    | some letter' =>
      simp only [hc, hc'] at h
      split_ifs at h
      · exact absurd (List.cons.inj h).1 (ne_of_shorthand?_eq_none hc).2
      · exact absurd (List.cons.inj (List.cons.inj h).2).1.symm (letter_of_shorthand? hd hc').2
    | none =>
      simp only [hc, hc'] at h
      split_ifs at h
      · exact List.cons.inj h
      · exact absurd (List.cons.inj h).1 (ne_of_shorthand?_eq_none hc).2
      · exact absurd (List.cons.inj h).1.symm (ne_of_shorthand?_eq_none hc').2
      · exact prefixFree_byNumber h

end Quoted

end Quoted

section Strings

variable [Printing]

theorem not_isControl_of_mem_quoteString {s : String} {x : Char} (h : x ∈ (quoteString s).toList) :
    isControl x = false := by
  have hquote : isControl '"' = false := by decide
  simp only [quoteString, Quoted.between, String.toList_ofList, List.cons_append, List.mem_cons,
    List.mem_append, List.mem_flatMap, List.not_mem_nil, or_false] at h
  rcases h with rfl | ⟨c, -, hx⟩ | rfl
  · exact hquote
  · exact Quoted.not_isControl_of_mem_escape (Or.inl rfl) hx
  · exact hquote

/-- A quoted string can be read off the front of a longer text. -/
theorem prefixFree_quoteString : PrefixFree fun s : String => (quoteString s).toList := by
  intro s t x y h
  simp only [quoteString, Quoted.between, String.toList_ofList, List.cons_append, List.append_assoc,
    List.cons.injEq, true_and, List.nil_append] at h
  obtain ⟨hst, hxy⟩ := (Quoted.prefixFree_escape (Or.inl rfl)).flatMap_append_inj
    (Quoted.escape_append_ne (Or.inl rfl)) h
  exact ⟨String.toList_inj.mp hst, hxy⟩

end Strings

/-- An accent that would join the quote before it, a space that is no blank, a letter and a control
character. -/
example : quoteString "\u0301\u00a0é\x1b" =
    "\"\\u\x7b301\x7d\\u\x7ba0\x7dé\\u\x7b1b\x7d\"" := by
  decide +kernel

end PatternAutomata
