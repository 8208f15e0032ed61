/-
  What compiled patterns match. A pattern that the grammar derives compiles to the
  fragment of its tree, and running that fragment decides the language of the
  tree.
-/
import PatternAutomata.Proofs.Compilation
import PatternAutomata.Proofs.Reading

namespace PatternAutomata

open Grammar (Derives)

/-- A pattern with the tree `e` compiles, and what comes out matches the texts of the language of
`e`, and no others. -/
theorem isMatch_iff_matches (p : String) (e : Expr) (h : Derives .expr p.toList e) :
    ∃ r, Regex.ofPattern p = .ok r ∧ ∀ t : String, r.isMatch t = true ↔ e.Matches t.toList := by
  refine ⟨⟨Nfa.ofExpr e⟩, Regex.ofPattern_of_derives h, ?_⟩
  intro t
  unfold Regex.isMatch
  exact Nfa.accepts_ofExpr e t.toList

theorem isMatch_iff_matches_group_repeated :
    Derives .expr "(a|b)*".toList (.closure (.alternate (.symbol 'a') (.symbol 'b'))) ∧
      ∃ r, Regex.ofPattern "(a|b)*" = .ok r ∧
        ∀ t : String, r.isMatch t = true ↔
          (Expr.closure (.alternate (.symbol 'a') (.symbol 'b'))).Matches t.toList := by
  have ha : Derives .term ['a'] (.symbol 'a') := .ofFactor (.ofAtom (.symbol (by decide)))
  have hb : Derives .term ['b'] (.symbol 'b') := .ofFactor (.ofAtom (.symbol (by decide)))
  have hgroup := Derives.group (.alternate (.ofTerm ha) hb)
  have hp := Derives.ofTerm (.ofFactor (.closure (.ofAtom hgroup)))
  exact ⟨hp, isMatch_iff_matches "(a|b)*" _ hp⟩

end PatternAutomata
