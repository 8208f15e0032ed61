/-
  Alphabets list symbols by first appearance. Whatever is built on a diagram, its
  alphabet lists the symbols on its moves, in the order of the moves
  (`Diagram.Listed`). In the fragment of an expression the symbols on the moves are
  those of the postorder, in order (`symbols_ofExpr`), and the conversion to postfix
  order keeps the order in which a pattern has them. In the deterministic automaton
  of a fragment no symbol is missing, because every state of the fragment can be
  reached.
-/
import PatternAutomata.Proofs.Absorption
import PatternAutomata.Proofs.BreadthFirst
import PatternAutomata.Proofs.Decoding
import PatternAutomata.Proofs.Lexing
import PatternAutomata.Proofs.StateCount

namespace PatternAutomata

/-! ## First appearances -/

theorem foldl_insertSymbol_eq_eraseDups (symbols : List Char) :
    symbols.foldl insertSymbol [] = symbols.eraseDups := by
  induction symbols using List.reverseRecOn with
  | nil => rfl
  | append_singleton symbols c ih =>
    rw [List.foldl_append, ih, eraseDups_concat]
    simp [insertSymbol]

theorem Label.insertInto_eq_foldl (alphabet : List Char) (label : Label) :
    label.insertInto alphabet = label.spelling.foldl insertSymbol alphabet := by
  cases label with
  | epsilon => rfl
  | symbol c => rfl

namespace Diagram

/-- The symbols on the moves, in order of creation. -/
def symbols (d : Diagram) : List Char := d.moves.toList.flatMap fun m => m.label.spelling

/-- The alphabet lists the symbols on the moves, each where it first appears. -/
def Listed (d : Diagram) : Prop := d.alphabet = d.symbols.foldl insertSymbol []

section Building

variable (d e : Diagram) (s : State) (h source target : Nat) (label : Label)

@[simp] theorem symbols_addState : (d.addState s).symbols = d.symbols := rfl

@[simp] theorem symbols_unmarkStart : (d.unmarkStart h).symbols = d.symbols := rfl

@[simp] theorem symbols_unmarkAccept : (d.unmarkAccept h).symbols = d.symbols := rfl

@[simp] theorem symbols_addMove :
    (d.addMove source target label).symbols = d.symbols ++ label.spelling := by
  simp [symbols]

@[simp] theorem symbols_absorb : (d.absorb e).symbols = d.symbols ++ e.symbols := by
  simp [symbols, List.flatMap_map, Move.shift]

variable {d e}

theorem listed_empty : ({} : Diagram).Listed := rfl

theorem Listed.addState (hd : d.Listed) : (d.addState s).Listed := hd

theorem Listed.unmarkStart (hd : d.Listed) : (d.unmarkStart h).Listed := hd

theorem Listed.unmarkAccept (hd : d.Listed) : (d.unmarkAccept h).Listed := hd

theorem Listed.addMove (hd : d.Listed) : (d.addMove source target label).Listed := by
  unfold Listed
  rw [symbols_addMove, List.foldl_append, ← hd]
  exact label.insertInto_eq_foldl d.alphabet

/-- Of two alphabets the one in front keeps its order, and the other adds what is new. -/
theorem Listed.absorb (hd : d.Listed) (he : e.Listed) : (d.absorb e).Listed := by
  have halphabet : (d.absorb e).alphabet = e.alphabet.foldl insertSymbol d.alphabet := rfl
  unfold Listed
  rw [halphabet, he, foldl_insertSymbol_foldl, List.foldl_nil, hd, symbols_absorb,
    List.foldl_append]

theorem Listed.eq_eraseDups (hd : d.Listed) : d.alphabet = d.symbols.eraseDups :=
  hd.trans (foldl_insertSymbol_eq_eraseDups _)

end Building

end Diagram

/-! ## Fragments -/

namespace Nfa

variable {a b : Nfa}

theorem listed_symbol (c : Char) : (symbol c).Listed :=
  ((Diagram.listed_empty.addState _).addState _).addMove 0 1 (.symbol c)

theorem listed_alternate (ha : a.Listed) (hb : b.Listed) : (a.alternate b).Listed :=
  ((((((((((ha.absorb hb).unmarkStart _).unmarkAccept _).unmarkStart _).unmarkAccept
    _).addState _).addState _).addMove _ _ .epsilon).addMove _ _ .epsilon).addMove _ _
    .epsilon).addMove _ _ .epsilon

theorem listed_concat (ha : a.Listed) (hb : b.Listed) : (a.concat b).Listed :=
  (((ha.absorb hb).unmarkAccept _).unmarkStart _).addMove _ _ .epsilon

theorem listed_closure (ha : a.Listed) : a.closure.Listed :=
  (((((((ha.unmarkStart _).unmarkAccept _).addState _).addState _).addMove _ _ .epsilon).addMove
    _ _ .epsilon).addMove _ _ .epsilon).addMove _ _ .epsilon

theorem listed_ofExpr (e : Expr) : (ofExpr e).Listed := by
  induction e with
  | symbol c => exact listed_symbol c
  | alternate a b iha ihb => exact listed_alternate iha ihb
  | concat a b iha ihb => exact listed_concat iha ihb
  | closure a ih => exact listed_closure ih

theorem symbols_symbol (c : Char) : (symbol c).symbols = [c] := rfl

theorem symbols_alternate (a b : Nfa) : (a.alternate b).symbols = a.symbols ++ b.symbols := by
  simp [alternate, Label.spelling]

theorem symbols_concat (a b : Nfa) : (a.concat b).symbols = a.symbols ++ b.symbols := by
  simp [concat, Label.spelling]

theorem symbols_closure (a : Nfa) : a.closure.symbols = a.symbols := by
  simp [closure, Label.spelling]

/-- The moves on symbols come in the order of the operands. -/
theorem symbols_ofExpr (e : Expr) : (ofExpr e).symbols = Token.operands e.postorder := by
  induction e with
  | symbol c => exact symbols_symbol c
  | alternate a b iha ihb =>
    change ((ofExpr a).alternate (ofExpr b)).symbols = _
    rw [symbols_alternate, iha, ihb, Expr.postorder, Token.operands_append, Token.operands_append]
    exact (List.append_nil _).symm
  | concat a b iha ihb =>
    change ((ofExpr a).concat (ofExpr b)).symbols = _
    rw [symbols_concat, iha, ihb, Expr.postorder, Token.operands_append, Token.operands_append]
    exact (List.append_nil _).symm
  | closure a ih =>
    change (ofExpr a).closure.symbols = _
    rw [symbols_closure, ih, Expr.postorder, Token.operands_append]
    exact (List.append_nil _).symm

theorem alphabet_eq_operands {p : Postfix} {n : Nfa} (h : ofPostfix p = .ok n) :
    n.alphabet = (Token.operands p.tokens).eraseDups := by
  obtain ⟨e, he, rfl⟩ := ofPostfix_eq_ok_iff.mp h
  rw [(listed_ofExpr e).eq_eraseDups, symbols_ofExpr, he]

end Nfa

/-! ## Patterns -/

namespace Token

/-- A concatenation is no operand. -/
theorem operands_written (ts : List Token) : operands (written ts) = operands ts := by
  unfold operands written
  rw [List.filterMap_filter]
  refine List.filterMap_congr fun t _ => ?_
  cases t with
  | operator op => simp
  | _ => rfl

theorem operands_ofChars (p : List Char) : operands (ofChars p) = p.filter (¬ Reserved ·) := by
  rw [← operands_written, written_ofChars, operands, List.filterMap_map,
    ← List.filterMap_eq_filter]
  refine List.filterMap_congr fun c _ => ?_
  by_cases hc : Reserved c
  · have hchar := hc
    rcases hchar with rfl | rfl | rfl | rfl
    all_goals rfl
  · simp [ofChar_of_not_reserved hc, hc, Option.guard]

end Token

/-- In a compiled pattern, the operands are the characters that stand for themselves. -/
theorem Regex.alphabet_eq_filter {p : String} {n : Nfa} (h : Regex.ofPattern p = .ok ⟨n⟩) :
    n.alphabet = (p.toList.filter (¬ Reserved ·)).eraseDups := by
  obtain ⟨post, hpost, hn⟩ := Regex.exists_postfix_of_ok h
  rw [Nfa.alphabet_eq_operands hn, (Postfix.perm_of_ofTokens hpost).2, Token.operands_ofChars]

/-! ## Deterministic automata -/

namespace Subsets

variable {n : Nfa} {s : Subsets}

/-- A symbol adds at most a state and then a move. -/
theorem listed_extend (num : Numbering) (h : Nat) (members : List Nat) (c : Char)
    (hs : s.dfa.Listed) : (extend n num h members s c).dfa.Listed := by
  unfold extend
  split
  · exact hs
  · dsimp only
    split
    · exact hs.addMove _ _ _
    · exact (hs.addState _).addMove _ _ _

theorem listed_ofNfa (hn : n.Fragment) : (Dfa.ofNfa n).Listed := by
  obtain ⟨s, heq, -, hs⟩ := ofNfa_induction hn (motive := fun _ s => s.dfa.Listed)
    (fun c _ _ hs => listed_extend _ _ _ c hs) (fun _ hs => hs) (Diagram.listed_empty.addState _)
  rw [heq]
  exact hs

end Subsets

/-- Every symbol of the fragment is on some move, and no others are. -/
theorem Dfa.mem_alphabet_ofNfa {n : Nfa} (h : n.Built) (c : Char) :
    c ∈ (Dfa.ofNfa n).alphabet ↔ c ∈ n.alphabet := by
  have hn := h.fragment
  obtain ⟨s, heq, hp, hac⟩ := Subsets.accessible_ofNfa hn
  have hd := hp.isSubsetAutomaton hn h.through hac
  rw [heq, hp.consistent.mem_alphabet]
  constructor
  · intro ⟨m, hm, hl⟩
    obtain ⟨k, -, hdue⟩ := hp.exists_due (hp.consistent.mem_movesFrom.mpr ⟨hm, rfl⟩)
    obtain ⟨c', hc', -, hl', -⟩ := Nfa.mem_due.mp hdue
    obtain rfl : c = c' := Label.symbol.inj (hl.symm.trans hl')
    exact hc'
  · intro hc
    obtain ⟨i, -, m, hm, hl⟩ := hd.exists_move_of_mem_alphabet hn h.through hc
    exact ⟨m, (hp.consistent.mem_movesFrom.mp hm).1, hl⟩

/-- The alphabet of a fragment lists the operands of its sequence by first appearance, none twice;
for a pattern these are the characters that stand for themselves, as the pattern has them. The
deterministic automaton has the same symbols, listed by first appearance on its moves. -/
theorem alphabet_of_ofPostfix (p : Postfix) (n : Nfa) (h : Nfa.ofPostfix p = .ok n) :
    n.alphabet = (Token.operands p.tokens).eraseDups ∧ n.alphabet.Nodup ∧
    (∀ pattern, Regex.ofPattern pattern = .ok ⟨n⟩ →
      n.alphabet = (pattern.toList.filter (¬ Reserved ·)).eraseDups) ∧
    (∀ c, c ∈ (Dfa.ofNfa n).alphabet ↔ c ∈ n.alphabet) ∧
    (Dfa.ofNfa n).alphabet = (Dfa.ofNfa n).symbols.eraseDups := by
  have hbuilt : n.Built := .ofPostfix h
  exact ⟨Nfa.alphabet_eq_operands h, hbuilt.fragment.consistent.nodup_alphabet,
    fun _ => Regex.alphabet_eq_filter, Dfa.mem_alphabet_ofNfa hbuilt,
    (Subsets.listed_ofNfa hbuilt.fragment).eq_eraseDups⟩

/-- The first symbol comes back in the second branch and is not listed again; the second one, to
which the start has no move, is not lost in the deterministic automaton. -/
theorem alphabet_of_ofPostfix_repeated :
    Nfa.ofPostfix ⟨[.operand 'a', .operand 'b', .operator .concatenation, .operand 'c',
      .operand 'a', .operator .concatenation, .operator .alternation]⟩ =
        .ok (((Nfa.symbol 'a').concat (Nfa.symbol 'b')).alternate
          ((Nfa.symbol 'c').concat (Nfa.symbol 'a'))) ∧
    Regex.ofPattern "ab|ca" = .ok ⟨((Nfa.symbol 'a').concat (Nfa.symbol 'b')).alternate
      ((Nfa.symbol 'c').concat (Nfa.symbol 'a'))⟩ ∧
    (((Nfa.symbol 'a').concat (Nfa.symbol 'b')).alternate
      ((Nfa.symbol 'c').concat (Nfa.symbol 'a'))).alphabet = ['a', 'b', 'c'] ∧
    'b' ∈ (Dfa.ofNfa (((Nfa.symbol 'a').concat (Nfa.symbol 'b')).alternate
      ((Nfa.symbol 'c').concat (Nfa.symbol 'a')))).alphabet := by
  have hfragment : Nfa.ofPostfix ⟨[.operand 'a', .operand 'b', .operator .concatenation,
      .operand 'c', .operand 'a', .operator .concatenation, .operator .alternation]⟩ =
        .ok (((Nfa.symbol 'a').concat (Nfa.symbol 'b')).alternate
          ((Nfa.symbol 'c').concat (Nfa.symbol 'a'))) := rfl
  have hpattern : Regex.ofPattern "ab|ca" = .ok ⟨((Nfa.symbol 'a').concat
      (Nfa.symbol 'b')).alternate ((Nfa.symbol 'c').concat (Nfa.symbol 'a'))⟩ := by
    decide +kernel
  obtain ⟨-, -, hfilter, hmem, -⟩ := alphabet_of_ofPostfix _ _ hfragment
  have halphabet := (hfilter _ hpattern).trans
    (by decide : ("ab|ca".toList.filter (¬ Reserved ·)).eraseDups = ['a', 'b', 'c'])
  refine ⟨hfragment, hpattern, halphabet, (hmem 'b').mpr ?_⟩
  rw [halphabet]
  decide

end PatternAutomata
