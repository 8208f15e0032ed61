/-
  Tokens and characters. Without the concatenations, the tokens of a pattern are
  those of its characters, one for each (`written_ofChars`), so no pattern is lost.
  A concatenation stands between two neighbours exactly if the first ends an atom
  and the second starts one, which two characters decide (`seam_eq_gap`). A stream
  that gives one token at a time gives the same tokens and ends (`gives_ofChars`).
-/
import PatternAutomata.Proofs.Tokens
import PatternAutomata.Token.Stream

namespace PatternAutomata

namespace Token

/-! ## One token for each character -/

/-- The tokens that are written in the pattern: all but the concatenations. -/
def written (ts : List Token) : List Token := ts.filter (· ≠ operator .concatenation)

theorem written_append (ts us : List Token) : written (ts ++ us) = written ts ++ written us :=
  List.filter_append ..

theorem ofChar_ne_concatenation (c : Char) : ofChar c ≠ operator .concatenation := by
  unfold ofChar
  split <;> simp

theorem written_ofChar_cons (c : Char) (ts : List Token) :
    written (ofChar c :: ts) = ofChar c :: written ts :=
  List.filter_cons_of_pos (decide_eq_true (ofChar_ne_concatenation c))

theorem written_seam (p q : List Char) : written (seam p q) = [] := by
  unfold seam
  split <;> rfl

/-- Only concatenations are put in. -/
theorem written_ofChars (p : List Char) : written (ofChars p) = p.map ofChar := by
  induction p with
  | nil => rfl
  | cons c p ih =>
    rw [← List.singleton_append, ofChars_append, ofChars_singleton, List.singleton_append,
      written_ofChar_cons, written_append, written_seam, ih]
    rfl

/-- Patterns with the same tokens are the same. -/
theorem ofChars_injective : Function.Injective ofChars := fun p q h => by
  have hwritten := congrArg written h
  rw [written_ofChars, written_ofChars] at hwritten
  exact ofChar_injective.list_map hwritten

/-! ## Between neighbours, and at the ends -/

/-- What stands between the tokens of two neighbours. -/
def gap (c d : Char) : List Token :=
  if c ∉ ['(', '|'] ∧ d ∉ [')', '|', '*'] then [operator .concatenation] else []

theorem endsAtom_ofChar (c : Char) : (ofChar c).endsAtom = decide (c ∉ ['(', '|']) := by
  by_cases hc : Reserved c
  · rcases hc with rfl | rfl | rfl | rfl
    all_goals rfl
  · have hout : c ∉ ['(', '|'] := by
      simp only [Reserved, not_or] at hc
      simp [hc]
    rw [ofChar_of_not_reserved hc, decide_eq_true hout]
    rfl

theorem startsAtom_ofChar (c : Char) :
    (ofChar c).startsAtom = decide (c ∉ [')', '|', '*']) := by
  by_cases hc : Reserved c
  · rcases hc with rfl | rfl | rfl | rfl
    all_goals rfl
  · have hout : c ∉ [')', '|', '*'] := by
      simp only [Reserved, not_or] at hc
      simp [hc]
    rw [ofChar_of_not_reserved hc, decide_eq_true hout]
    rfl

theorem seam_eq_gap (xs ys : List Char) (c d : Char) : seam (xs ++ [c]) (d :: ys) = gap c d := by
  have hd : opensAtom (d :: ys) = (ofChar d).startsAtom := rfl
  unfold seam gap
  rw [closesAtom_concat, hd, endsAtom_ofChar, startsAtom_ofChar, ← Bool.decide_and]
  simp only [decide_eq_true_iff]

theorem ofChars_concat (p : List Char) (c : Char) :
    ofChars (p ++ [c]) = (ofChars p ++ seam p [c]) ++ [ofChar c] := by
  rw [ofChars_append, ofChars_singleton, List.append_assoc]

theorem ofChars_cons (c : Char) (p : List Char) :
    ofChars (c :: p) = ofChar c :: (seam [c] p ++ ofChars p) :=
  ofChars_append [c] p

/-- Two neighbours, with what stands between them, among the tokens of the others. -/
theorem exists_ofChars_neighbours (xs ys : List Char) (c d : Char) :
    ∃ before after,
      ofChars (xs ++ c :: d :: ys) = before ++ ofChar c :: (gap c d ++ ofChar d :: after) ∧
        written before = xs.map ofChar ∧ written after = ys.map ofChar := by
  refine ⟨ofChars xs ++ seam xs [c], seam [d] ys ++ ofChars ys, ?_, ?_, ?_⟩
  · rw [List.append_cons, ofChars_append, ofChars_concat, seam_eq_gap, ofChars_cons d ys,
      List.append_assoc]
    rfl
  · rw [written_append, written_seam, written_ofChars, List.append_nil]
  · rw [written_append, written_seam, written_ofChars, List.nil_append]

theorem head?_ofChars (p : List Char) : (ofChars p).head? = p.head?.map ofChar := by
  cases p with
  | nil => rfl
  | cons c p =>
    rw [ofChars_cons]
    rfl

theorem getLast?_ofChars (p : List Char) : (ofChars p).getLast? = p.getLast?.map ofChar := by
  rcases List.eq_nil_or_concat p with rfl | ⟨p, c, rfl⟩
  · rfl
  · rw [List.concat_eq_append, ofChars_concat, List.getLast?_concat, List.getLast?_concat]
    rfl

theorem map_ofChar_ne_concatenation (c? : Option Char) :
    c?.map ofChar ≠ some (operator .concatenation) := by
  rintro h
  obtain ⟨c, -, hc⟩ := Option.map_eq_some_iff.mp h
  exact ofChar_ne_concatenation c hc

end Token

/-! ## One token at a time -/

namespace TokenStream

open Token (ofChars seam)

/-- The stream when no concatenation is due, with a character in front, gives its token. -/
theorem Gives.char {c : Char} {rest : List Char} {last? : Option Token} {ts : List Token}
    (hdue : ((Token.ofChar c).startsAtom && last?.any Token.endsAtom) = false)
    (h : Gives { rest, last? := some (Token.ofChar c) } ts) :
    Gives { rest := c :: rest, last? } (Token.ofChar c :: ts) := by
  refine .more ?_ h
  unfold next? wantsConcatenation
  simp only [hdue]
  rfl

/-- What is left is given as its tokens, behind the concatenation that may be due. -/
theorem gives_ofChars (p : List Char) (last? : Option Token) :
    Gives { rest := p, last? } ((if last?.any Token.endsAtom && Token.opensAtom p then
      [.operator .concatenation] else []) ++ ofChars p) := by
  induction p generalizing last? with
  | nil =>
    rw [if_neg (by simp [Token.opensAtom])]
    exact .done rfl
  | cons c p ih =>
    have hopens : Token.opensAtom (c :: p) = (Token.ofChar c).startsAtom := rfl
    have hrest : Gives { rest := p, last? := some (Token.ofChar c) } (seam [c] p ++ ofChars p) :=
      ih (some (Token.ofChar c))
    rw [Token.ofChars_cons, hopens, Bool.and_comm]
    cases hdue : (Token.ofChar c).startsAtom && last?.any Token.endsAtom with
    | false => exact .char hdue hrest
    | true =>
      have hnext : next? { rest := c :: p, last? } = some (.operator .concatenation,
          { rest := c :: p, last? := some (.operator .concatenation) }) := by
        unfold next? wantsConcatenation
        simp only [hdue]
        rfl
      -- Once the concatenation is given, none is due: it ends no atom.
      exact .more hnext (.char (Bool.and_false _) hrest)

theorem gives_tokenize (pattern : String) : Gives (ofPattern pattern) (tokenize pattern) :=
  gives_ofChars pattern.toList none

end TokenStream

/-- Reading loses nothing and puts in nothing but concatenations. A stream that gives one token at a
time gives these tokens and ends. Those that are written are one for each character, in order, and
shown as it, so no two patterns have the same; a dot is an operand as any other symbol. Between
neighbours a concatenation stands exactly if the first ends an atom and the second starts one, and
none stands first or last. -/
theorem tokenize_lossless (p : String) :
    TokenStream.Gives (.ofPattern p) (tokenize p) ∧
    Token.written (tokenize p) = p.toList.map Token.ofChar ∧
    (Token.written (tokenize p)).map Token.text = p.toList.map String.singleton ∧
    (∀ q, tokenize p = tokenize q → p = q) ∧
    (∀ xs c d ys, p.toList = xs ++ c :: d :: ys → ∃ before after,
      tokenize p = before ++ Token.ofChar c :: (Token.gap c d ++ Token.ofChar d :: after) ∧
        Token.written before = xs.map Token.ofChar ∧ Token.written after = ys.map Token.ofChar) ∧
    (tokenize p).head? ≠ some (.operator .concatenation) ∧
    (tokenize p).getLast? ≠ some (.operator .concatenation) ∧
    ∀ i : Nat, p.toList[i]? = some '·' →
      (Token.written (tokenize p))[i]? = some (.operand '·') := by
  have hwritten : Token.written (tokenize p) = p.toList.map Token.ofChar :=
    Token.written_ofChars p.toList
  have htext : (p.toList.map Token.ofChar).map Token.text = p.toList.map String.singleton := by
    rw [List.map_map]
    exact List.map_congr_left fun c _ => congrArg String.singleton (Token.char_ofChar c)
  refine ⟨TokenStream.gives_tokenize p, hwritten, hwritten ▸ htext, ?_, ?_, ?_, ?_, ?_⟩
  · intro q hq
    exact String.toList_injective (Token.ofChars_injective hq)
  · intro xs c d ys hp
    rw [Token.tokenize_eq_ofChars, hp]
    exact Token.exists_ofChars_neighbours xs ys c d
  · rw [Token.tokenize_eq_ofChars, Token.head?_ofChars]
    exact Token.map_ofChar_ne_concatenation _
  · rw [Token.tokenize_eq_ofChars, Token.getLast?_ofChars]
    exact Token.map_ofChar_ne_concatenation _
  · intro i hi
    rw [hwritten, List.getElem?_map, hi]
    rfl

/-- A misplaced closure ends an atom, so a group behind it is joined to it; a dot is a symbol. -/
theorem tokenize_lossless_misplaced :
    "|*(·".toList = ['|'] ++ '*' :: '(' :: ['·'] ∧
    (∃ before after, tokenize "|*(·" = before ++
      .operator .closure :: ([.operator .concatenation] ++ .leftGroup :: after) ∧
      Token.written before = [.operator .alternation] ∧ Token.written after = [.operand '·']) ∧
    "|*(·".toList[3]? = some '·' ∧ (Token.written (tokenize "|*(·"))[3]? = some (.operand '·') := by
  obtain ⟨-, -, -, -, hneighbours, -, -, hdot⟩ := tokenize_lossless "|*(·"
  exact ⟨rfl, hneighbours ['|'] '*' '(' ['·'] rfl, rfl, hdot 3 rfl⟩

end PatternAutomata
