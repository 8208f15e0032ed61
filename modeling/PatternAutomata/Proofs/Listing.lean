/-
  The listing is faithful. A label's text shows where it ends, whatever its symbol is
  (`Label.prefixFree_readable`), and so does a paragraph (`Paragraph.prefixFree_text`); the alphabet
  comes last, so its symbols cannot be taken for anything else. What the listing says of a state is
  its marks and, in order, the label of each move with the identifier of the target.
-/
import PatternAutomata.Automaton.Dump
import PatternAutomata.Proofs.BreadthFirst
import PatternAutomata.Proofs.Codes

namespace PatternAutomata

/-! ## Labels -/

/-- The number that a hexadecimal digit, in capitals, stands for. -/
def hexValue (c : Char) : Nat := if c.isDigit then c.toNat - 48 else c.toNat - 55

theorem hexValue_toUpper_digitChar : ∀ d < 16, hexValue (Nat.digitChar d).toUpper = d := by
  decide

theorem toNat_lt_of_isControl {c : Char} (hc : isControl c = true) : c.toNat < 160 := by
  unfold isControl at hc
  simp only [Bool.or_eq_true, Bool.and_eq_true, decide_eq_true_iff] at hc
  omega

/-- A control character is written with two zeros and the two digits of its code point. -/
theorem toList_codePoint {c : Char} (hc : isControl c = true) :
    (codePoint c).toList = ['U', '+', '0', '0', (Nat.digitChar (c.toNat / 16)).toUpper,
      (Nat.digitChar (c.toNat % 16)).toUpper] := by
  have hlt := toNat_lt_of_isControl hc
  unfold codePoint
  rw [Nat.toDigits_eq_if (by decide)]
  split_ifs with hsmall
  · have hzero : (Nat.digitChar 0).toUpper = '0' := rfl
    rw [Nat.div_eq_of_lt hsmall, Nat.mod_eq_of_lt hsmall]
    simp [List.leftpad, hzero]
  · rw [Nat.toDigits_of_lt_base (by omega)]
    simp [List.leftpad]

namespace Label

/-- The label that a text begins with, and what stands behind it. -/
def read? : List Char → Option (Label × List Char)
  | 'ϵ' :: x => some (epsilon, x)
  | 'U' :: '+' :: '0' :: '0' :: c :: d :: x =>
    some (symbol (Char.ofNat (16 * hexValue c + hexValue d)), x)
  | '\'' :: '\\' :: 's' :: '\'' :: x => some (symbol ' ', x)
  | '\'' :: '\\' :: 't' :: '\'' :: x => some (symbol '\t', x)
  | '\'' :: '\\' :: 'n' :: '\'' :: x => some (symbol '\n', x)
  | '\'' :: '\\' :: 'r' :: '\'' :: x => some (symbol '\r', x)
  | '\'' :: c :: '\'' :: x => some (symbol c, x)
  | _ => none

/-- A quoted character is read as itself: the quote behind it is no letter, so a backslash in front
of it begins no escape. -/
theorem read?_quoted (c : Char) (x : List Char) :
    read? ('\'' :: c :: '\'' :: x) = some (symbol c, x) := by
  unfold read?
  split <;> simp_all

theorem read?_readable (l : Label) (x : List Char) :
    read? (l.readable.toList ++ x) = some (l, x) := by
  unfold readable
  split
  · rfl
  · rfl
  · rfl
  · rfl
  · rfl
  · rename_i c _ _ _ _
    split_ifs with hc
    · have hlt := toNat_lt_of_isControl hc
      rw [toList_codePoint hc]
      change some (symbol (Char.ofNat _), x) = _
      rw [hexValue_toUpper_digitChar _ (by omega), hexValue_toUpper_digitChar _ (by omega),
        Nat.div_add_mod, Char.ofNat_toNat]
    · have hquoted : ("'" ++ String.singleton c ++ "'").toList ++ x = '\'' :: c :: '\'' :: x := by
        simp
      rw [hquoted, read?_quoted]

/-- No label's text begins another's, so none is taken for another. -/
theorem prefixFree_readable : PrefixFree fun l : Label => l.readable.toList :=
  prefixFree_of_read read?_readable

end Label

/-! ## Paragraphs -/

/-- What a paragraph of the listing says of a state: its identifier, its marks, and for each move
the label and the identifier of the target. -/
@[ext]
structure Paragraph where
  id : Nat
  isStart : Bool
  isAccept : Bool
  moves : List (Label × Nat)

/-- The marks of a state, to the end of the line. -/
def markText (marks : Bool × Bool) : String :=
  ({ isStart := marks.1, isAccept := marks.2 } : State).listedMarks ++ "\n"

theorem prefixFree_markText : PrefixFree fun marks => (markText marks).toList := by
  intro ⟨s, a⟩ ⟨s', a'⟩ x y h
  cases s <;> cases a <;> cases s' <;> cases a' <;> simp_all [markText, State.listedMarks]

theorem isDigit_head?_markText (marks : Bool × Bool) (x : List Char) :
    ∀ c ∈ ((markText marks).toList ++ x).head?, c.isDigit = false := by
  obtain ⟨s, a⟩ := marks
  cases s <;> cases a <;> simp [markText, State.listedMarks]

/-- The line of a move. -/
def moveText (m : Label × Nat) : String :=
  "    " ++ m.1.readable ++ " ──> " ++ toString m.2 ++ "\n"

theorem toList_moveText (m : Label × Nat) (x : List Char) :
    (moveText m).toList ++ x =
      "    ".toList ++ (m.1.readable.toList ++ (" ──> ".toList ++
        ((toString m.2).toList ++ '\n' :: x))) := by
  simp [moveText]

theorem prefixFree_moveText : PrefixFree fun m => (moveText m).toList := by
  intro ⟨l, i⟩ ⟨k, j⟩ x y h
  rw [toList_moveText, toList_moveText] at h
  obtain ⟨rfl, hbehind⟩ := Label.prefixFree_readable (List.append_cancel_left h)
  obtain ⟨rfl, hrest⟩ := numeral_append_inj (by simp) (by simp) (List.append_cancel_left hbehind)
  exact ⟨rfl, (List.cons.inj hrest).2⟩

/-- The moves of a state, to the blank line behind them. -/
def movesText (ms : List (Label × Nat)) : String :=
  (if ms.isEmpty then "  (no transitions)\n" else "") ++ String.join (ms.map moveText) ++ "\n"

theorem toList_movesText_nil (x : List Char) :
    (movesText []).toList ++ x = "  (no transitions)\n".toList ++ '\n' :: x := by
  simp [movesText]

theorem toList_movesText {ms : List (Label × Nat)} (hms : ms ≠ []) (x : List Char) :
    (movesText ms).toList ++ x = (ms.flatMap fun m => (moveText m).toList) ++ '\n' :: x := by
  simp [movesText, hms, List.flatMap_map]

/-- The third character tells whether there are moves. -/
theorem movesText_nil_ne {ms : List (Label × Nat)} (hms : ms ≠ []) (x y : List Char) :
    (movesText []).toList ++ x ≠ (movesText ms).toList ++ y := by
  obtain ⟨m, ms, rfl⟩ := List.exists_cons_of_ne_nil hms
  rw [toList_movesText_nil, toList_movesText (List.cons_ne_nil m ms), List.flatMap_cons,
    List.append_assoc, toList_moveText]
  simp

theorem prefixFree_movesText : PrefixFree fun ms => (movesText ms).toList := by
  intro ms ks x y h
  by_cases hms : ms = []
  · by_cases hks : ks = []
    · subst hms hks
      exact ⟨rfl, List.append_cancel_left h⟩
    · subst hms
      exact absurd h (movesText_nil_ne hks x y)
  · by_cases hks : ks = []
    · subst hks
      exact absurd h.symm (movesText_nil_ne hms y x)
    · dsimp only at h
      rw [toList_movesText hms, toList_movesText hks] at h
      refine prefixFree_moveText.flatMap_append_inj ?_ h
      intro m u v
      rw [toList_moveText]
      simp

namespace Paragraph

/-- The text of a paragraph. -/
def text (p : Paragraph) : String :=
  "State " ++ toString p.id ++ markText (p.isStart, p.isAccept) ++ movesText p.moves

theorem toList_text (p : Paragraph) (x : List Char) :
    p.text.toList ++ x =
      "State ".toList ++ ((toString p.id).toList ++
        ((markText (p.isStart, p.isAccept)).toList ++ ((movesText p.moves).toList ++ x))) := by
  simp [text]

theorem prefixFree_text : PrefixFree fun p : Paragraph => p.text.toList := by
  intro ⟨i, s, a, ms⟩ ⟨j, s', a', ks⟩ x y h
  rw [toList_text, toList_text] at h
  obtain ⟨rfl, hmarks⟩ := numeral_append_inj (isDigit_head?_markText _ _)
    (isDigit_head?_markText _ _) (List.append_cancel_left h)
  obtain ⟨hsa, hmoves⟩ := prefixFree_markText hmarks
  obtain ⟨rfl, rfl⟩ := Prod.mk.inj hsa
  obtain ⟨rfl, rfl⟩ := prefixFree_movesText hmoves
  exact ⟨rfl, rfl⟩

end Paragraph

/-! ## The listing -/

/-- What can be seen of a state: its marks, and for each move the label and the identifier of the
target, if it has one. -/
@[ext]
structure Row where
  isStart : Bool
  isAccept : Bool
  moves : List (Label × Option Nat)
deriving DecidableEq

namespace Automaton

/-- What can be seen of a state when states are known by their identifiers. -/
def row (a : Automaton) (h : Nat) : Row where
  isStart := (a.state h).isStart
  isAccept := (a.state h).isAccept
  moves := (a.movesFrom h).map fun m => (m.label, a.numbering.id? m.target)

/-- What the listing says of a state. -/
def paragraph (a : Automaton) (h : Nat) : Paragraph where
  id := a.numbering.nodeId h
  isStart := (a.state h).isStart
  isAccept := (a.state h).isAccept
  moves := (a.movesFrom h).map fun m => (m.label, a.numbering.nodeId m.target)

variable {a b : Automaton}

section Coherent

variable (ha : a.Coherent)
include ha

/-- The moves of a numbered state lead to numbered states. -/
theorem exists_id?_target {h i : Nat} (hi : a.numbering.id? h = some i) {m : Move}
    (hm : m ∈ a.movesFrom h) : ∃ j, a.numbering.id? m.target = some j := by
  rw [exists_id?_iff ha]
  exact ((exists_id?_iff ha).mp ⟨i, hi⟩).trans (Diagram.Reaches.single hm)

theorem isEmpty_outgoing (h : Nat) : (a.state h).outgoing.isEmpty = (a.movesFrom h).isEmpty := by
  rw [Bool.eq_iff_iff, List.isEmpty_iff, List.isEmpty_iff]
  unfold Diagram.movesFrom
  constructor
  · intro hnil
    rw [hnil]
    rfl
  · intro hnil
    rw [List.filterMap_eq_nil_iff] at hnil
    refine List.eq_nil_iff_forall_not_mem.mpr fun i hi => ?_
    obtain ⟨m, hm, -⟩ := ha.outgoing h i hi
    rw [hnil i hi] at hm
    cases hm

theorem listedState_eq {h i : Nat} (hi : a.numbering.id? h = some i) :
    a.listedState a.numbering h = (a.paragraph h).text := by
  have hname : ∀ t, (∃ j, a.numbering.id? t = some j) →
      a.numbering.name t = toString (a.numbering.nodeId t) := by
    intro t ⟨j, hj⟩
    unfold Numbering.name Numbering.nodeId
    rw [hj]
    rfl
  have hmoves : ((a.movesFrom h).map fun m =>
        "    " ++ m.label.readable ++ " ──> " ++ a.numbering.name m.target ++ "\n") =
      (a.paragraph h).moves.map moveText := by
    unfold paragraph
    rw [List.map_map]
    refine List.map_congr_left fun m hm => ?_
    rw [hname _ (exists_id?_target ha hi hm)]
    rfl
  have hmarks : (a.state h).listedMarks ++ "\n" =
      markText ((a.state h).isStart, (a.state h).isAccept) := rfl
  unfold listedState
  dsimp only
  rw [hmoves, hname h ⟨i, hi⟩, isEmpty_outgoing ha]
  simp [Paragraph.text, paragraph, movesText, ← hmarks, String.append_assoc]

theorem exists_id?_of_mem_order {h : Nat} (hh : h ∈ a.numbering.order) :
    ∃ i, a.numbering.id? h = some i :=
  (exists_id?_iff ha).mpr ((mem_order_numbering ha h).mp (Array.mem_toList_iff.mp hh))

theorem toList_readable :
    a.readable.toList = "States:\n=======\n\n".toList ++
      (((a.numbering.order.map a.paragraph).flatMap fun p => p.text.toList) ++
        'A' :: ("lphabet: \x7b".toList ++ (a.alphabet ++ "\x7d\n".toList))) := by
  have hstates : a.numbering.order.map (a.listedState a.numbering) =
      (a.numbering.order.map a.paragraph).map Paragraph.text := by
    rw [List.map_map]
    refine List.map_congr_left fun h hh => ?_
    obtain ⟨i, hi⟩ := exists_id?_of_mem_order ha hh
    exact listedState_eq ha hi
  unfold readable
  dsimp only
  rw [hstates]
  simp [List.flatMap_map]

end Coherent

/-- Listings are equal exactly if they say the same of each state and have one alphabet. -/
theorem readable_eq_iff (ha : a.Coherent) (hb : b.Coherent) :
    a.readable = b.readable ↔
      a.numbering.order.map a.paragraph = b.numbering.order.map b.paragraph ∧
        a.alphabet = b.alphabet := by
  rw [← String.toList_inj, toList_readable ha, toList_readable hb, List.append_cancel_left_eq]
  constructor
  · intro h
    obtain ⟨hstates, hrest⟩ := Paragraph.prefixFree_text.flatMap_append_inj (by
      intro p u v
      rw [Paragraph.toList_text]
      simp) h
    exact ⟨hstates, List.append_cancel_right (List.append_cancel_left hrest)⟩
  · intro ⟨hstates, halphabet⟩
    rw [hstates, halphabet]

/-- Lists that follow two numberings are equal exactly if the numberings are as long and the lists
agree on states with one identifier. -/
theorem map_order_eq_iff {α : Type} {f g : Nat → α} :
    a.numbering.order.map f = b.numbering.order.map g ↔
      a.numbering.size = b.numbering.size ∧ ∀ i s t, a.numbering.id? s = some i →
        b.numbering.id? t = some i → f s = g t := by
  have hlength : ∀ n : Numbering, n.order.length = n.size := fun n => Array.length_toList
  constructor
  · intro h
    have hsize := congrArg List.length h
    rw [List.length_map, List.length_map, hlength, hlength] at hsize
    refine ⟨hsize, fun i s t hs ht => ?_⟩
    obtain ⟨k, rfl⟩ : ∃ k, i = k + 1 :=
      ⟨_, ((Numbering.id?_eq_some_iff a.valid_numbering).mp hs).2.symm⟩
    rw [Numbering.id?_eq_succ_iff a.valid_numbering] at hs
    rw [Numbering.id?_eq_succ_iff b.valid_numbering] at ht
    have hplace := congrArg (·[k]?) h
    simpa [hs, ht] using hplace
  · intro ⟨hsize, h⟩
    refine List.ext_getElem (by simp [hlength, hsize]) fun k hk hk' => ?_
    rw [List.length_map] at hk hk'
    rw [List.getElem_map, List.getElem_map]
    exact h (k + 1) _ _
      ((Numbering.id?_eq_succ_iff a.valid_numbering).mpr (List.getElem?_eq_getElem hk))
      ((Numbering.id?_eq_succ_iff b.valid_numbering).mpr (List.getElem?_eq_getElem hk'))

theorem moves_row (ha : a.Coherent) {h i : Nat} (hi : a.numbering.id? h = some i) :
    (a.row h).moves = (a.paragraph h).moves.map (Prod.map id some) := by
  unfold row paragraph
  rw [List.map_map]
  refine List.map_congr_left fun m hm => ?_
  obtain ⟨j, hj⟩ := exists_id?_target ha hi hm
  rw [hj, Function.comp_apply, Numbering.nodeId_of_id? hj]
  rfl

/-- Of states with one identifier the listing says the same exactly if they look the same. -/
theorem paragraph_eq_iff (ha : a.Coherent) (hb : b.Coherent) {i s t : Nat}
    (hs : a.numbering.id? s = some i) (ht : b.numbering.id? t = some i) :
    a.paragraph s = b.paragraph t ↔ a.row s = b.row t := by
  have hid : (a.paragraph s).id = (b.paragraph t).id :=
    (Numbering.nodeId_of_id? hs).trans (Numbering.nodeId_of_id? ht).symm
  have hsome : Function.Injective (Prod.map id some : Label × Nat → Label × Option Nat) :=
    Function.injective_id.prodMap (Option.some_injective Nat)
  have hmoves : (a.row s).moves = (b.row t).moves ↔ (a.paragraph s).moves = (b.paragraph t).moves := by
    rw [moves_row ha hs, moves_row hb ht]
    exact hsome.list_map.eq_iff
  constructor
  · intro h
    obtain ⟨-, hstart, haccept, hlist⟩ := Paragraph.mk.inj h
    exact Row.ext hstart haccept (hmoves.mpr hlist)
  · intro h
    obtain ⟨hstart, haccept, hlist⟩ := Row.mk.inj h
    exact Paragraph.ext hid hstart haccept (hmoves.mp hlist)

end Automaton

/-- Listings are equal exactly if as many states can be reached, states with one identifier have
the same marks and, in order, moves with the same labels to states with the same identifiers, and the
alphabets are equal. No two labels are written alike. -/
theorem readable_faithful {a b : Automaton} (ha : a.Coherent) (hb : b.Coherent) :
    (a.readable = b.readable ↔
      {h | a.Reaches a.start h}.ncard = {h | b.Reaches b.start h}.ncard ∧
        (∀ i s t, a.numbering.id? s = some i → b.numbering.id? t = some i → a.row s = b.row t) ∧
        a.alphabet = b.alphabet) ∧
      Function.Injective Label.readable := by
  refine ⟨?_, fun l k h => Label.prefixFree_readable.injective (congrArg String.toList h)⟩
  rw [← Automaton.size_numbering ha, ← Automaton.size_numbering hb, ← and_assoc,
    Automaton.readable_eq_iff ha hb, Automaton.map_order_eq_iff]
  refine and_congr_left fun _ => and_congr_right fun _ => ?_
  constructor
  · intro h i s t hs ht
    exact (Automaton.paragraph_eq_iff ha hb hs ht).mp (h i s t hs ht)
  · intro h i s t hs ht
    exact (Automaton.paragraph_eq_iff ha hb hs ht).mpr (h i s t hs ht)

/-- Epsilon, the symbol that looks like it and a quote lead from the start to an accepting state. -/
def Automaton.lookalikes : Automaton where
  toDiagram := (({} : Diagram).addState { isStart := true }).addState { isAccept := true }
    |>.addMove 0 1 .epsilon |>.addMove 0 1 (.symbol '\u03f5') |>.addMove 0 1 (.symbol '\'')

/-- The same with other handles, and with a state that cannot be reached. -/
def Automaton.lookalikesMoved : Automaton where
  toDiagram := ((({} : Diagram).addState {}).addState { isAccept := true }).addState
    { isStart := true } |>.addMove 2 1 .epsilon |>.addMove 2 1 (.symbol '\u03f5')
    |>.addMove 2 1 (.symbol '\'') |>.addMove 0 2 .epsilon
  start := 2

/-- Handles, and states that cannot be reached, do not show. -/
theorem readable_faithful_lookalikes :
    Automaton.lookalikes.Coherent ∧ Automaton.lookalikesMoved.Coherent ∧
      Automaton.lookalikes.readable = Automaton.lookalikesMoved.readable := by
  have hone := (Diagram.consistent_empty.addState (s := { isStart := true }) rfl rfl).addState
    (s := { isAccept := true }) rfl rfl
  have htwo := ((Diagram.consistent_empty.addState (s := {}) rfl rfl).addState
    (s := { isAccept := true }) rfl rfl).addState (s := { isStart := true }) rfl rfl
  have hd : Automaton.lookalikes.toDiagram.Consistent :=
    ((hone.addMove (by decide) (by decide) _).addMove (by decide) (by decide) _).addMove
      (by decide) (by decide) _
  have he : Automaton.lookalikesMoved.toDiagram.Consistent :=
    (((htwo.addMove (by decide) (by decide) _).addMove (by decide) (by decide) _).addMove
      (by decide) (by decide) _).addMove (by decide) (by decide) _
  have ha : Automaton.lookalikes.Coherent := ⟨hd.coherent, by decide⟩
  have hb : Automaton.lookalikesMoved.Coherent := ⟨he.coherent, by decide⟩
  have hnum : Automaton.lookalikes.numbering = ⟨⟨#[0, 1], #[some 0, some 1]⟩⟩ := by cbv
  have hnum' : Automaton.lookalikesMoved.numbering = ⟨⟨#[2, 1], #[none, some 1, some 0]⟩⟩ := by cbv
  have hrows : Automaton.lookalikes.numbering.order.map Automaton.lookalikes.row =
      Automaton.lookalikesMoved.numbering.order.map Automaton.lookalikesMoved.row := by
    unfold Automaton.row
    rw [hnum, hnum']
    decide
  obtain ⟨hsize, hrow⟩ := Automaton.map_order_eq_iff.mp hrows
  rw [Automaton.size_numbering ha, Automaton.size_numbering hb] at hsize
  exact ⟨ha, hb, (readable_faithful ha hb).1.mpr ⟨hsize, hrow, by decide⟩⟩

end PatternAutomata
