/-
  Symbols are opaque. An injective renaming of characters that leaves the reserved
  ones alone commutes with every stage between a pattern and a verdict: reading,
  conversion, evaluation, building, determinizing and running. Most stages fold
  over tokens, symbols or states, so it is their steps that are shown to commute.
  Injectivity is needed where characters are compared: with the reserved ones, in
  the alphabet, and in following the moves with a label.
-/
import Mathlib.Data.List.Basic
import Mathlib.Logic.Equiv.Basic
import PatternAutomata.Renaming
import PatternAutomata.Proofs.Compilation

namespace PatternAutomata

variable {f : Char → Char}

/-! ## Reading and conversion -/

namespace Token

/-- Which character an operand is does not matter to its neighbours. -/
theorem juxtapose_map_rename (ts : List Token) :
    juxtapose (ts.map (rename f)) = (juxtapose ts).map (rename f) := by
  have hends : ∀ t : Token, (t.rename f).endsAtom = t.endsAtom := fun t => by cases t <;> rfl
  have hstarts : ∀ t : Token, (t.rename f).startsAtom = t.startsAtom := fun t => by cases t <;> rfl
  fun_induction juxtapose ts with
  | case1 s t ts h ih =>
    rw [List.map_cons, List.map_cons, juxtapose, hends, hstarts, if_pos h, ← List.map_cons, ih]
    rfl
  | case2 s t ts h ih =>
    rw [List.map_cons, List.map_cons, juxtapose, hends, hstarts, if_neg h, ← List.map_cons, ih]
    rfl
  | case3 ts h =>
    rcases ts with _ | ⟨s, _ | ⟨t, ts⟩⟩
    · rfl
    · rfl
    · exact absurd rfl (h s t ts)

section Reserved

variable (hf : Function.Injective f) (hr : ∀ c, Reserved c → f c = c)
include hf hr

/-- No character becomes a reserved one, since that one stays as it is. -/
theorem ofChar_rename (c : Char) : ofChar (f c) = (ofChar c).rename f := by
  by_cases hc : Reserved c
  · rw [hr c hc]
    rcases hc with rfl | rfl | rfl | rfl <;> rfl
  · have hfc : ¬ Reserved (f c) := fun h => hc (hf (hr _ h) ▸ h)
    rw [ofChar_of_not_reserved hc, ofChar_of_not_reserved hfc]
    rfl

theorem tokenize_map (p : String) : tokenize (p.map f) = (tokenize p).map (rename f) := by
  unfold tokenize
  rw [String.toList_map, List.map_map, ← juxtapose_map_rename, List.map_map]
  exact congrArg juxtapose (List.map_congr_left fun c _ => ofChar_rename hf hr c)

end Reserved

end Token

/-- Rename the operands in a sequence. -/
def Postfix.rename (f : Char → Char) (p : Postfix) : Postfix := ⟨p.tokens.map (Token.rename f)⟩

namespace Yard

/-- Rename the operands in the output. -/
def rename (f : Char → Char) (y : Yard) : Yard :=
  { y with output := y.output.map (Token.rename f) }

theorem emit_map_rename (output : Array Token) (ops : List Operator) :
    emit (output.map (Token.rename f)) ops = (emit output ops).map (Token.rename f) := by
  apply Array.toList_inj.mp
  simp only [emit, Array.toList_map, Array.toList_appendList, List.map_append, List.map_map]
  rfl

theorem step_rename (y : Yard) (t : Token) :
    (y.rename f).step (t.rename f) = (y.step t).map (rename f) := by
  obtain ⟨output, pending, outer⟩ := y
  cases t with
  | operand c => simp [step, rename, Token.rename, Except.map]
  | operator op => simp [step, rename, Token.rename, await, emit_map_rename, Except.map]
  | leftGroup => rfl
  | rightGroup =>
    cases outer with
    | nil => simp [step, rename, Token.rename, emit_map_rename, Except.map]
    | cons scope outer => simp [step, rename, Token.rename, emit_map_rename, Except.map]

theorem finish_rename (y : Yard) : (y.rename f).finish = y.finish.map (Postfix.rename f) := by
  obtain ⟨output, pending, outer⟩ := y
  cases outer with
  | nil => simp [finish, rename, emit_map_rename, Postfix.rename, Except.map]
  | cons scope outer => rfl

end Yard

namespace Postfix

theorem ofTokens_map_rename (ts : List Token) :
    ofTokens (ts.map (Token.rename f)) = (ofTokens ts).map (rename f) := by
  have hrun := run_map (Yard.step_rename (f := f)) {} ts
  have hempty : Yard.rename f {} = {} := by simp [Yard.rename]
  rw [hempty] at hrun
  unfold ofTokens
  rw [hrun]
  cases ts.foldlM Yard.step {} with
  | ok y => exact y.finish_rename
  | error e => rfl

end Postfix

/-! ## Evaluation -/

namespace Expr

theorem step_trees_rename (stack : List Expr) (t : Token) :
    trees.step (stack.map (rename f)) (t.rename f) =
      (trees.step stack t).map (List.map (rename f)) := by
  cases t with
  | operator op =>
    cases op with
    | closure =>
      rcases stack with _ | ⟨a, stack⟩
      · rfl
      · rfl
    | _ =>
      rcases stack with _ | ⟨b, _ | ⟨a, stack⟩⟩
      · rfl
      · rfl
      · rfl
  | _ => rfl

end Expr

theorem Postfix.evaluate_trees_rename (p : Postfix) :
    (p.rename f).evaluate Expr.trees = (p.evaluate Expr.trees).map (Expr.rename f) := by
  have hrun := run_map (Expr.step_trees_rename (f := f)) [] p.tokens
  rw [List.map_nil] at hrun
  unfold Postfix.evaluate
  rw [Postfix.rename, hrun]
  cases p.tokens.foldlM Expr.trees.step [] with
  | ok stack => exact Postfix.onlyValue_map _ stack
  | error e => rfl

/-! ## Diagrams -/

theorem Label.rename_injective (hf : Function.Injective f) :
    Function.Injective (Label.rename f) := by
  intro l l' h
  cases l with
  | epsilon =>
    cases l' with
    | epsilon => rfl
    | symbol c => cases h
  | symbol c =>
    cases l' with
    | epsilon => cases h
    | symbol c' => rw [hf (Label.symbol.inj h)]

/-- Rename the symbol of a move. -/
def Move.rename (f : Char → Char) (m : Move) : Move := { m with label := m.label.rename f }

section Alphabet

variable (hf : Function.Injective f)
include hf

theorem insertSymbol_map (alphabet : List Char) (c : Char) :
    insertSymbol (alphabet.map f) (f c) = (insertSymbol alphabet c).map f := by
  unfold insertSymbol
  by_cases hc : c ∈ alphabet
  · rw [if_pos ((List.mem_map_of_injective hf).mpr hc), if_pos hc]
  · rw [if_neg (mt (List.mem_map_of_injective hf).mp hc), if_neg hc, List.map_append,
      List.map_singleton]

theorem foldl_insertSymbol_map (alphabet symbols : List Char) :
    (symbols.map f).foldl insertSymbol (alphabet.map f) =
      (symbols.foldl insertSymbol alphabet).map f := by
  rw [List.foldl_map]
  exact List.foldl_hom _ fun alphabet c => insertSymbol_map hf alphabet c

theorem Label.insertInto_map (alphabet : List Char) (l : Label) :
    (l.rename f).insertInto (alphabet.map f) = (l.insertInto alphabet).map f := by
  cases l with
  | epsilon => rfl
  | symbol c => exact insertSymbol_map hf alphabet c

end Alphabet

namespace Diagram

variable (d e : Diagram)

/-! ### Building -/

section Build

theorem rename_empty : ({} : Diagram).rename f = {} := by simp [rename]

theorem rename_addState (s : State) : (d.addState s).rename f = (d.rename f).addState s := rfl

theorem rename_unmarkStart (h : Nat) :
    (d.unmarkStart h).rename f = (d.rename f).unmarkStart h := rfl

theorem rename_unmarkAccept (h : Nat) :
    (d.unmarkAccept h).rename f = (d.rename f).unmarkAccept h := rfl

variable (hf : Function.Injective f)
include hf

theorem rename_addMove (source target : Nat) (l : Label) :
    (d.addMove source target l).rename f = (d.rename f).addMove source target (l.rename f) := by
  simp [addMove, rename, Label.insertInto_map hf]

theorem rename_absorb : (d.absorb e).rename f = (d.rename f).absorb (e.rename f) := by
  simp [absorb, rename, foldl_insertSymbol_map hf]
  rfl

end Build

/-! ### Looking -/

section Look

theorem movesFrom_rename (h : Nat) :
    (d.rename f).movesFrom h = (d.movesFrom h).map (Move.rename f) := by
  have hmoves : ∀ i : Nat, (d.rename f).moves[i]? = (d.moves[i]?).map (Move.rename f) :=
    fun i => Array.getElem?_map
  unfold movesFrom
  simp only [hmoves]
  exact (List.map_filterMap).symm

theorem successors_rename (h : Nat) : (d.rename f).successors h = d.successors h := by
  unfold successors
  rw [movesFrom_rename, List.map_map]
  rfl

variable (hf : Function.Injective f)
include hf

theorem follow_rename (h : Nat) (l : Label) :
    (d.rename f).follow h (l.rename f) = d.follow h l := by
  unfold follow
  rw [movesFrom_rename, List.filterMap_map]
  refine List.filterMap_congr fun m _ => ?_
  show (if m.label.rename f = l.rename f then some m.target else none) = _
  simp only [(Label.rename_injective hf).eq_iff]

theorem followAll_rename (hs : List Nat) (l : Label) :
    (d.rename f).followAll hs (l.rename f) = d.followAll hs l :=
  List.flatMap_congr fun h _ => follow_rename d hf h l

theorem enterClosure_rename (r : Roster) (seeds : List Nat) :
    (d.rename f).enterClosure r seeds = d.enterClosure r seeds := by
  have hfollow : ∀ h, (d.rename f).follow h .epsilon = d.follow h .epsilon :=
    fun h => follow_rename d hf h .epsilon
  unfold enterClosure
  simp only [hfollow]

theorem closeWith_rename (scratch : Array (Option Nat)) (seeds : List Nat) :
    (d.rename f).closeWith scratch seeds = d.closeWith scratch seeds := by
  unfold closeWith
  rw [enterClosure_rename d hf]

theorem configuration_rename (num : Numbering) (seeds : List Nat) :
    (d.rename f).configuration num seeds = d.configuration num seeds := by
  unfold configuration
  rw [enterClosure_rename d hf]
  rfl

end Look

end Diagram

/-! ## Fragments -/

namespace Nfa

section Rename

variable (hf : Function.Injective f)
include hf

theorem rename_symbol (c : Char) : (symbol c).rename f = symbol (f c) := by
  simp only [symbol, rename, Diagram.rename_addMove _ hf, Diagram.rename_addState,
    Diagram.rename_empty]
  rfl

theorem rename_alternate (a b : Nfa) :
    (a.alternate b).rename f = (a.rename f).alternate (b.rename f) := by
  simp only [alternate, rename, Diagram.rename_addMove _ hf, Diagram.rename_addState,
    Diagram.rename_unmarkAccept, Diagram.rename_unmarkStart, Diagram.rename_absorb _ _ hf]
  rfl

theorem rename_concat (a b : Nfa) :
    (a.concat b).rename f = (a.rename f).concat (b.rename f) := by
  simp only [concat, rename, Diagram.rename_addMove _ hf, Diagram.rename_unmarkAccept,
    Diagram.rename_unmarkStart, Diagram.rename_absorb _ _ hf]
  rfl

theorem rename_closure (a : Nfa) : a.closure.rename f = (a.rename f).closure := by
  simp only [closure, rename, Diagram.rename_addMove _ hf, Diagram.rename_addState,
    Diagram.rename_unmarkAccept, Diagram.rename_unmarkStart]
  rfl

/-- The fragment of a renamed tree is the renamed fragment. -/
theorem ofExpr_rename (e : Expr) : ofExpr (e.rename f) = (ofExpr e).rename f := by
  induction e with
  | symbol c => exact (rename_symbol hf c).symm
  | alternate a b iha ihb =>
    show (ofExpr (a.rename f)).alternate (ofExpr (b.rename f)) = _
    rw [iha, ihb, ← rename_alternate hf]
    rfl
  | concat a b iha ihb =>
    show (ofExpr (a.rename f)).concat (ofExpr (b.rename f)) = _
    rw [iha, ihb, ← rename_concat hf]
    rfl
  | closure a ih =>
    show (ofExpr (a.rename f)).closure = _
    rw [ih, ← rename_closure hf]
    rfl

theorem ofPostfix_rename (p : Postfix) :
    ofPostfix (p.rename f) = (ofPostfix p).map (rename f) := by
  unfold ofPostfix
  rw [Postfix.evaluate_eq_map_trees fragments (p.rename f), Postfix.evaluate_trees_rename,
    Postfix.evaluate_eq_map_trees fragments p]
  cases p.evaluate Expr.trees with
  | ok e => exact congrArg Except.ok (ofExpr_rename hf e)
  | error e => rfl

end Rename

end Nfa

/-! ## Automata -/

namespace Automaton

/-- Rename the symbols of an automaton. -/
def rename (f : Char → Char) (a : Automaton) : Automaton :=
  { a with toDiagram := a.toDiagram.rename f }

variable (a : Automaton)

/-- Numbering looks at where moves lead, not at what they read. -/
theorem numbering_rename : (a.rename f).numbering = a.numbering := by
  have hnext : (a.rename f).successors = a.successors :=
    funext fun h => a.toDiagram.successors_rename h
  unfold numbering
  rw [hnext]
  rfl

variable (hf : Function.Injective f)
include hf

theorem acceptsFrom_rename (scratch : Array (Option Nat)) (active : List Nat) (w : List Char) :
    (a.rename f).acceptsFrom scratch active (w.map f) = a.acceptsFrom scratch active w := by
  induction w generalizing scratch active with
  | nil => rfl
  | cons c w ih =>
    have hfollow : (a.rename f).followAll active (.symbol (f c)) = a.followAll active (.symbol c) :=
      Diagram.followAll_rename _ hf active (.symbol c)
    have hclose : ∀ seeds, (a.rename f).closeWith scratch seeds = a.closeWith scratch seeds :=
      fun seeds => Diagram.closeWith_rename _ hf scratch seeds
    rw [List.map_cons, acceptsFrom, acceptsFrom, hfollow]
    cases a.followAll active (.symbol c) with
    | nil => rfl
    | cons s seeds =>
      dsimp only
      rw [hclose]
      exact ih _ _

theorem accepts_rename (w : List Char) : (a.rename f).accepts (w.map f) = a.accepts w := by
  have hclose : ∀ scratch seeds, (a.rename f).closeWith scratch seeds = a.closeWith scratch seeds :=
    fun scratch seeds => Diagram.closeWith_rename _ hf scratch seeds
  unfold accepts
  rw [hclose]
  exact acceptsFrom_rename a hf _ _ w

end Automaton

/-! ## Subset construction -/

namespace Subsets

/-- Rename the symbols of what is made so far. -/
def rename (f : Char → Char) (s : Subsets) : Subsets := { s with dfa := s.dfa.rename f }

variable (n : Nfa) (num : Numbering) (s : Subsets)

theorem rename_empty : ({} : Subsets).rename f = {} := by simp [rename, Dfa.rename, Diagram.rename]

theorem make_rename (k : Configuration) :
    make (n.rename f) (s.rename f) k = (make n s k).rename f := rfl

variable (hf : Function.Injective f)
include hf

theorem link_rename (source target : Nat) (c : Char) :
    (s.rename f).link source target (f c) = (s.link source target c).rename f := by
  unfold link rename Dfa.rename
  dsimp only
  rw [Diagram.rename_addMove _ hf]
  rfl

theorem extend_rename (h : Nat) (members : List Nat) (c : Char) :
    extend (n.rename f) num h members (s.rename f) (f c) =
      (extend n num h members s c).rename f := by
  have hfollow : (n.rename f).followAll members (.symbol (f c)) = n.followAll members (.symbol c) :=
    Diagram.followAll_rename _ hf members (.symbol c)
  have hconf : ∀ seeds, (n.rename f).configuration num seeds = n.configuration num seeds :=
    fun seeds => Diagram.configuration_rename _ hf num seeds
  unfold extend
  rw [hfollow]
  cases n.followAll members (.symbol c) with
  | nil => rfl
  | cons q seeds =>
    dsimp only
    rw [hconf, show (s.rename f).made = s.made from rfl]
    cases s.made[(n.configuration num (q :: seeds)).key]? with
    | some target => exact link_rename s hf h target c
    | none => exact link_rename (make n s _) hf h s.dfa.states.size c

theorem expand_rename (h : Nat) :
    expand (n.rename f) num (s.rename f) h = (expand n num s h).rename f := by
  unfold expand
  rw [show (s.rename f).dfa.configurations = s.dfa.configurations from rfl]
  cases s.dfa.configurations[h]? with
  | none => rfl
  | some k =>
    show (n.alphabet.map f).foldl _ _ = _
    rw [List.foldl_map]
    exact List.foldl_hom _ fun s c => extend_rename n num s hf h k.members c

theorem initial_rename : initial (n.rename f) num = (initial n num).rename f := by
  unfold initial
  rw [← make_rename, rename_empty]
  exact congrArg _ (Diagram.configuration_rename _ hf num [n.start])

theorem expandFrom_rename (fuel h : Nat) :
    expandFrom (n.rename f) num fuel h (s.rename f) = (expandFrom n num fuel h s).rename f := by
  induction fuel generalizing h s with
  | zero => rfl
  | succ fuel ih =>
    unfold expandFrom
    show (if h < s.dfa.states.size then _ else _) = _
    split
    · rw [expand_rename n num s hf, ih]
    · rfl

end Subsets

theorem Dfa.ofNfa_rename (hf : Function.Injective f) (n : Nfa) :
    Dfa.ofNfa (n.rename f) = (Dfa.ofNfa n).rename f := by
  have hnum : (n.rename f).automaton.numbering = n.automaton.numbering :=
    n.automaton.numbering_rename
  unfold Dfa.ofNfa
  dsimp only
  rw [hnum, Subsets.initial_rename n _ hf, Subsets.expandFrom_rename n _ _ hf]
  rfl

/-! ## Patterns -/

namespace Regex

/-- Rename the symbols of a compiled pattern. -/
def rename (f : Char → Char) (r : Regex) : Regex := ⟨r.nfa.rename f⟩

theorem ofPattern_map (hf : Function.Injective f) (hr : ∀ c, Reserved c → f c = c) (p : String) :
    ofPattern (p.map f) = (ofPattern p).map (rename f) := by
  have hpost : Postfix.ofTokens (tokenize (p.map f)) =
      (Postfix.ofTokens (tokenize p)).map (Postfix.rename f) := by
    rw [Token.tokenize_map hf hr, Postfix.ofTokens_map_rename]
  cases hp : Postfix.ofTokens (tokenize p) with
  | error e =>
    rw [hp] at hpost
    rw [ofPattern_of_postfix_error hpost, ofPattern_of_postfix_error hp]
    rfl
  | ok post =>
    rw [hp] at hpost
    rw [ofPattern_of_postfix_ok hpost, ofPattern_of_postfix_ok hp, Nfa.ofPostfix_rename hf]
    cases Nfa.ofPostfix post with
    | ok n => rfl
    | error e => rfl

theorem isMatch_rename (hf : Function.Injective f) (r : Regex) (t : String) :
    (r.rename f).isMatch (t.map f) = r.isMatch t := by
  unfold isMatch
  rw [String.toList_map]
  exact r.nfa.automaton.accepts_rename hf t.toList

end Regex

/-- Symbols are opaque. Renamed by an injection that leaves the reserved characters alone, a pattern
is refused for the same cause, or compiles to the same automata but for the symbols, and matches a
renamed text exactly if it matched the text. -/
theorem ofPattern_renamed (f : Char → Char) (hf : Function.Injective f)
    (hr : ∀ c, Reserved c → f c = c) (p : String) :
    (∀ e, Regex.ofPattern (p.map f) = .error e ↔ Regex.ofPattern p = .error e) ∧
    ∀ r, Regex.ofPattern p = .ok r → ∃ r', Regex.ofPattern (p.map f) = .ok r' ∧
      r'.nfa = r.nfa.rename f ∧ r'.dfa = r.dfa.rename f ∧
      ∀ t : String, r'.isMatch (t.map f) = r.isMatch t := by
  have hp := Regex.ofPattern_map hf hr p
  constructor
  · intro e
    rw [hp]
    cases Regex.ofPattern p with
    | ok r => simp [Except.map]
    | error e' => exact Iff.rfl
  · intro r hok
    rw [hok] at hp
    exact ⟨r.rename f, hp, rfl, Dfa.ofNfa_rename hf r.nfa, r.isMatch_rename hf⟩

/-- The character by which epsilon moves are shown is a symbol like any other. -/
theorem ofPattern_renamed_epsilon :
    Function.Injective (Equiv.swap 'a' 'ϵ') ∧ (∀ c, Reserved c → Equiv.swap 'a' 'ϵ' c = c) ∧
    ∃ r, Regex.ofPattern "(a|b)*" = .ok r ∧ ∃ r', Regex.ofPattern "(ϵ|b)*" = .ok r' ∧
      r'.nfa = r.nfa.rename (Equiv.swap 'a' 'ϵ') ∧ r'.dfa = r.dfa.rename (Equiv.swap 'a' 'ϵ') ∧
      ∀ t : String, r'.isMatch (t.map (Equiv.swap 'a' 'ϵ')) = r.isMatch t := by
  have hf := (Equiv.swap 'a' 'ϵ').injective
  have hr : ∀ c, Reserved c → Equiv.swap 'a' 'ϵ' c = c := by
    intro c hc
    rcases hc with rfl | rfl | rfl | rfl <;> decide
  have hmap : "(a|b)*".map (Equiv.swap 'a' 'ϵ') = "(ϵ|b)*" := by
    rw [← String.toList_inj, String.toList_map]
    decide
  have hok : Regex.ofPattern "(a|b)*" =
      .ok ⟨((Nfa.symbol 'a').alternate (Nfa.symbol 'b')).closure⟩ := by
    decide +kernel
  obtain ⟨r', hr', hrest⟩ := (ofPattern_renamed _ hf hr "(a|b)*").2 _ hok
  rw [hmap] at hr'
  exact ⟨hf, hr, _, hok, r', hr', hrest⟩

end PatternAutomata
