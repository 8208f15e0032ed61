/-
  How many states a deterministic automaton has. All states but the start have an
  entry, and no two states have the same one. An entry is a symbol with some of the
  states where moves on that symbol end, so counting entries bounds the states
  (`IsSubsetAutomaton.size_le`). From below, they are bounded by the symbols, since
  each is in some entry (`le_size`), and by any words that must be told apart
  (`length_le_size`). In the fragment of a pattern a symbol is on as many moves as
  it occurs in the pattern.
-/
import Mathlib.Algebra.BigOperators.Group.Finset.Sigma
import Mathlib.Algebra.Order.BigOperators.Group.Finset
import Mathlib.Combinatorics.Enumerative.DoubleCounting
import Mathlib.Data.Finset.Powerset
import Mathlib.Data.List.Sort
import PatternAutomata.Proofs.Compilation
import PatternAutomata.Proofs.Entries
import PatternAutomata.Proofs.Worklist

namespace PatternAutomata

open Grammar (Derives Level)

/-! ## Occurrences of a symbol -/

/-- How many moves read the symbol. -/
def Diagram.occurrences (d : Diagram) (c : Char) : Nat :=
  d.moves.toList.countP fun m => m.label = .symbol c

theorem Diagram.card_targets_le (d : Diagram) (c : Char) :
    (d.targets c).card ≤ d.occurrences c := by
  unfold targets occurrences
  refine (List.toFinset_card_le _).trans ?_
  rw [List.length_map, List.countP_eq_length_filter]

namespace Nfa

variable (a b : Nfa) (c : Char)

theorem occurrences_symbol (x : Char) :
    (symbol x).occurrences c = if x = c then 1 else 0 := by
  simp [Diagram.occurrences, symbol, List.countP_singleton]

theorem occurrences_alternate :
    (a.alternate b).occurrences c = a.occurrences c + b.occurrences c := by
  simp [Diagram.occurrences, alternate, List.countP_append, List.countP_map, Function.comp_def,
    Move.shift]

theorem occurrences_concat :
    (a.concat b).occurrences c = a.occurrences c + b.occurrences c := by
  simp [Diagram.occurrences, concat, List.countP_append, List.countP_map, Function.comp_def,
    Move.shift]

theorem occurrences_closure : a.closure.occurrences c = a.occurrences c := by
  simp [Diagram.occurrences, closure, List.countP_append]

/-- In the fragment of a pattern a symbol is on as many moves as it occurs in the pattern, and the
characters of the notation are on none. -/
theorem occurrences_of_derives {L : Level} {p : List Char} {e : Expr} (h : Derives L p e)
    (c : Char) : (ofExpr e).occurrences c = (p.filter fun x => ¬ Reserved x).count c := by
  induction h with
  | @alternate p q a b _ _ iha ihb =>
    change ((ofExpr a).alternate (ofExpr b)).occurrences c = _
    rw [occurrences_alternate, iha, ihb, List.filter_append,
      List.filter_cons_of_neg (by decide), List.count_append]
  | @concat p q a b _ _ iha ihb =>
    change ((ofExpr a).concat (ofExpr b)).occurrences c = _
    rw [occurrences_concat, iha, ihb, List.filter_append, List.count_append]
  | @closure p e _ ih =>
    change (ofExpr e).closure.occurrences c = _
    rw [occurrences_closure, ih, List.filter_append, List.filter_cons_of_neg (by decide),
      List.filter_nil, List.append_nil]
  | @symbol x hx =>
    change (symbol x).occurrences c = _
    rw [occurrences_symbol, List.filter_cons_of_pos (by simpa using hx), List.filter_nil,
      List.count_singleton]
    simp
  | @group p e _ ih =>
    rw [ih, List.cons_append, List.filter_cons_of_neg (by decide), List.filter_append,
      List.filter_cons_of_neg (by decide), List.filter_nil, List.append_nil]
  | ofTerm _ ih => exact ih
  | ofFactor _ ih => exact ih
  | ofAtom _ ih => exact ih

theorem Fragment.occurrences_pos {n : Nfa} (hn : n.Fragment) {c : Char} (hc : c ∈ n.alphabet) :
    0 < n.occurrences c := by
  obtain ⟨m, hm, hl⟩ := (hn.consistent.mem_alphabet c).mp hc
  exact List.countP_pos_iff.mpr ⟨m, Array.mem_toList_iff.mpr hm, decide_eq_true hl⟩

end Nfa

/-- In a compiled pattern, a symbol of the fragment is on as many moves as it occurs. -/
theorem Regex.occurrences_of_ok {p : String} {n : Nfa} (h : Regex.ofPattern p = .ok ⟨n⟩)
    {c : Char} (hc : c ∈ n.alphabet) : n.occurrences c = p.toList.count c := by
  obtain ⟨e, he, heq⟩ := Regex.exists_derives_of_ok h
  obtain rfl : n = Nfa.ofExpr e := by simpa using heq
  have hcount := Nfa.occurrences_of_derives he c
  have hpos := (Nfa.fragment_ofExpr e).occurrences_pos hc
  rw [hcount] at hpos
  have hsymbol := List.of_mem_filter (List.count_pos_iff.mp hpos)
  rw [hcount, List.count_filter (p := fun x => ¬ Reserved x) hsymbol]

/-! ## Counting entries -/

/-- A set has one key. -/
theorem Numbering.Names.unique {num : Numbering} {key key' : List Nat} {P : Nat → Prop}
    (h : num.Names key P) (h' : num.Names key' P) : key = key' := by
  have hmem : ∀ {key key' : List Nat}, num.Names key P → num.Names key' P →
      ∀ i ∈ key, i ∈ key' := by
    intro key key' h h' i hi
    obtain ⟨q, hq, hP⟩ := h.sound i hi
    obtain ⟨j, hj, hq'⟩ := h'.complete q hP
    rw [hq, Option.some.injEq] at hq'
    exact hq' ▸ hj
  exact h.ascending.eq_of_mem_iff h'.ascending fun i => ⟨hmem h h' i, hmem h' h i⟩

namespace Nfa

/-- What an entry can be: a symbol, and some of the states where moves on it end. -/
def possibleEntries (n : Nfa) : Finset (Σ _ : Char, Finset Nat) :=
  n.alphabet.toFinset.sigma fun c => (n.targets c).powerset.erase ∅

theorem Fragment.card_possibleEntries_le {n : Nfa} (hn : n.Fragment) :
    n.possibleEntries.card ≤ (n.alphabet.map fun c => 2 ^ n.occurrences c - 1).sum := by
  have hcard : ∀ c, ((n.targets c).powerset.erase ∅).card ≤ 2 ^ n.occurrences c - 1 := by
    intro c
    rw [Finset.card_erase_of_mem (Finset.empty_mem_powerset _), Finset.card_powerset]
    exact Nat.sub_le_sub_right (Nat.pow_le_pow_right (by decide) (n.card_targets_le c)) 1
  rw [possibleEntries, Finset.card_sigma, ← List.sum_toFinset _ hn.consistent.nodup_alphabet]
  exact Finset.sum_le_sum fun c _ => hcard c

end Nfa

namespace Dfa

variable {d : Dfa} {n : Nfa}

theorem Entry.mem_possibleEntries {h : Nat} {c : Char} {T : Finset Nat} (he : d.Entry n h c T)
    (hn : n.Fragment) : ⟨c, T⟩ ∈ n.possibleEntries := by
  obtain ⟨t, ht⟩ := he.nonempty
  obtain ⟨m, hm, hl, -⟩ := Diagram.mem_targets.mp (he.subset ht)
  have hc : c ∈ n.alphabet := (hn.consistent.mem_alphabet c).mpr ⟨m, hm, hl⟩
  rw [Nfa.possibleEntries, Finset.mem_sigma, List.mem_toFinset, Finset.mem_erase,
    Finset.mem_powerset]
  exact ⟨hc, he.nonempty.ne_empty, he.subset⟩

section UpperBound

variable (hd : d.IsSubsetAutomaton n)
include hd

theorem IsSubsetAutomaton.card_erase_start :
    ((Finset.range d.states.size).erase d.start).card + 1 = d.states.size := by
  rw [Finset.card_erase_add_one (Finset.mem_range.mpr hd.start_lt), Finset.card_range]

/-- There are at most as many states besides the start as there can be entries. -/
theorem IsSubsetAutomaton.size_le (hc : d.toDiagram.Consistent) (hn : n.Fragment) :
    d.states.size ≤ 1 + (n.alphabet.map fun c => 2 ^ n.occurrences c - 1).sum := by
  have hcard : ((Finset.range d.states.size).erase d.start).card ≤ n.possibleEntries.card := by
    refine Finset.card_le_card_of_forall_subsingleton (fun h p => d.Entry n h p.1 p.2) ?_ ?_
    · intro h hh
      obtain ⟨hne, hlt⟩ := Finset.mem_erase.mp hh
      obtain ⟨c, T, he⟩ := hd.exists_entry_of_ne_start hc (Finset.mem_range.mp hlt) hne
      exact ⟨⟨c, T⟩, he.mem_possibleEntries hn, he⟩
    · -- States with one entry have one key.
      intro p _ h ⟨hh, he⟩ h' ⟨hh', he'⟩
      have hlt := Finset.mem_range.mp (Finset.mem_of_mem_erase hh)
      have hlt' := Finset.mem_range.mp (Finset.mem_of_mem_erase hh')
      exact hd.key_injective h hlt h' hlt' (he.names.unique he'.names)
  have hsize := hd.card_erase_start
  have hle := hn.card_possibleEntries_le
  omega

end UpperBound

end Dfa

/-! ## States that cannot be missing -/

/-- A path that spells two words in a row spells the one and then the other. -/
theorem Diagram.path_append_iff {d : Diagram} {s t : Nat} {u v : List Char} :
    d.Path s (u ++ v) t ↔ ∃ q, d.Path s u q ∧ d.Path q v t := by
  constructor
  · intro h
    induction u generalizing s with
    | nil => exact ⟨s, .nil s, h⟩
    | cons c u ih =>
      obtain ⟨q, r, hq, hr, hw⟩ := path_cons_iff.mp h
      obtain ⟨x, hx, hv⟩ := ih hw
      exact ⟨x, path_cons_iff.mpr ⟨q, r, hq, hr, hx⟩, hv⟩
  · intro ⟨q, hu, hv⟩
    exact hu.append hv

namespace Nfa

/-- Some word completes one of the words to one that the fragment reads, and not the other. -/
def Apart (n : Nfa) (u w : List Char) : Prop := ∃ v, ¬ (n.Reads (u ++ v) ↔ n.Reads (w ++ v))

theorem Fragment.apart_of_accepts_ne {n : Nfa} (hn : n.Fragment) {u w v : List Char}
    (h : n.automaton.accepts (u ++ v) ≠ n.automaton.accepts (w ++ v)) : n.Apart u w := by
  refine ⟨v, fun hiff => h ?_⟩
  rw [Bool.eq_iff_iff, hn.accepts_iff, hn.accepts_iff]
  exact hiff

end Nfa

namespace Dfa

section LowerBound

variable {d : Dfa} {n : Nfa} (hd : d.IsSubsetAutomaton n)
include hd

/-- Where a symbol leads on from a key, the state with that key has a move on it. -/
theorem IsSubsetAutomaton.exists_move_of_leadsTo {h q : Nat} {c : Char} (hlt : h < d.states.size)
    (hq : n.LeadsTo (d.key h) c q) : ∃ m ∈ d.movesFrom h, m.label = .symbol c := by
  obtain ⟨t, -, hfollow, -⟩ := hd.follow_singleton h hlt c ⟨q, hq⟩
  have hmem : t ∈ d.follow h (.symbol c) := by
    rw [hfollow]
    exact List.mem_singleton.mpr rfl
  obtain ⟨m, hm, hl, -⟩ := Diagram.mem_follow.mp hmem
  exact ⟨m, hm, hl⟩

/-- If a key names a set closed under epsilon moves, a word that leads on from one of its members
leads on from its state. -/
theorem IsSubsetAutomaton.exists_path {q t : Nat} {w : List Char} (hw : n.Path q w t) {h : Nat}
    (hlt : h < d.states.size) {P : Nat → Prop} (hP : n.automaton.numbering.Names (d.key h) P)
    (hclosed : ∀ q r, P q → n.Path q [] r → P r) (hq : P q) :
    ∃ h' < d.states.size, d.Path h w h' := by
  induction hw generalizing h P with
  | nil q => exact ⟨h, hlt, .nil h⟩
  | @cons q t m w hm hpath ih =>
    cases hl : m.label with
    | epsilon =>
      have hstep := Diagram.Path.single hm
      rw [hl] at hstep
      exact ih hlt hP hclosed (hclosed q m.target hq hstep)
    | symbol c =>
      have hfollow := Diagram.mem_follow.mpr ⟨m, hm, hl, rfl⟩
      have hleads := (Nfa.leadsTo_iff_of_names hP c m.target).mpr
        ⟨q, hq, m.target, hfollow, .nil m.target⟩
      obtain ⟨m', hm', hl'⟩ := hd.exists_move_of_leadsTo hlt hleads
      obtain ⟨c', hc', htarget, hnames⟩ := hd.names_target hlt hP hm'
      obtain rfl : c = c' := Label.symbol.inj (hl'.symm.trans hc')
      -- The symbol leads to a closed set again, and the move's target is a member of it.
      obtain ⟨h', hlt', hpath'⟩ := ih htarget hnames
        (fun q r ⟨p, hp, u, hu, huq⟩ hqr => ⟨p, hp, u, hu, huq.append hqr⟩)
        ⟨q, hq, m.target, hfollow, .nil m.target⟩
      have hcons := Diagram.Path.cons hm' hpath'
      rw [hl'] at hcons
      exact ⟨h', hlt', hcons⟩

/-- A word that leads somewhere in the fragment leads to a state, whose key names where. -/
theorem IsSubsetAutomaton.exists_names_of_path {q : Nat} {w : List Char}
    (hw : n.Path n.start w q) :
    ∃ h < d.states.size, n.automaton.numbering.Names (d.key h) fun q => n.Path n.start w q := by
  obtain ⟨h, hlt, hpath⟩ := hd.exists_path hw hd.start_lt hd.key_start
    (fun q r hq hqr => hq.append hqr) (.nil n.start)
  exact ⟨h, hlt, hd.names_of_path_start hpath⟩

/-- Each symbol of a fragment is on some move, since a path leads to where the fragment reads it. -/
theorem IsSubsetAutomaton.exists_move_of_mem_alphabet (hn : n.Fragment) (ht : n.Through)
    {c : Char} (hc : c ∈ n.alphabet) :
    ∃ h < d.states.size, ∃ m ∈ d.movesFrom h, m.label = .symbol c := by
  obtain ⟨m, hm, hl⟩ := (hn.consistent.mem_alphabet c).mp hc
  obtain ⟨w, hw⟩ := (ht m.source (hn.consistent.source_lt m hm)).1
  obtain ⟨h, hlt, hnames⟩ := hd.exists_names_of_path hw
  have hfollow : m.target ∈ n.follow m.source (.symbol c) :=
    Diagram.mem_follow.mpr ⟨m, hn.consistent.mem_movesFrom.mpr ⟨hm, rfl⟩, hl, rfl⟩
  have hleads := (Nfa.leadsTo_iff_of_names hnames c m.target).mpr
    ⟨m.source, hw, m.target, hfollow, .nil m.target⟩
  exact ⟨h, hlt, hd.exists_move_of_leadsTo hlt hleads⟩

/-- Each symbol of a fragment is in the entry of some state. -/
theorem IsSubsetAutomaton.exists_entry_of_mem_alphabet (hn : n.Fragment) (ht : n.Through)
    {c : Char} (hc : c ∈ n.alphabet) : ∃ h < d.states.size, ∃ T, d.Entry n h c T := by
  obtain ⟨h, hlt, m, hm, hl⟩ := hd.exists_move_of_mem_alphabet hn ht hc
  obtain ⟨c', T, hc', he⟩ := hd.exists_entry hlt hm
  obtain rfl : c = c' := Label.symbol.inj (hl.symm.trans hc')
  obtain ⟨-, -, htarget, -⟩ := hd.names_target hlt (hd.names_self hlt) hm
  exact ⟨m.target, htarget, T, he⟩

/-- There are at least as many states besides the start as there are symbols. -/
theorem IsSubsetAutomaton.le_size (hn : n.Fragment) (hs : n.Shape) (hsol : n.Solitary)
    (ht : n.Through) : 1 + n.alphabet.length ≤ d.states.size := by
  have hcard : n.alphabet.toFinset.card ≤ ((Finset.range d.states.size).erase d.start).card := by
    refine Finset.card_le_card_of_forall_subsingleton (fun c h => ∃ T, d.Entry n h c T) ?_ ?_
    · intro c hc
      obtain ⟨h, hlt, T, he⟩ := hd.exists_entry_of_mem_alphabet hn ht (List.mem_toFinset.mp hc)
      have hne : h ≠ d.start := by
        rintro rfl
        exact he.not_named_start hn hs (hd.key_start.complete n.start (.nil n.start))
      exact ⟨h, Finset.mem_erase.mpr ⟨hne, Finset.mem_range.mpr hlt⟩, T, he⟩
    · -- A state has entries on one symbol only.
      intro h _ c ⟨_, T, he⟩ c' ⟨_, T', he'⟩
      exact he.symbol_unique he' hsol
  rw [List.toFinset_card_of_nodup hn.consistent.nodup_alphabet] at hcard
  have hsize := hd.card_erase_start
  omega

/-- Words that a reader must tell apart lead to different states. -/
theorem IsSubsetAutomaton.length_le_size (words : List (List Char))
    (hlive : ∀ w ∈ words, ∃ v, n.Reads (w ++ v)) (hapart : words.Pairwise n.Apart) :
    words.length ≤ d.states.size := by
  have hstate : ∀ w, ∃ h, w ∈ words → h < d.states.size ∧
      n.automaton.numbering.Names (d.key h) fun q => n.Path n.start w q := by
    intro w
    by_cases hw : w ∈ words
    · obtain ⟨v, hv⟩ := hlive w hw
      obtain ⟨q, hq, -⟩ := Diagram.path_append_iff.mp hv
      obtain ⟨h, hlt, hnames⟩ := hd.exists_names_of_path hq
      exact ⟨h, fun _ => ⟨hlt, hnames⟩⟩
    · exact ⟨0, fun hmem => absurd hmem hw⟩
  choose state hstate using hstate
  have hnodup : (words.map state).Nodup := by
    refine List.pairwise_map.mpr (hapart.imp_of_mem ?_)
    intro u w hu hw ⟨v, hv⟩ heq
    -- What leads to one state leads to the same states of the fragment, and so goes on alike.
    have hnames := (hstate u hu).2
    rw [heq] at hnames
    have hiff := fun q => (Nfa.exists_id?_iff_of_names hnames q).symm.trans
      (Nfa.exists_id?_iff_of_names (hstate w hw).2 q)
    refine hv ?_
    unfold Nfa.Reads
    simp only [Diagram.path_append_iff, hiff]
  have hsub : words.map state ⊆ List.range d.states.size := by
    intro h hh
    obtain ⟨w, hw, rfl⟩ := List.mem_map.mp hh
    exact List.mem_range.mpr (hstate w hw).1
  have hlen := (List.subperm_of_subset hnodup hsub).length_le
  rwa [List.length_map, List.length_range] at hlen

end LowerBound

end Dfa

/-- Determinizing a fragment comes to an end, and each state it makes is expanded once. Besides the
start there is at most one state for each symbol and each non-empty choice of moves on it, and just
one for each symbol if each is on one move. In the fragment of a pattern a symbol is on as many
moves as it occurs in the pattern. -/
theorem stateCount_of_built (n : Nfa) (h : n.Built) :
    (∃ s, Worklist.Drains n n.automaton.numbering (Worklist.initial n n.automaton.numbering)
        (List.range s.dfa.states.size) s ∧ Dfa.ofNfa n = s.dfa) ∧
    (Dfa.ofNfa n).states.size ≤ 1 + (n.alphabet.map fun c => 2 ^ n.occurrences c - 1).sum ∧
    ((∀ c ∈ n.alphabet, n.occurrences c = 1) →
      (Dfa.ofNfa n).states.size = 1 + n.alphabet.length) ∧
    ∀ p, Regex.ofPattern p = .ok ⟨n⟩ → ∀ c ∈ n.alphabet, n.occurrences c = p.toList.count c := by
  have hn := h.fragment
  obtain ⟨s, heq, hp, hac⟩ := Subsets.accessible_ofNfa hn
  have hd := hp.isSubsetAutomaton hn h.through hac
  have hle := hd.size_le hp.consistent hn
  refine ⟨Subsets.drains_ofNfa hn, heq ▸ hle, ?_, fun p hok c hc => Regex.occurrences_of_ok hok hc⟩
  intro hone
  have hsum : (n.alphabet.map fun c => 2 ^ n.occurrences c - 1).sum = n.alphabet.length := by
    have hmap : (n.alphabet.map fun c => 2 ^ n.occurrences c - 1) = n.alphabet.map fun _ => 1 :=
      List.map_congr_left fun c hc => by simp [hone c hc]
    simp [hmap]
  have hge := hd.le_size hn h.shape h.solitary h.through
  rw [hsum] at hle
  rw [heq]
  omega

/-- One of its symbols is on two moves, and each choice of them is what some state stands for. -/
def Nfa.twoChoices : Nfa :=
  ((symbol 'a').concat (symbol 'b')).closure.alternate (symbol 'a').closure

/-- Words that lead to its states. -/
def Nfa.fiveWords : List (List Char) :=
  [[], ['a'], ['a', 'b'], ['a', 'a'], ['a', 'b', 'a']]

/-- The bound is attained: the five words must be told apart. -/
theorem stateCount_of_built_twoChoices :
    Nfa.twoChoices.Built ∧
    (∃ s, Worklist.Drains Nfa.twoChoices Nfa.twoChoices.automaton.numbering
        (Worklist.initial Nfa.twoChoices Nfa.twoChoices.automaton.numbering)
        (List.range s.dfa.states.size) s ∧ Dfa.ofNfa Nfa.twoChoices = s.dfa) ∧
    (Dfa.ofNfa Nfa.twoChoices).states.size =
      1 + (Nfa.twoChoices.alphabet.map fun c => 2 ^ Nfa.twoChoices.occurrences c - 1).sum ∧
    Regex.ofPattern "(ab)*|a*" = .ok ⟨Nfa.twoChoices⟩ ∧
    Nfa.twoChoices.occurrences 'a' = "(ab)*|a*".toList.count 'a' := by
  have hbuilt : Nfa.twoChoices.Built :=
    .alternate (.closure (.concat (.symbol 'a') (.symbol 'b'))) (.closure (.symbol 'a'))
  have hok : Regex.ofPattern "(ab)*|a*" = .ok ⟨Nfa.twoChoices⟩ := by decide +kernel
  obtain ⟨hdrains, hle, -, hpattern⟩ := stateCount_of_built Nfa.twoChoices hbuilt
  refine ⟨hbuilt, hdrains, Nat.le_antisymm hle ?_, hok, hpattern _ hok 'a' (by decide)⟩
  have hd := hbuilt.isSubsetAutomaton
  have hbound : 1 + (Nfa.twoChoices.alphabet.map fun c =>
      2 ^ Nfa.twoChoices.occurrences c - 1).sum = Nfa.fiveWords.length := by decide +kernel
  rw [hbound]
  refine hd.length_le_size Nfa.fiveWords ?_ ?_
  · have hlive : ∀ w ∈ Nfa.fiveWords, ∃ v ∈ [[], ['b']],
        Nfa.twoChoices.automaton.accepts (w ++ v) = true := by decide +kernel
    intro w hw
    obtain ⟨v, -, hv⟩ := hlive w hw
    exact ⟨v, (hbuilt.fragment.accepts_iff _).mp hv⟩
  · have hapart : Nfa.fiveWords.Pairwise fun u w =>
        ∃ v ∈ [[], ['a'], ['b'], ['a', 'b']], Nfa.twoChoices.automaton.accepts (u ++ v) ≠
          Nfa.twoChoices.automaton.accepts (w ++ v) := by decide +kernel
    exact hapart.imp fun ⟨v, _, hv⟩ => hbuilt.fragment.apart_of_accepts_ne hv

end PatternAutomata
