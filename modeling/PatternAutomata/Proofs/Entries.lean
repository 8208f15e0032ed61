/-
  How states are entered. In a fragment no move ends at the start, and where a move
  that reads a symbol ends no other move does (`Solitary`), so epsilon moves lead to
  such a state from nowhere else. In a deterministic automaton each state but the
  start has an entry (`Entry`): its key names what epsilon moves lead to from some
  states where moves on one symbol end. The symbol is the same for all entries of
  the state, and the key never names the start of the fragment.
-/
import Mathlib.Data.Finset.Dedup
import Mathlib.Data.Finset.Filter
import Mathlib.Data.Finset.Empty
import PatternAutomata.Proofs.Shape
import PatternAutomata.Proofs.SubsetAutomaton

namespace PatternAutomata

namespace Diagram

variable {d : Diagram}

/-- The states where moves on the symbol end. -/
def targets (d : Diagram) (c : Char) : Finset Nat :=
  ((d.moves.toList.filter fun m => m.label = .symbol c).map Move.target).toFinset

theorem mem_targets {c : Char} {t : Nat} :
    t ∈ d.targets c ↔ ∃ m ∈ d.moves, m.label = .symbol c ∧ m.target = t := by
  simp [targets, and_assoc]

theorem mem_targets_of_mem_follow {s t : Nat} {c : Char} (h : t ∈ d.follow s (.symbol c)) :
    t ∈ d.targets c := by
  obtain ⟨m, hm, hl, ht⟩ := mem_follow.mp h
  exact mem_targets.mpr ⟨m, mem_moves_of_mem_movesFrom hm, hl, ht⟩

/-- Epsilon moves lead to a state where none of them ends only from that state itself. -/
theorem eq_of_path_nil {s t : Nat} (hnone : ∀ m ∈ d.moves, m.label = .epsilon → m.target ≠ t)
    (h : d.Path s [] t) : s = t := by
  rcases Relation.ReflTransGen.cases_tail (path_nil_iff.mp h) with heq | ⟨q, -, hq⟩
  · exact heq.symm
  · obtain ⟨m, hm, hl, ht⟩ := mem_follow.mp hq
    exact absurd ht (hnone m (mem_moves_of_mem_movesFrom hm) hl)

/-- A state that can be reached from another one is entered. -/
theorem Reaches.exists_into {s t : Nat} (h : d.Reaches s t) (hne : s ≠ t) :
    ∃ q, ∃ m ∈ d.movesFrom q, m.target = t := by
  rcases Relation.ReflTransGen.cases_tail (reaches_iff.mp h) with heq | ⟨q, -, hq⟩
  · exact absurd heq.symm hne
  · exact ⟨q, mem_successors.mp hq⟩

end Diagram

/-! ## Fragments -/

namespace Nfa

/-- Where a move that reads a symbol ends, no other move does. -/
def Solitary (n : Nfa) : Prop :=
  ∀ m ∈ n.moves, ∀ c, m.label = .symbol c → ∀ m' ∈ n.moves, m'.target = m.target → m' = m

section Solitary

variable {a b e : Nfa} {k : Nat} {leaving entering : List Move}

/-- Moves are only added where the operand starts, and there no move of the operand ends. -/
theorem Solitary.of_operand (hsol : a.Solitary) (ha : a.Fragment) (hs : a.Shape)
    (ho : Operand a k e leaving entering) {m : Move} (hm : m ∈ a.moves) {c : Char}
    (hl : m.label = .symbol c) {m' : Move} (hm' : m' ∈ e.moves)
    (ht : m'.target = (m.shift k).target) : m' = m.shift k := by
  have hne : a.start ≠ m.target := Ne.symm ((ha.thompson hs).target_ne_start m hm)
  have hmem : m' ∈ e.movesAt Move.target (m.target + k) :=
    List.mem_filter.mpr ⟨Array.mem_toList_iff.mpr hm', decide_eq_true ht⟩
  rw [ho.target _ (ha.consistent.target_lt m hm), if_neg hne, List.append_nil] at hmem
  obtain ⟨m₀, hm₀, rfl⟩ := List.mem_map.mp hmem
  obtain ⟨hm₀, ht₀⟩ := List.mem_filter.mp hm₀
  rw [hsol m hm c hl m₀ (Array.mem_toList_iff.mp hm₀) (of_decide_eq_true ht₀)]

theorem solitary_symbol (c : Char) : (symbol c).Solitary := by
  intro m hm _ _ m' hm' _
  rw [mem_moves_symbol.mp hm, mem_moves_symbol.mp hm']

/-! A move of a combination that reads a symbol is one of an operand. -/

theorem Solitary.alternate (ha : a.Fragment) (hb : b.Fragment) (hsa : a.Solitary)
    (hsb : b.Solitary) (hsha : a.Shape) (hshb : b.Shape) : (a.alternate b).Solitary := by
  intro m hm c hl m' hm' ht
  rcases mem_moves_alternate.mp hm with hm | ⟨m₀, hm₀, rfl⟩ | rfl | rfl | rfl | rfl
  · exact hsa.of_operand ha hsha (ha.operand_alternate_left b) hm hl hm' ht
  · exact hsb.of_operand hb hshb (ha.operand_alternate_right b) hm₀ hl hm' ht
  all_goals
    cases hl

theorem Solitary.concat (ha : a.Fragment) (hb : b.Fragment) (hsa : a.Solitary)
    (hsb : b.Solitary) (hsha : a.Shape) (hshb : b.Shape) : (a.concat b).Solitary := by
  intro m hm c hl m' hm' ht
  rcases mem_moves_concat.mp hm with hm | ⟨m₀, hm₀, rfl⟩ | rfl
  · exact hsa.of_operand ha hsha (operand_concat_left a b) hm hl hm' ht
  · exact hsb.of_operand hb hshb (ha.operand_concat_right b) hm₀ hl hm' ht
  · cases hl

theorem Solitary.closure (ha : a.Fragment) (hsa : a.Solitary) (hsha : a.Shape) :
    a.closure.Solitary := by
  intro m hm c hl m' hm' ht
  rcases mem_moves_closure.mp hm with hm | rfl | rfl | rfl | rfl
  · exact hsa.of_operand ha hsha ha.operand_closure hm hl hm' ht
  all_goals
    cases hl

end Solitary

theorem solitary_ofExpr (e : Expr) : (ofExpr e).Solitary := by
  induction e with
  | symbol c => exact solitary_symbol c
  | alternate a b iha ihb =>
    exact .alternate (fragment_ofExpr a) (fragment_ofExpr b) iha ihb (shape_ofExpr a)
      (shape_ofExpr b)
  | concat a b iha ihb =>
    exact .concat (fragment_ofExpr a) (fragment_ofExpr b) iha ihb (shape_ofExpr a) (shape_ofExpr b)
  | closure a ih => exact .closure (fragment_ofExpr a) ih (shape_ofExpr a)

theorem Built.solitary {n : Nfa} (h : n.Built) : n.Solitary := by
  obtain ⟨e, rfl⟩ := exists_ofExpr_of_built h
  exact solitary_ofExpr e

/-- Epsilon moves lead to the start of a fragment only from there. -/
theorem Shape.eq_start_of_path_nil {n : Nfa} (hn : n.Fragment) (hs : n.Shape) {t : Nat}
    (h : n.Path t [] n.start) : t = n.start :=
  Diagram.eq_of_path_nil (fun m hm _ => (hn.thompson hs).target_ne_start m hm) h

/-- Epsilon moves lead to where a move on a symbol ends only from there. -/
theorem Solitary.eq_of_path_nil {n : Nfa} (hsol : n.Solitary) {c : Char} {t q : Nat}
    (hq : q ∈ n.targets c) (h : n.Path t [] q) : t = q := by
  obtain ⟨m, hm, hl, rfl⟩ := Diagram.mem_targets.mp hq
  refine Diagram.eq_of_path_nil (fun m' hm' hl' ht => ?_) h
  rw [hsol m hm c hl m' hm' ht, hl] at hl'
  cases hl'

/-- Moves on different symbols end at different states. -/
theorem Solitary.eq_of_mem_targets {n : Nfa} (hsol : n.Solitary) {c c' : Char} {q : Nat}
    (hq : q ∈ n.targets c) (hq' : q ∈ n.targets c') : c = c' := by
  obtain ⟨m, hm, hl, rfl⟩ := Diagram.mem_targets.mp hq
  obtain ⟨m', hm', hl', ht⟩ := Diagram.mem_targets.mp hq'
  rw [hsol m hm c hl m' hm' ht, hl, Label.symbol.injEq] at hl'
  exact hl'

/-- A key that names the states with a property says which states have it. -/
theorem exists_id?_iff_of_names {n : Nfa} {key : List Nat} {P : Nat → Prop}
    (h : n.automaton.numbering.Names key P) (q : Nat) :
    (∃ i ∈ key, n.automaton.numbering.id? q = some i) ↔ P q := by
  constructor
  · intro ⟨i, hi, hq⟩
    obtain ⟨r, hr, hP⟩ := h.sound i hi
    rw [Numbering.id?_injective (Automaton.valid_numbering _) hq hr]
    exact hP
  · exact h.complete q

end Nfa

/-! ## Deterministic automata -/

namespace Dfa

/-- The key of the state names what epsilon moves lead to from `T`, which are states of the fragment
where moves on the symbol end. -/
structure Entry (d : Dfa) (n : Nfa) (h : Nat) (c : Char) (T : Finset Nat) : Prop where
  nonempty : T.Nonempty
  subset : T ⊆ n.targets c
  names : n.automaton.numbering.Names (d.key h) fun q => ∃ t ∈ T, n.Path t [] q

section Entry

variable {d : Dfa} {n : Nfa} {h : Nat} {c c' : Char} {T T' : Finset Nat}

theorem Entry.not_named_start (he : d.Entry n h c T) (hn : n.Fragment) (hs : n.Shape) :
    ¬ ∃ i ∈ d.key h, n.automaton.numbering.id? n.start = some i := by
  rw [Nfa.exists_id?_iff_of_names he.names]
  intro ⟨t, ht, hpath⟩
  obtain ⟨m, hm, -, heq⟩ := Diagram.mem_targets.mp (he.subset ht)
  rw [hs.eq_start_of_path_nil hn hpath] at heq
  exact (hn.thompson hs).target_ne_start m hm heq

theorem Entry.symbol_unique (he : d.Entry n h c T) (he' : d.Entry n h c' T')
    (hsol : n.Solitary) : c = c' := by
  obtain ⟨t, ht⟩ := he.nonempty
  have hnamed := (Nfa.exists_id?_iff_of_names he.names t).mpr ⟨t, ht, .nil t⟩
  obtain ⟨t', ht', hpath⟩ := (Nfa.exists_id?_iff_of_names he'.names t).mp hnamed
  rw [hsol.eq_of_path_nil (he.subset ht) hpath] at ht'
  exact hsol.eq_of_mem_targets (he.subset ht) (he'.subset ht')

variable (hd : d.IsSubsetAutomaton n)
include hd

theorem IsSubsetAutomaton.names_self (hlt : h < d.states.size) :
    n.automaton.numbering.Names (d.key h) fun q =>
      ∃ i ∈ d.key h, n.automaton.numbering.id? q = some i where
  ascending := hd.ascending h hlt
  sound i hi := by
    obtain ⟨q, hq⟩ := hd.identifiers h hlt i hi
    exact ⟨q, hq, i, hi, hq⟩
  complete _ hq := hq

/-- A move of the automaton is an entry of the state it leads to. -/
theorem IsSubsetAutomaton.exists_entry (hlt : h < d.states.size) {m : Move}
    (hm : m ∈ d.movesFrom h) : ∃ c T, m.label = .symbol c ∧ d.Entry n m.target c T := by
  classical
  obtain ⟨c, hl, htarget, hnames⟩ := hd.names_target hlt (hd.names_self hlt) hm
  -- What the symbol leads to from the states that the key of `h` names.
  let T := (n.targets c).filter fun t =>
    ∃ r, (∃ i ∈ d.key h, n.automaton.numbering.id? r = some i) ∧ t ∈ n.follow r (.symbol c)
  have hT : n.automaton.numbering.Names (d.key m.target) fun q => ∃ t ∈ T, n.Path t [] q := by
    refine hnames.congr fun q => ?_
    constructor
    · intro ⟨r, hr, t, ht, hq⟩
      have hmem := Diagram.mem_targets_of_mem_follow ht
      exact ⟨t, Finset.mem_filter.mpr ⟨hmem, r, hr, ht⟩, hq⟩
    · intro ⟨t, ht, hq⟩
      obtain ⟨-, r, hr, ht⟩ := Finset.mem_filter.mp ht
      exact ⟨r, hr, t, ht, hq⟩
  obtain ⟨i, hi⟩ := List.exists_mem_of_ne_nil _ (hd.key_ne_nil m.target htarget)
  obtain ⟨-, -, t, ht, -⟩ := hT.sound i hi
  exact ⟨c, T, hl, ⟨t, ht⟩, Finset.filter_subset _ _, hT⟩

/-- Every state but the start has an entry. -/
theorem IsSubsetAutomaton.exists_entry_of_ne_start (hc : d.toDiagram.Consistent)
    (hlt : h < d.states.size) (hne : h ≠ d.start) : ∃ c T, d.Entry n h c T := by
  obtain ⟨q, m, hm, rfl⟩ := (hd.accessible h hlt).exists_into (Ne.symm hne)
  obtain ⟨hmem, rfl⟩ := hc.mem_movesFrom.mp hm
  obtain ⟨c, T, -, he⟩ := hd.exists_entry (hc.source_lt m hmem) hm
  exact ⟨c, T, he⟩

/-- The key of a state names the start of the fragment if it is the start that has this key. -/
theorem IsSubsetAutomaton.exists_id?_start_iff (hc : d.toDiagram.Consistent) (hn : n.Fragment)
    (hs : n.Shape) (hlt : h < d.states.size) :
    (∃ i ∈ d.key h, n.automaton.numbering.id? n.start = some i) ↔ h = d.start := by
  constructor
  · intro hnamed
    by_contra hne
    obtain ⟨c, T, he⟩ := hd.exists_entry_of_ne_start hc hlt hne
    exact he.not_named_start hn hs hnamed
  · rintro rfl
    exact hd.key_start.complete n.start (.nil n.start)

section Moves

variable (hc : d.toDiagram.Consistent)
include hc

theorem IsSubsetAutomaton.exists_entry_of_mem {m : Move} (hm : m ∈ d.moves) :
    ∃ c T, m.label = .symbol c ∧ d.Entry n m.target c T :=
  hd.exists_entry (hc.source_lt m hm) (hc.mem_movesFrom.mpr ⟨hm, rfl⟩)

theorem IsSubsetAutomaton.target_ne_start (hn : n.Fragment) (hs : n.Shape) {m : Move}
    (hm : m ∈ d.moves) : m.target ≠ d.start := by
  intro heq
  obtain ⟨c, T, -, he⟩ := hd.exists_entry_of_mem hc hm
  refine he.not_named_start hn hs ?_
  exact (hd.exists_id?_start_iff hc hn hs (hc.target_lt m hm)).mpr heq

theorem IsSubsetAutomaton.movesInto_ne_nil (hlt : h < d.states.size) (hne : h ≠ d.start) :
    d.movesInto h ≠ [] := by
  obtain ⟨q, m, hm, ht⟩ := (hd.accessible h hlt).exists_into (Ne.symm hne)
  have hmem := Diagram.mem_moves_of_mem_movesFrom hm
  rw [hc.movesInto_eq_filter]
  exact List.ne_nil_of_mem
    (List.mem_filter.mpr ⟨Array.mem_toList_iff.mpr hmem, decide_eq_true ht⟩)

/-- The moves that enter a state read the symbol of its entries. -/
theorem IsSubsetAutomaton.label_eq_of_entry (hsol : n.Solitary) (he : d.Entry n h c T) {m : Move}
    (hm : m ∈ d.moves) (ht : m.target = h) : m.label = .symbol c := by
  obtain ⟨c', T', hl, he'⟩ := hd.exists_entry_of_mem hc hm
  rw [ht] at he'
  rw [hl, he'.symbol_unique he hsol]

end Moves

end Entry

end Dfa

namespace Automaton

/-- The start alone has the start mark, and no move enters it. Every other state is entered, and by
moves on one symbol only. -/
structure Entries (a : Automaton) : Prop where
  start_lt : a.start < a.states.size
  isStart_iff : ∀ h < a.states.size, (a.state h).isStart = true ↔ h = a.start
  target_ne_start : ∀ m ∈ a.moves, m.target ≠ a.start
  movesInto_start : a.movesInto a.start = []
  movesInto_ne_nil : ∀ h < a.states.size, h ≠ a.start → a.movesInto h ≠ []
  one_symbol : ∀ h < a.states.size, h ≠ a.start →
    ∃ c, ∀ m ∈ a.moves, m.target = h → m.label = .symbol c

end Automaton

namespace Subsets

variable {n : Nfa} {s : Subsets} {h : Nat}

/-- A state has the start mark if its key names the start of the fragment. -/
theorem Progress.isStart_iff_key (hp : Progress n s.dfa.states.size s) (hn : n.Fragment)
    (hlt : h < s.dfa.states.size) :
    (s.dfa.state h).isStart = true ↔
      ∃ i ∈ s.dfa.key h, n.automaton.numbering.id? n.start = some i := by
  obtain ⟨k, hk⟩ := hp.exists_standsFor hlt
  rw [Nfa.exists_id?_iff_of_names (hp.names hn hk)]
  refine (hp.isStart_iff hk).trans ?_
  simp only [hn.isStart_iff, exists_eq_right]

theorem Progress.entries (hp : Progress n s.dfa.states.size s) (hd : s.dfa.IsSubsetAutomaton n)
    (hn : n.Fragment) (hs : n.Shape) (hsol : n.Solitary) : s.dfa.Entries where
  start_lt := hd.start_lt
  isStart_iff h hlt := by
    rw [hp.isStart_iff_key hn hlt]
    exact hd.exists_id?_start_iff hp.consistent hn hs hlt
  target_ne_start m hm := hd.target_ne_start hp.consistent hn hs hm
  movesInto_start := by
    rw [hp.consistent.movesInto_eq_filter, List.filter_eq_nil_iff]
    intro m hm
    simpa using hd.target_ne_start hp.consistent hn hs (Array.mem_toList_iff.mp hm)
  movesInto_ne_nil h hlt hne := hd.movesInto_ne_nil hp.consistent hlt hne
  one_symbol h hlt hne := by
    obtain ⟨c, T, he⟩ := hd.exists_entry_of_ne_start hp.consistent hlt hne
    exact ⟨c, fun m hm ht => hd.label_eq_of_entry hp.consistent hsol he hm ht⟩

end Subsets

/-- In the deterministic automaton of a fragment the start alone is marked as such and is never
entered, and each other state is entered by moves on one symbol. -/
theorem entries_of_built (n : Nfa) (h : n.Built) : (Dfa.ofNfa n).Entries := by
  have hn := h.fragment
  obtain ⟨s, heq, hp, hac⟩ := Subsets.accessible_ofNfa hn
  rw [heq]
  exact hp.entries (hp.isSubsetAutomaton hn h.through hac) hn h.shape h.solitary

theorem entries_of_built_repeated :
    (((Nfa.symbol 'a').alternate (Nfa.symbol 'b')).closure.concat (Nfa.symbol 'a')).Built ∧
      (Dfa.ofNfa (((Nfa.symbol 'a').alternate (Nfa.symbol 'b')).closure.concat
        (Nfa.symbol 'a'))).Entries := by
  have hbuilt : (((Nfa.symbol 'a').alternate (Nfa.symbol 'b')).closure.concat
      (Nfa.symbol 'a')).Built :=
    .concat (.closure (.alternate (.symbol 'a') (.symbol 'b'))) (.symbol 'a')
  exact ⟨hbuilt, entries_of_built _ hbuilt⟩

end PatternAutomata
