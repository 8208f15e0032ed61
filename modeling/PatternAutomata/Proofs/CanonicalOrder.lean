/-
  Deterministic automata come in canonical order. States are made in the order in
  which the moves made so far name them for the first time, and moves state by
  state (`Ordered`). So the order of creation is one that breadth-first search from
  the start follows too, and states are numbered as they are made. Along the
  moves, sources ascend, and at one source the symbols as the alphabet lists them
  (`pairwise_moves`).
-/
import PatternAutomata.Proofs.BreadthFirst

namespace PatternAutomata

/-! ## The order of creation -/

namespace Subsets

variable {n : Nfa} {s : Subsets} {h : Nat}

/-- While state `h` is under way: the moves are those of the states up to it, state by state; the
states are made as moves name them for the first time; and a move leads to each from one before. -/
structure Ordered (h : Nat) (s : Subsets) : Prop where
  moves : s.dfa.moves.toList = (List.range (h + 1)).flatMap s.dfa.movesFrom
  states : (0 :: s.dfa.moves.toList.map Move.target).eraseDups = List.range s.dfa.states.size
  entered : ∀ i < s.dfa.states.size, i ≠ 0 → ∃ m ∈ s.dfa.moves, m.target = i ∧ m.source < i

theorem ordered_initial (n : Nfa) : Ordered 0 (initial n n.automaton.numbering) where
  moves := by
    have hnone := movesFrom_make (sound_empty n) (n.configuration n.automaton.numbering [n.start]) 0
    unfold initial
    rw [List.range_one, List.flatMap_singleton, hnone]
    rfl
  states := rfl
  entered i hi hne := by
    unfold initial at hi
    rw [size_states_make] at hi
    exact absurd (Nat.lt_one_iff.mp hi) hne

theorem Ordered.next (ho : Ordered h s) (hp : Progress n (h + 1) s) : Ordered (h + 1) s where
  moves := by
    rw [List.range_succ, List.flatMap_append, ← ho.moves, List.flatMap_singleton,
      hp.idle (h + 1) (Nat.le_refl _), List.append_nil]
  states := ho.states
  entered := ho.entered

theorem toList_moves_link (s : Subsets) (h target : Nat) (c : Char) :
    (s.link h target c).dfa.moves.toList = s.dfa.moves.toList ++ [⟨h, target, .symbol c⟩] := by
  unfold link Diagram.addMove
  exact Array.toList_push

/-- A move more for the state under way stands last among the moves, and last among its own. -/
theorem moves_link_eq_flatMap (hs : Sound n s)
    (hmoves : s.dfa.moves.toList = (List.range (h + 1)).flatMap s.dfa.movesFrom) {target : Nat}
    (hh : h < s.dfa.states.size) (ht : target < s.dfa.states.size) (c : Char) :
    (s.link h target c).dfa.moves.toList =
      (List.range (h + 1)).flatMap (s.link h target c).dfa.movesFrom := by
  have hbefore : (List.range h).flatMap (s.link h target c).dfa.movesFrom =
      (List.range h).flatMap s.dfa.movesFrom := by
    refine List.flatMap_congr fun i hi => ?_
    have hlt := List.mem_range.mp hi
    rw [movesFrom_link hs hh ht, if_neg (by omega), List.append_nil]
  rw [toList_moves_link, hmoves, List.range_succ, List.flatMap_append, List.flatMap_append,
    hbefore, List.flatMap_singleton, List.flatMap_singleton, movesFrom_link hs hh ht, if_pos rfl,
    List.append_assoc]

theorem targets_link (s : Subsets) (h target : Nat) (c : Char) :
    0 :: (s.link h target c).dfa.moves.toList.map Move.target =
      (0 :: s.dfa.moves.toList.map Move.target) ++ [target] := by
  rw [toList_moves_link, List.map_append]
  rfl

theorem mem_moves_link {s : Subsets} {h target : Nat} {c : Char} {m : Move} :
    m ∈ (s.link h target c).dfa.moves ↔ m ∈ s.dfa.moves ∨ m = ⟨h, target, .symbol c⟩ := by
  rw [← Array.mem_toList_iff, toList_moves_link, List.mem_append, Array.mem_toList_iff,
    List.mem_singleton]

theorem Ordered.mem_targets_iff (ho : Ordered h s) {i : Nat} :
    i ∈ 0 :: s.dfa.moves.toList.map Move.target ↔ i < s.dfa.states.size := by
  rw [← List.mem_eraseDups, ho.states, List.mem_range]

/-- A move to a state that has been made names no new one. -/
theorem Ordered.link (hs : Sound n s) (ho : Ordered h s) {target : Nat}
    (hh : h < s.dfa.states.size) (ht : target < s.dfa.states.size) (c : Char) :
    Ordered h (s.link h target c) where
  moves := moves_link_eq_flatMap hs ho.moves hh ht c
  states := by
    rw [targets_link, eraseDups_concat, if_pos (ho.mem_targets_iff.mpr ht), ho.states,
      size_states_link]
  entered i hi hne := by
    rw [size_states_link] at hi
    obtain ⟨m, hm, hmi⟩ := ho.entered i hi hne
    exact ⟨m, mem_moves_link.mpr (Or.inl hm), hmi⟩

/-- A move to a state made for the occasion names it for the first time. -/
theorem Ordered.make_link (hs : Sound n s) (ho : Ordered h s) {k : Configuration}
    (hk : n.IsConfiguration k) (hnew : s.made[k.key]? = none) (hh : h < s.dfa.states.size)
    (c : Char) : Ordered h ((s.make n k).link h s.dfa.states.size c) where
  moves := by
    have hsize := size_states_make n s k
    refine moves_link_eq_flatMap (hs.make hk hnew) ?_ (by omega) (by omega) c
    rw [List.flatMap_congr fun i _ => movesFrom_make hs k i]
    exact ho.moves
  states := by
    have hunnamed := mt ho.mem_targets_iff.mp (Nat.lt_irrefl s.dfa.states.size)
    rw [targets_link, size_states_link, size_states_make, List.range_succ, ← ho.states]
    exact (eraseDups_concat _ _).trans (if_neg hunnamed)
  entered i hi hne := by
    rw [size_states_link, size_states_make] at hi
    rcases Nat.lt_succ_iff_lt_or_eq.mp hi with hi | rfl
    · obtain ⟨m, hm, hmi⟩ := ho.entered i hi hne
      exact ⟨m, mem_moves_link.mpr (Or.inl hm), hmi⟩
    · exact ⟨_, mem_moves_link.mpr (Or.inr rfl), rfl, hh⟩

theorem Ordered.extend (hn : n.Fragment) (ho : Ordered h s) (hs : Sound n s) {k : Configuration}
    (hk : s.dfa.StandsFor h k) (c : Char) :
    Ordered h (extend n n.automaton.numbering h k.members s c) := by
  have hh := hs.lt_of_standsFor hk
  rcases extend_cases hs h k c with
    ⟨-, heq⟩ | ⟨k', hne, hk', ⟨target, k'', hk'', -, heq⟩ | ⟨hnew, heq⟩⟩
  · rw [heq]
    exact ho
  · rw [heq]
    exact ho.link hs hh (hs.lt_of_standsFor hk'') c
  · rw [heq]
    exact ho.make_link hs (hk' ▸ (hs.isConfiguration hk).followAll hn hne) hnew hh c

theorem ordered_ofNfa (hn : n.Fragment) :
    ∃ s, Dfa.ofNfa n = s.dfa ∧ Progress n s.dfa.states.size s ∧
      Ordered s.dfa.states.size s ∧ s.Accessible :=
  ofNfa_induction hn (motive := fun h s => Ordered h s ∧ s.Accessible)
    (fun c hs hk ⟨ho, hac⟩ => ⟨ho.extend hn hs hk c, hac.extend hn hs hk c⟩)
    (fun hp ⟨ho, hac⟩ => ⟨ho.next hp, hac⟩) ⟨ordered_initial n, accessible_initial n⟩

end Subsets

/-! ## The order of symbols -/

/-- The place that the symbol on a label has in an alphabet. -/
def Label.place (alphabet : List Char) : Label → Nat
  | epsilon => alphabet.length
  | symbol c => alphabet.idxOf c

theorem pairwise_idxOf {cs : List Char} (h : cs.Nodup) :
    cs.Pairwise fun c c' => cs.idxOf c < cs.idxOf c' := by
  rw [List.pairwise_iff_getElem]
  intro i j hi hj hij
  rw [h.idxOf_getElem, h.idxOf_getElem]
  exact hij

theorem Nfa.Fragment.pairwise_due {n : Nfa} (hn : n.Fragment) (members : List Nat) :
    (n.due members n.alphabet).Pairwise fun e e' =>
      e.1.place n.alphabet < e'.1.place n.alphabet := by
  unfold due
  rw [List.pairwise_filterMap]
  refine (pairwise_idxOf hn.consistent.nodup_alphabet).imp ?_
  intro c c' hlt e he e' he'
  split at he
  · cases he
  · split at he'
    · cases he'
    · cases he
      cases he'
      exact hlt

namespace Subsets

variable {n : Nfa} {s : Subsets} {h : Nat}

theorem Progress.pairwise_movesFrom (hn : n.Fragment) (hp : Progress n s.dfa.states.size s)
    (h : Nat) :
    (s.dfa.movesFrom h).Pairwise fun m m' =>
      m.label.place n.alphabet < m'.label.place n.alphabet := by
  by_cases hlt : h < s.dfa.states.size
  · obtain ⟨k, hk⟩ := hp.exists_standsFor hlt
    have hdue := hn.pairwise_due k.members
    rw [← hp.expanded hlt hk, Dfa.outline, List.pairwise_map] at hdue
    exact hdue
  · rw [hp.idle h (Nat.le_of_not_lt hlt)]
    exact .nil

/-- Sources ascend along the moves, and places of symbols do at one source. -/
theorem pairwise_moves (hn : n.Fragment) (hp : Progress n s.dfa.states.size s)
    (ho : Ordered h s) :
    s.dfa.moves.toList.Pairwise fun m m' => m.source < m'.source ∨
      m.source = m'.source ∧ m.label.place n.alphabet < m'.label.place n.alphabet := by
  rw [ho.moves, List.pairwise_flatMap]
  have hsource : ∀ {i m}, m ∈ s.dfa.movesFrom i → m.source = i :=
    fun hm => (hp.consistent.mem_movesFrom.mp hm).2
  refine ⟨fun i _ => ?_, List.pairwise_lt_range.imp fun hij m hm m' hm' => ?_⟩
  · refine (hp.pairwise_movesFrom hn i).imp_of_mem fun hm hm' hlt => ?_
    exact Or.inr ⟨(hsource hm).trans (hsource hm').symm, hlt⟩
  · rw [hsource hm, hsource hm']
    exact Or.inl hij

/-- Breadth-first search from the first state follows the order of creation. -/
theorem order_numbering_eq_range (hp : Progress n s.dfa.states.size s)
    (ho : Ordered s.dfa.states.size s) (hac : s.Accessible) :
    s.dfa.numbering.order = List.range s.dfa.states.size := by
  have hc := hp.coherent
  have htargets : s.dfa.moves.toList.map Move.target =
      (List.range s.dfa.states.size).flatMap s.dfa.successors := by
    rw [ho.moves, List.range_succ, List.flatMap_append, List.flatMap_singleton,
      hp.idle _ (Nat.le_refl _), List.append_nil, List.map_flatMap]
    rfl
  have hself : List.range s.dfa.states.size =
      (s.dfa.start :: (List.range s.dfa.states.size).flatMap s.dfa.successors).eraseDups := by
    rw [← htargets, hp.start, ho.states]
  have hall := Automaton.perm_order_numbering hc fun i hi => hp.start ▸ hac i hi
  exact (Automaton.order_numbering_prefix hc hself).eq_of_length hall.length_eq

end Subsets

/-- Handles, moves and numbers come in one order. States are numbered by their handles; moves are
sorted by source, and at one source by symbol, as the alphabet lists it; and each state but the
first is the target of a move from one before it. -/
structure Dfa.Canonical (d : Dfa) (alphabet : List Char) : Prop where
  order : d.numbering.order = List.range d.states.size
  id?_eq : ∀ h < d.states.size, d.numbering.id? h = some (h + 1)
  labelled : ∀ m ∈ d.moves, ∃ c ∈ alphabet, m.label = .symbol c
  ascending : d.moves.toList.Pairwise fun m m' => m.source < m'.source ∨
    m.source = m'.source ∧ m.label.place alphabet < m'.label.place alphabet
  entered : ∀ h < d.states.size, h ≠ 0 → ∃ m ∈ d.moves, m.target = h ∧ m.source < h

/-- The deterministic automaton of a fragment is in canonical order. -/
theorem canonical_ofNfa (n : Nfa) (h : n.Built) : (Dfa.ofNfa n).Canonical n.alphabet := by
  have hn := h.fragment
  obtain ⟨s, heq, hp, ho, hac⟩ := Subsets.ordered_ofNfa hn
  have horder := Subsets.order_numbering_eq_range hp ho hac
  rw [heq]
  refine ⟨horder, fun i hi => ?_, fun m hm => ?_, Subsets.pairwise_moves hn hp ho, ho.entered⟩
  · rw [Numbering.id?_eq_succ_iff (Automaton.valid_numbering _), horder]
    exact List.getElem?_range hi
  · have hfrom := hp.consistent.mem_movesFrom.mpr ⟨hm, rfl⟩
    obtain ⟨k, -, hdue⟩ := hp.exists_due hfrom
    obtain ⟨c, hc, -, hl, -⟩ := Nfa.mem_due.mp hdue
    exact ⟨c, hc, hl⟩

theorem canonical_ofNfa_choice_repeated :
    (((Nfa.symbol 'b').alternate (Nfa.symbol 'a')).closure.concat (Nfa.symbol 'b')).Built ∧
      (Dfa.ofNfa
        (((Nfa.symbol 'b').alternate (Nfa.symbol 'a')).closure.concat
          (Nfa.symbol 'b'))).Canonical
        (((Nfa.symbol 'b').alternate (Nfa.symbol 'a')).closure.concat
          (Nfa.symbol 'b')).alphabet := by
  have hbuilt : (((Nfa.symbol 'b').alternate (Nfa.symbol 'a')).closure.concat
      (Nfa.symbol 'b')).Built :=
    .concat (.closure (.alternate (.symbol 'b') (.symbol 'a'))) (.symbol 'b')
  exact ⟨hbuilt, canonical_ofNfa _ hbuilt⟩

end PatternAutomata
