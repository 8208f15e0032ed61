/-
  Both ends of every move. The lists at the states repeat what the moves say, and
  they agree with it: each move is listed once at the state it leaves and once at
  the state it enters, nowhere else, and in order (`Diagram.Lists`). Fragments and
  their deterministic automata are consistent in all they hold
  (`Nfa.Fragment.consistent_automaton`, `Subsets.Progress.consistent_automaton`), so
  moves can be counted from either end.
-/
import PatternAutomata.Proofs.Determinization

namespace PatternAutomata

namespace Diagram

variable {d : Diagram}

/-- What the states list is one end of the moves: the list at a state has each move with that end
there once and no other, and it is ascending. -/
structure Lists (d : Diagram) (listed : State → List Nat) (stop : Move → Nat) : Prop where
  handle_lt : ∀ h < d.states.size, ∀ i ∈ listed (d.state h), i < d.moves.size
  ascending : ∀ h < d.states.size, (listed (d.state h)).Pairwise (· < ·)
  count : ∀ i m, d.moves[i]? = some m → ∀ h < d.states.size,
    (listed (d.state h)).count i = if stop m = h then 1 else 0

theorem pairwise_movesWhere (d : Diagram) (p : Move → Bool) : (d.movesWhere p).Pairwise (· < ·) :=
  List.pairwise_lt_range.filter _

theorem count_movesWhere {i : Nat} {m : Move} (hm : d.moves[i]? = some m) (p : Move → Bool) :
    (d.movesWhere p).count i = if p m then 1 else 0 := by
  have hnodup : (d.movesWhere p).Nodup := (pairwise_movesWhere d p).imp Nat.ne_of_lt
  have hmem : i ∈ d.movesWhere p ↔ p m = true := by
    rw [mem_movesWhere]
    simp [hm]
  rw [hnodup.count]
  simp only [hmem]

/-- Lists that say in order which moves have an end at a state list that end. -/
theorem lists_of_eq_movesWhere {listed : State → List Nat} {stop : Move → Nat}
    (h : ∀ s < d.states.size, listed (d.state s) = d.movesWhere (stop · = s)) :
    d.Lists listed stop where
  handle_lt s hs i hi := by
    rw [h s hs] at hi
    exact lt_of_mem_movesWhere hi
  ascending s hs := by
    rw [h s hs]
    exact pairwise_movesWhere d _
  count i m hm s hs := by
    rw [h s hs, count_movesWhere hm]
    simp

/-- As many moves on a label lead from one state to another, whether they are counted where they
start or where they end. -/
theorem Consistent.count_follow (hc : d.Consistent) (s t : Nat) (label : Label) :
    (d.follow s label).count t =
      (d.movesInto t).countP fun m => m.source = s ∧ m.label = label := by
  unfold follow
  rw [hc.movesFrom_eq_filter, hc.movesInto_eq_filter, List.count_filterMap, List.countP_filter,
    List.countP_filter]
  refine List.countP_congr fun m _ => ?_
  by_cases hl : m.label = label
  · simp [hl, and_comm]
  · simp [hl]

end Diagram

namespace Automaton

variable {a : Automaton}

/-- All handles lead to states and moves that there are, each move is listed at its two ends, the
accepting states are those with the mark, in order, and the alphabet has the symbols on the moves. So
the moves from one state to another on a label can be counted at either. -/
structure WellLinked (a : Automaton) : Prop where
  start_lt : a.start < a.states.size
  accepting_lt : ∀ h ∈ a.accepting, h < a.states.size
  source_lt : ∀ m ∈ a.moves, m.source < a.states.size
  target_lt : ∀ m ∈ a.moves, m.target < a.states.size
  outgoing : a.Lists State.outgoing Move.source
  incoming : a.Lists State.incoming Move.target
  ascending_accepting : a.accepting.Pairwise (· < ·)
  mem_accepting : ∀ h < a.states.size, h ∈ a.accepting ↔ (a.state h).isAccept = true
  nodup_alphabet : a.alphabet.Nodup
  mem_alphabet : ∀ c, c ∈ a.alphabet ↔ ∃ m ∈ a.moves, m.label = .symbol c
  count_follow : ∀ s < a.states.size, ∀ t < a.states.size, ∀ label,
    (a.follow s label).count t =
      (a.movesInto t).countP fun m => m.source = s ∧ m.label = label

theorem Consistent.mem_accepting_iff (hc : a.Consistent) {h : Nat} :
    h ∈ a.accepting ↔ h < a.states.size ∧ (a.state h).isAccept = true := by
  rw [hc.accepting, List.mem_filter, List.mem_range]

theorem Consistent.wellLinked (hc : a.Consistent) : a.WellLinked where
  start_lt := hc.start_lt
  accepting_lt _ hh := (hc.mem_accepting_iff.mp hh).1
  source_lt := hc.source_lt
  target_lt := hc.target_lt
  outgoing := Diagram.lists_of_eq_movesWhere hc.outgoing
  incoming := Diagram.lists_of_eq_movesWhere hc.incoming
  ascending_accepting := by
    rw [hc.accepting]
    exact List.pairwise_lt_range.filter _
  mem_accepting _ hlt := hc.mem_accepting_iff.trans (and_iff_right hlt)
  nodup_alphabet := hc.nodup_alphabet
  mem_alphabet := hc.mem_alphabet
  count_follow s _ t _ label := hc.toConsistent.count_follow s t label

end Automaton

/-! ## Both kinds of automaton -/

/-- The accepting state of a fragment is the only one with the mark. -/
theorem Nfa.Fragment.consistent_automaton {n : Nfa} (hn : n.Fragment) :
    n.automaton.Consistent where
  toConsistent := hn.consistent
  start_lt := hn.start_lt
  accepting := by
    have hmarked : ∀ h ∈ List.range n.states.size,
        (n.state h).isAccept = decide (h = n.accept) := by
      intro h _
      rw [Bool.eq_iff_iff, decide_eq_true_iff]
      exact hn.isAccept_iff h
    show [n.accept] = (List.range n.states.size).filter fun h => (n.state h).isAccept
    rw [List.filter_congr hmarked, List.filter_eq, List.nodup_range.count,
      if_pos (List.mem_range.mpr hn.accept_lt)]
    rfl

theorem Subsets.Progress.consistent_automaton {n : Nfa} {s : Subsets} {h : Nat}
    (hp : Progress n h s) : s.dfa.toAutomaton.Consistent where
  toConsistent := hp.consistent
  start_lt := by
    rw [hp.start]
    exact hp.lt_of_standsFor hp.entry
  accepting := hp.accepting

theorem Nfa.Fragment.consistent_dfa {n : Nfa} (hn : n.Fragment) :
    (Dfa.ofNfa n).toAutomaton.Consistent := by
  obtain ⟨s, heq, hp⟩ := Subsets.progress_ofNfa hn
  rw [heq]
  exact hp.consistent_automaton

/-- In every fragment that can be built, and in its deterministic automaton, the states and the moves
say the same. -/
theorem wellLinked_of_built (n : Nfa) (h : n.Built) :
    n.automaton.WellLinked ∧ (Dfa.ofNfa n).WellLinked :=
  ⟨h.fragment.consistent_automaton.wellLinked, h.fragment.consistent_dfa.wellLinked⟩

/-- The deterministic automaton of this fragment has loops. -/
theorem wellLinked_of_built_closure_repeated :
    ((Nfa.symbol 'a').concat (Nfa.symbol 'b').closure).closure.Built ∧
      ((Nfa.symbol 'a').concat (Nfa.symbol 'b').closure).closure.automaton.WellLinked ∧
      (Dfa.ofNfa ((Nfa.symbol 'a').concat (Nfa.symbol 'b').closure).closure).WellLinked := by
  have hbuilt : ((Nfa.symbol 'a').concat (Nfa.symbol 'b').closure).closure.Built :=
    .closure (.concat (.symbol 'a') (.closure (.symbol 'b')))
  exact ⟨hbuilt, wellLinked_of_built _ hbuilt⟩

end PatternAutomata
