/-
  Building keeps diagrams consistent, one way to build after the other. In a
  consistent diagram the lists at the states add nothing to the list of all
  moves: the moves that leave a state are those with that source, and those that
  enter it the ones with that target, in order of creation. So a consistent
  diagram can be walked, and its paths are read off its moves.
-/
import PatternAutomata.Proofs.Building

namespace PatternAutomata

namespace Diagram

variable {d e : Diagram}

/-! ## What consistency gives -/

theorem Consistent.movesFrom_eq_filter (hc : d.Consistent) (h : Nat) :
    d.movesFrom h = d.moves.toList.filter fun m => m.source = h := by
  by_cases hlt : h < d.states.size
  · unfold movesFrom
    rw [hc.outgoing h hlt, filterMap_movesWhere]
  · unfold movesFrom
    rw [state_of_le (Nat.le_of_not_lt hlt), eq_comm]
    refine List.filter_eq_nil_iff.mpr fun m hm => ?_
    have hsource := hc.source_lt m (Array.mem_toList_iff.mp hm)
    simp
    omega

theorem Consistent.movesInto_eq_filter (hc : d.Consistent) (h : Nat) :
    d.movesInto h = d.moves.toList.filter fun m => m.target = h := by
  by_cases hlt : h < d.states.size
  · unfold movesInto
    rw [hc.incoming h hlt, filterMap_movesWhere]
  · unfold movesInto
    rw [state_of_le (Nat.le_of_not_lt hlt), eq_comm]
    refine List.filter_eq_nil_iff.mpr fun m hm => ?_
    have htarget := hc.target_lt m (Array.mem_toList_iff.mp hm)
    simp
    omega

theorem Consistent.mem_movesFrom (hc : d.Consistent) {h : Nat} {m : Move} :
    m ∈ d.movesFrom h ↔ m ∈ d.moves ∧ m.source = h := by
  rw [hc.movesFrom_eq_filter, List.mem_filter, Array.mem_toList_iff, decide_eq_true_iff]

theorem Consistent.coherent (hc : d.Consistent) : d.Coherent where
  outgoing h i hi := by
    by_cases hlt : h < d.states.size
    · rw [hc.outgoing h hlt] at hi
      obtain ⟨m, hm, hsource⟩ := mem_movesWhere.mp hi
      exact ⟨m, hm, of_decide_eq_true hsource⟩
    · rw [state_of_le (Nat.le_of_not_lt hlt)] at hi
      cases hi
  target_lt := hc.target_lt

/-! ## What keeps it -/

theorem consistent_empty : ({} : Diagram).Consistent where
  source_lt m hm := by simp at hm
  target_lt m hm := by simp at hm
  outgoing h hlt := absurd hlt (Nat.not_lt_zero h)
  incoming h hlt := absurd hlt (Nat.not_lt_zero h)
  nodup_alphabet := List.nodup_nil
  mem_alphabet c := by simp

/-- Marks do not matter. -/
theorem Consistent.of_links {d' : Diagram} (hc : d.Consistent)
    (hsize : d'.states.size = d.states.size) (hmoves : d'.moves = d.moves)
    (halphabet : d'.alphabet = d.alphabet)
    (ho : ∀ h, (d'.state h).outgoing = (d.state h).outgoing)
    (hi : ∀ h, (d'.state h).incoming = (d.state h).incoming) : d'.Consistent where
  source_lt m hm := by
    rw [hsize]
    exact hc.source_lt m (hmoves ▸ hm)
  target_lt m hm := by
    rw [hsize]
    exact hc.target_lt m (hmoves ▸ hm)
  outgoing h hlt := by rw [ho, movesWhere_congr hmoves, hc.outgoing h (hsize ▸ hlt)]
  incoming h hlt := by rw [hi, movesWhere_congr hmoves, hc.incoming h (hsize ▸ hlt)]
  nodup_alphabet := halphabet ▸ hc.nodup_alphabet
  mem_alphabet c := by rw [halphabet, hmoves, hc.mem_alphabet]

theorem Consistent.unmarkStart (hc : d.Consistent) (h : Nat) : (d.unmarkStart h).Consistent := by
  refine hc.of_links (by simp) rfl rfl ?_ ?_
  · intro k
    rw [state_unmarkStart]
    split
    · rfl
    · rfl
  · intro k
    rw [state_unmarkStart]
    split
    · rfl
    · rfl

theorem Consistent.unmarkAccept (hc : d.Consistent) (h : Nat) :
    (d.unmarkAccept h).Consistent := by
  refine hc.of_links (by simp) rfl rfl ?_ ?_
  · intro k
    rw [state_unmarkAccept]
    split
    · rfl
    · rfl
  · intro k
    rw [state_unmarkAccept]
    split
    · rfl
    · rfl

/-- No move leaves or enters the state to come. -/
theorem movesWhere_eq_size {f : Move → Nat}
    (hf : ∀ m ∈ d.moves, f m < d.states.size) :
    d.movesWhere (fun m => f m = d.states.size) = [] := by
  refine movesWhere_eq_nil fun m hm => ?_
  have := hf m hm
  simp
  omega

theorem Consistent.addState (hc : d.Consistent) {s : State} (ho : s.outgoing = [])
    (hi : s.incoming = []) : (d.addState s).Consistent where
  source_lt m hm := by
    rw [size_states_addState]
    exact Nat.lt_succ_of_lt (hc.source_lt m hm)
  target_lt m hm := by
    rw [size_states_addState]
    exact Nat.lt_succ_of_lt (hc.target_lt m hm)
  outgoing h hlt := by
    rw [size_states_addState] at hlt
    rw [state_addState, movesWhere_congr (moves_addState d s)]
    by_cases heq : h = d.states.size
    · subst heq
      rw [if_pos rfl, ho, movesWhere_eq_size hc.source_lt]
    · rw [if_neg heq]
      exact hc.outgoing h (by omega)
  incoming h hlt := by
    rw [size_states_addState] at hlt
    rw [state_addState, movesWhere_congr (moves_addState d s)]
    by_cases heq : h = d.states.size
    · subst heq
      rw [if_pos rfl, hi, movesWhere_eq_size hc.target_lt]
    · rw [if_neg heq]
      exact hc.incoming h (by omega)
  nodup_alphabet := hc.nodup_alphabet
  mem_alphabet := hc.mem_alphabet

theorem Consistent.addMove (hc : d.Consistent) {source target : Nat}
    (hs : source < d.states.size) (ht : target < d.states.size) (label : Label) :
    (d.addMove source target label).Consistent where
  source_lt m hm := by
    rw [size_states_addMove]
    rcases Array.mem_push.mp hm with hm | rfl
    · exact hc.source_lt m hm
    · exact hs
  target_lt m hm := by
    rw [size_states_addMove]
    rcases Array.mem_push.mp hm with hm | rfl
    · exact hc.target_lt m hm
    · exact ht
  outgoing h hlt := by
    rw [size_states_addMove] at hlt
    rw [state_addMove hs ht, movesWhere_push (moves_addMove d source target label),
      hc.outgoing h hlt]
    simp
  incoming h hlt := by
    rw [size_states_addMove] at hlt
    rw [state_addMove hs ht, movesWhere_push (moves_addMove d source target label),
      hc.incoming h hlt]
    simp
  nodup_alphabet := label.nodup_insertInto hc.nodup_alphabet
  mem_alphabet c := by
    simp only [Diagram.addMove, Label.mem_insertInto, hc.mem_alphabet, Array.mem_push, or_and_right,
      exists_or, exists_eq_left]

/-- A new state has no moves, and none are lost. -/
theorem Consistent.movesFrom_addState (hc : d.Consistent) {s : State} (ho : s.outgoing = [])
    (hi : s.incoming = []) (h : Nat) : (d.addState s).movesFrom h = d.movesFrom h := by
  rw [(hc.addState ho hi).movesFrom_eq_filter, hc.movesFrom_eq_filter]
  rfl

/-- A new move is the last one of its source. -/
theorem Consistent.movesFrom_addMove (hc : d.Consistent) {source target : Nat}
    (hs : source < d.states.size) (ht : target < d.states.size) (label : Label) (h : Nat) :
    (d.addMove source target label).movesFrom h =
      d.movesFrom h ++ if source = h then [⟨source, target, label⟩] else [] := by
  rw [(hc.addMove hs ht label).movesFrom_eq_filter, hc.movesFrom_eq_filter, moves_addMove,
    Array.toList_push, List.filter_append, List.filter_singleton, Bool.cond_eq_ite]
  simp

/-! ### One diagram behind another -/

theorem movesWhere_absorb (d e : Diagram) (p : Move → Bool) :
    (d.absorb e).movesWhere p = d.movesWhere p ++
      (e.movesWhere fun m => p (m.shift d.states.size)).map (· + d.moves.size) := by
  rw [movesWhere_append (moves_absorb d e), movesWhere_map]
  rfl

/-- At a state of the first diagram, only its own moves are listed. -/
theorem movesWhere_absorb_left {f : Move → Nat} (hf : ∀ k m, f (m.shift k) = f m + k) {h : Nat}
    (hlt : h < d.states.size) (e : Diagram) :
    (d.absorb e).movesWhere (fun m => f m = h) = d.movesWhere fun m => f m = h := by
  rw [movesWhere_absorb, movesWhere_eq_nil (d := e), List.map_nil, List.append_nil]
  intro m _
  rw [hf]
  simp
  omega

/-- At a state of the second one, only its own, with their new handles. -/
theorem movesWhere_absorb_right {f : Move → Nat} (hf : ∀ k m, f (m.shift k) = f m + k)
    (hd : ∀ m ∈ d.moves, f m < d.states.size) (e : Diagram) (h : Nat) :
    (d.absorb e).movesWhere (fun m => f m = h + d.states.size) =
      (e.movesWhere fun m => f m = h).map (· + d.moves.size) := by
  rw [movesWhere_absorb, movesWhere_eq_nil (d := d), List.nil_append]
  · simp only [hf, Nat.add_right_cancel_iff]
  · intro m hm
    have := hd m hm
    simp
    omega

/-- A handle of the whole is one of the first diagram or comes behind it. -/
theorem lt_or_eq_add_of_lt_absorb {h : Nat} (hlt : h < (d.absorb e).states.size) :
    h < d.states.size ∨ ∃ k < e.states.size, h = k + d.states.size := by
  rw [size_states_absorb] at hlt
  by_cases hd : h < d.states.size
  · exact Or.inl hd
  · exact Or.inr ⟨h - d.states.size, by omega, by omega⟩

theorem mem_moves_absorb {m : Move} :
    m ∈ (d.absorb e).moves ↔ m ∈ d.moves ∨ ∃ m' ∈ e.moves, m'.shift d.states.size = m := by
  rw [moves_absorb, Array.mem_append, Array.mem_map]

theorem Consistent.absorb (hd : d.Consistent) (he : e.Consistent) : (d.absorb e).Consistent where
  source_lt m hm := by
    rw [size_states_absorb]
    rcases mem_moves_absorb.mp hm with hm | ⟨m, hm', rfl⟩
    · exact Nat.lt_add_right _ (hd.source_lt m hm)
    · have := he.source_lt m hm'
      simp only [Move.shift]
      omega
  target_lt m hm := by
    rw [size_states_absorb]
    rcases mem_moves_absorb.mp hm with hm | ⟨m, hm', rfl⟩
    · exact Nat.lt_add_right _ (hd.target_lt m hm)
    · have := he.target_lt m hm'
      simp only [Move.shift]
      omega
  outgoing h hlt := by
    rcases lt_or_eq_add_of_lt_absorb hlt with hlt | ⟨k, hk, rfl⟩
    · rw [state_absorb_left hlt, hd.outgoing h hlt, movesWhere_absorb_left (fun _ _ => rfl) hlt]
    · rw [state_absorb_right, movesWhere_absorb_right (fun _ _ => rfl) hd.source_lt,
        ← he.outgoing k hk]
      rfl
  incoming h hlt := by
    rcases lt_or_eq_add_of_lt_absorb hlt with hlt | ⟨k, hk, rfl⟩
    · rw [state_absorb_left hlt, hd.incoming h hlt, movesWhere_absorb_left (fun _ _ => rfl) hlt]
    · rw [state_absorb_right, movesWhere_absorb_right (fun _ _ => rfl) hd.target_lt,
        ← he.incoming k hk]
      rfl
  nodup_alphabet := nodup_foldl_insertSymbol hd.nodup_alphabet e.alphabet
  mem_alphabet c := by
    have hshift : (∃ m ∈ (d.absorb e).moves, m.label = .symbol c) ↔
        (∃ m ∈ d.moves, m.label = .symbol c) ∨ ∃ m ∈ e.moves, m.label = .symbol c := by
      constructor
      · intro ⟨m, hm, hl⟩
        rcases mem_moves_absorb.mp hm with hm | ⟨m, hm', rfl⟩
        · exact Or.inl ⟨m, hm, hl⟩
        · exact Or.inr ⟨m, hm', hl⟩
      · rintro (⟨m, hm, hl⟩ | ⟨m, hm, hl⟩)
        · exact ⟨m, mem_moves_absorb.mpr (Or.inl hm), hl⟩
        · exact ⟨m.shift d.states.size, mem_moves_absorb.mpr (Or.inr ⟨m, hm, rfl⟩), hl⟩
    rw [hshift, ← hd.mem_alphabet, ← he.mem_alphabet]
    exact mem_foldl_insertSymbol

end Diagram

end PatternAutomata
