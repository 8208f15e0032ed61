/-
  The loop over waiting states and the expansion of states in order are one
  construction. When the states before `h` are expanded, the states from `h` on
  wait, in order (`Subsets.worklist`). One symbol keeps that, and so does one
  round of the loop (`step?_worklist`), which ends where the states do.
-/
import PatternAutomata.Dfa.Worklist
import PatternAutomata.Proofs.Determinization

namespace PatternAutomata

/-- The states from `h` on, with their members. -/
def Dfa.pending (d : Dfa) (h : Nat) : List (List Nat × Nat) :=
  (d.configurations.toList.zipIdx.drop h).map fun p => (p.1.members, p.2)

theorem Dfa.pending_of_standsFor {d : Dfa} {h : Nat} {k : Configuration} (hk : d.StandsFor h k) :
    d.pending h = (k.members, h) :: d.pending (h + 1) := by
  have hmem : d.configurations.toList.zipIdx[h]? = some (k, h) := by
    rw [List.getElem?_zipIdx, Array.getElem?_toList, show d.configurations[h]? = some k from hk]
    simp
  obtain ⟨hlt, heq⟩ := List.getElem?_eq_some_iff.mp hmem
  unfold pending
  rw [List.drop_eq_getElem_cons hlt, heq]
  rfl

namespace Subsets

variable {n : Nfa} {s t : Subsets} {h : Nat}

/-- The loop when the states from `h` on wait. -/
def worklist (s : Subsets) (h : Nat) : Worklist := { toSubsets := s, waiting := s.dfa.pending h }

theorem Sound.pending_size (hs : Sound n s) : s.dfa.pending s.dfa.states.size = [] := by
  unfold Dfa.pending
  rw [List.drop_eq_nil_of_le (by simp [hs.size]), List.map_nil]

/-- A new state waits behind all others. -/
theorem Sound.pending_make (hs : Sound n s) (k : Configuration) (hle : h ≤ s.dfa.states.size) :
    (s.make n k).dfa.pending h = s.dfa.pending h ++ [(k.members, s.dfa.states.size)] := by
  unfold Dfa.pending Subsets.make
  dsimp only
  rw [Array.toList_push, List.zipIdx_append, List.drop_append_of_le_length (by simp [hs.size, hle]),
    List.map_append, Array.length_toList, hs.size, Nat.zero_add]
  rfl

theorem extend_worklist (hs : Sound n s) (hle : h ≤ s.dfa.states.size) (i : Nat)
    (members : List Nat) (c : Char) :
    Worklist.extend n n.automaton.numbering i members (s.worklist h) c =
      (extend n n.automaton.numbering i members s c).worklist h := by
  unfold Worklist.extend extend
  cases n.followAll members (.symbol c) with
  | nil => rfl
  | cons q qs =>
    dsimp only [worklist]
    generalize n.configuration n.automaton.numbering (q :: qs) = k
    cases s.made[k.key]? with
    | some target => rfl
    | none =>
      dsimp only
      rw [← hs.pending_make k hle]
      rfl

/-- While a state is expanded, those behind it wait. -/
theorem foldl_extend_worklist (hn : n.Fragment) {k : Configuration} (cs : List Char)
    (hs : Sound n s) (hk : s.dfa.StandsFor h k) :
    cs.foldl (Worklist.extend n n.automaton.numbering h k.members) (s.worklist (h + 1)) =
      (cs.foldl (extend n n.automaton.numbering h k.members) s).worklist (h + 1) := by
  induction cs generalizing s with
  | nil => rfl
  | cons c cs ih =>
    obtain ⟨hs', hg, -⟩ := extend_spec hn hs hk c
    rw [List.foldl_cons, extend_worklist hs (hs.lt_of_standsFor hk), ih hs' (hg.standsFor hk)]
    rfl

/-- One round of the loop expands the next state. -/
theorem step?_worklist (hn : n.Fragment) (hs : Sound n s) (hlt : h < s.dfa.states.size) :
    (s.worklist h).step? n n.automaton.numbering =
      some (h, (expand n n.automaton.numbering s h).worklist (h + 1)) := by
  obtain ⟨k, hk⟩ := hs.exists_standsFor hlt
  unfold Worklist.step? expand
  rw [show s.dfa.configurations[h]? = some k from hk,
    show (s.worklist h).waiting = _ from Dfa.pending_of_standsFor hk]
  exact congrArg (fun w => some (h, w)) (foldl_extend_worklist hn n.alphabet hs hk)

theorem step?_worklist_size (hs : Sound n s) :
    (s.worklist s.dfa.states.size).step? n n.automaton.numbering = none := by
  unfold Worklist.step?
  rw [show (s.worklist s.dfa.states.size).waiting = [] from hs.pending_size]

theorem le_size_of_expands (he : Expands n n.automaton.numbering h s t) :
    h ≤ t.dfa.states.size := by
  induction he with
  | done hh => exact Nat.le_of_eq hh
  | more _ _ ih => exact Nat.le_of_succ_le ih

/-- The loop expands the states that are left, each once. -/
theorem drains_of_expands (hn : n.Fragment) (he : Expands n n.automaton.numbering h s t)
    (hp : Progress n h s) :
    Worklist.Drains n n.automaton.numbering (s.worklist h)
      (List.range' h (t.dfa.states.size - h)) t := by
  induction he with
  | @done h s hh =>
    subst hh
    rw [Nat.sub_self]
    exact .done (step?_worklist_size hp.toSound)
  | @more h s t hlt he ih =>
    have hle := le_size_of_expands he
    rw [show t.dfa.states.size - h = t.dfa.states.size - (h + 1) + 1 by omega, List.range'_succ]
    exact .more (step?_worklist hn hp.toSound hlt) (ih (hp.expand hn hlt))

/-- Determinizing a fragment is this loop, and each state that it makes is expanded once. -/
theorem drains_ofNfa (hn : n.Fragment) :
    ∃ s, Worklist.Drains n n.automaton.numbering (Worklist.initial n n.automaton.numbering)
        (List.range s.dfa.states.size) s ∧
      Dfa.ofNfa n = s.dfa := by
  obtain ⟨s, heq, he⟩ := expands_ofNfa hn
  refine ⟨s, ?_, heq⟩
  rw [List.range_eq_range']
  exact drains_of_expands hn he (progress_initial n)

end Subsets

end PatternAutomata
