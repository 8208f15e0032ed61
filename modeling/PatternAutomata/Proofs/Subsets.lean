/-
  Subset construction, step by step. The configurations that come up are those of
  states that can be reached from the start (`Nfa.IsConfiguration`), and their
  keys tell them apart. While states are made and linked, the diagram stays
  consistent, each state has the marks of its members, and the index finds a state
  for exactly the keys that have one (`Subsets.Sound`). One symbol adds to the
  state being expanded the move that is due on it (`extend_spec`).
-/
import PatternAutomata.Proofs.Numbering
import PatternAutomata.Proofs.Reading

namespace PatternAutomata

namespace Nfa

/-- The configuration of states that can be reached from the start, at least one. -/
def IsConfiguration (n : Nfa) (k : Configuration) : Prop :=
  ∃ seeds, seeds ≠ [] ∧ (∀ s ∈ seeds, n.Reaches n.start s) ∧
    k = n.configuration n.automaton.numbering seeds

/-- The moves due at a state with some members: one for each symbol that leads on, with the key of
what it leads to. -/
def due (n : Nfa) (members : List Nat) (cs : List Char) : List (Label × List Nat) :=
  cs.filterMap fun c =>
    if n.followAll members (.symbol c) = [] then none
    else some (.symbol c,
      (n.configuration n.automaton.numbering (n.followAll members (.symbol c))).key)

theorem due_append (n : Nfa) (members : List Nat) (cs cs' : List Char) :
    n.due members (cs ++ cs') = n.due members cs ++ n.due members cs' := by
  unfold due
  exact List.filterMap_append

theorem mem_due {n : Nfa} {members : List Nat} {cs : List Char} {label : Label}
    {key : List Nat} :
    (label, key) ∈ n.due members cs ↔
      ∃ c ∈ cs, n.followAll members (.symbol c) ≠ [] ∧ label = .symbol c ∧
        key = (n.configuration n.automaton.numbering (n.followAll members (.symbol c))).key := by
  unfold due
  rw [List.mem_filterMap]
  apply exists_congr
  intro c
  apply and_congr_right
  intro _
  split
  · rename_i hnil
    simp [hnil]
  · rename_i hne
    rw [Option.some.injEq, Prod.mk.injEq, eq_comm (b := label), eq_comm (b := key)]
    simp [hne]

theorem due_of_eq_nil {n : Nfa} {members : List Nat} {c : Char}
    (h : n.followAll members (.symbol c) = []) : n.due members [c] = [] := by
  unfold due
  simp [h]

theorem due_of_ne_nil {n : Nfa} {members : List Nat} {c : Char}
    (h : n.followAll members (.symbol c) ≠ []) :
    n.due members [c] = [(.symbol c,
      (n.configuration n.automaton.numbering (n.followAll members (.symbol c))).key)] := by
  unfold due
  rw [List.filterMap_cons, if_neg h]
  rfl

theorem reaches_of_mem_start (n : Nfa) : ∀ s ∈ [n.start], n.Reaches n.start s := by
  intro s hs
  rw [List.mem_singleton.mp hs]
  exact ⟨[], .nil n.start⟩

theorem isConfiguration_start (n : Nfa) :
    n.IsConfiguration (n.configuration n.automaton.numbering [n.start]) :=
  ⟨[n.start], List.cons_ne_nil _ _, n.reaches_of_mem_start, rfl⟩

section Configurations

variable {n : Nfa} (hn : n.Fragment)
include hn

theorem Fragment.lt_of_reaches {s : Nat} (h : n.Reaches n.start s) : s < n.states.size := by
  obtain ⟨w, hw⟩ := h
  exact hw.lt hn.consistent.coherent hn.start_lt

theorem Fragment.mem_configuration {seeds : List Nat} (hs : ∀ s ∈ seeds, n.Reaches n.start s)
    (t : Nat) :
    t ∈ (n.configuration n.automaton.numbering seeds).members ↔ ∃ s ∈ seeds, n.Path s [] t :=
  Diagram.mem_members hn.consistent.coherent (fun s h => hn.lt_of_reaches (hs s h)) t

theorem IsConfiguration.closed {k : Configuration} (hk : n.IsConfiguration k) :
    n.Closed k.members := by
  obtain ⟨seeds, -, hs, rfl⟩ := hk
  exact Diagram.closed_of_mem_iff (hn.mem_configuration hs)

theorem IsConfiguration.exists_mem {k : Configuration} (hk : n.IsConfiguration k) :
    ∃ t, t ∈ k.members := by
  obtain ⟨seeds, hne, hs, rfl⟩ := hk
  obtain ⟨s, hmem⟩ := List.exists_mem_of_ne_nil seeds hne
  exact ⟨s, (hn.mem_configuration hs s).mpr ⟨s, hmem, .nil s⟩⟩

theorem IsConfiguration.reaches {k : Configuration} (hk : n.IsConfiguration k) {t : Nat}
    (ht : t ∈ k.members) : n.Reaches n.start t := by
  obtain ⟨seeds, -, hs, rfl⟩ := hk
  obtain ⟨s, hmem, hst⟩ := (hn.mem_configuration hs t).mp ht
  obtain ⟨w, hw⟩ := hs s hmem
  exact ⟨w ++ [], hw.append hst⟩

/-- Every member is numbered. -/
theorem IsConfiguration.mem_order {k : Configuration} (hk : n.IsConfiguration k) {t : Nat}
    (ht : t ∈ k.members) : t ∈ n.automaton.numbering.roster.order :=
  (Automaton.mem_order_numbering hn.coherent t).mpr (hk.reaches hn ht)

/-- Configurations with one key have the same members. -/
theorem IsConfiguration.mem_congr {k k' : Configuration} (hk : n.IsConfiguration k)
    (hk' : n.IsConfiguration k') (hkey : k.key = k'.key) (t : Nat) :
    t ∈ k.members ↔ t ∈ k'.members := by
  have hm := fun h => hk.mem_order hn (t := t) h
  have hm' := fun h => hk'.mem_order hn (t := t) h
  obtain ⟨seeds, -, -, rfl⟩ := hk
  obtain ⟨seeds', -, -, rfl⟩ := hk'
  constructor
  · intro ht
    exact Diagram.mem_members_congr hkey (hm ht) ht
  · intro ht
    exact Diagram.mem_members_congr hkey.symm (hm' ht) ht

/-- A symbol that leads on is in the alphabet. -/
theorem Fragment.mem_alphabet_of_mem_followAll {members : List Nat} {c : Char} {t : Nat}
    (ht : t ∈ n.followAll members (.symbol c)) : c ∈ n.alphabet := by
  obtain ⟨q, -, hq⟩ := Diagram.mem_followAll.mp ht
  obtain ⟨m, hm, hl, -⟩ := Diagram.mem_follow.mp hq
  exact (hn.consistent.mem_alphabet c).mpr ⟨m, Diagram.mem_moves_of_mem_movesFrom hm, hl⟩

/-- What a symbol leads to from members can be reached as well. -/
theorem IsConfiguration.reaches_of_mem_followAll {k : Configuration} (hk : n.IsConfiguration k)
    {label : Label} {t : Nat} (ht : t ∈ n.followAll k.members label) : n.Reaches n.start t := by
  obtain ⟨s, hs, hst⟩ := Diagram.mem_followAll.mp ht
  obtain ⟨w, hw⟩ := hk.reaches hn hs
  obtain ⟨m, hm, -, rfl⟩ := Diagram.mem_follow.mp hst
  exact ⟨_, hw.append (Diagram.Path.single hm)⟩

/-- Where a symbol leads on from a configuration, it leads to one. -/
theorem IsConfiguration.followAll {k : Configuration} (hk : n.IsConfiguration k) {c : Char}
    (hc : n.followAll k.members (.symbol c) ≠ []) :
    n.IsConfiguration
      (n.configuration n.automaton.numbering (n.followAll k.members (.symbol c))) :=
  ⟨_, hc, fun _ ht => hk.reaches_of_mem_followAll hn ht, rfl⟩

end Configurations

end Nfa

/-! ## What construction keeps -/

namespace Dfa

/-- The state stands for the configuration. -/
def StandsFor (d : Dfa) (h : Nat) (k : Configuration) : Prop := d.configurations[h]? = some k

theorem StandsFor.unique {d : Dfa} {h : Nat} {k k' : Configuration} (hk : d.StandsFor h k)
    (hk' : d.StandsFor h k') : k = k' :=
  Option.some.inj (hk.symm.trans hk')

theorem StandsFor.key_eq {d : Dfa} {h : Nat} {k : Configuration} (hk : d.StandsFor h k) :
    d.key h = k.key := by
  unfold key
  rw [show d.configurations[h]? = some k from hk]
  rfl

/-- The moves that leave a state: what each reads, and the key of where it leads. -/
def outline (d : Dfa) (h : Nat) : List (Label × List Nat) :=
  (d.movesFrom h).map fun m => (m.label, d.key m.target)

end Dfa

namespace Subsets

/-- Each state stands for a configuration and has the marks of its members, and the index finds it
by its key. -/
structure Sound (n : Nfa) (s : Subsets) : Prop where
  consistent : s.dfa.toDiagram.Consistent
  start : s.dfa.start = 0
  accepting : s.dfa.accepting =
    (List.range s.dfa.states.size).filter fun h => (s.dfa.state h).isAccept
  size : s.dfa.configurations.size = s.dfa.states.size
  isConfiguration : ∀ {h k}, s.dfa.StandsFor h k → n.IsConfiguration k
  isStart_iff : ∀ {h k}, s.dfa.StandsFor h k → (s.dfa.IsStart h ↔ ∃ q ∈ k.members, n.IsStart q)
  isAccept_iff : ∀ {h k}, s.dfa.StandsFor h k →
    (s.dfa.IsAccept h ↔ ∃ q ∈ k.members, n.IsAccept q)
  made_iff : ∀ {key h}, s.made[key]? = some h ↔ ∃ k, s.dfa.StandsFor h k ∧ k.key = key

theorem not_standsFor_empty (h : Nat) (k : Configuration) : ¬ ({} : Dfa).StandsFor h k := by
  unfold Dfa.StandsFor
  simp

theorem sound_empty (n : Nfa) : Sound n {} where
  consistent := Diagram.consistent_empty
  start := rfl
  accepting := rfl
  size := rfl
  isConfiguration hk := absurd hk (not_standsFor_empty _ _)
  isStart_iff hk := absurd hk (not_standsFor_empty _ _)
  isAccept_iff hk := absurd hk (not_standsFor_empty _ _)
  made_iff := by simp [not_standsFor_empty]

section Sound

variable {n : Nfa} {s : Subsets}

theorem Sound.exists_standsFor (hs : Sound n s) {h : Nat} (hlt : h < s.dfa.states.size) :
    ∃ k, s.dfa.StandsFor h k :=
  ⟨_, Array.getElem?_eq_getElem (hs.size ▸ hlt)⟩

theorem Sound.lt_of_standsFor (hs : Sound n s) {h : Nat} {k : Configuration}
    (hk : s.dfa.StandsFor h k) : h < s.dfa.states.size := by
  obtain ⟨hlt, -⟩ := Array.getElem?_eq_some_iff.mp hk
  rw [← hs.size]
  exact hlt

/-- No two states have one key. -/
theorem Sound.eq_of_key_eq (hs : Sound n s) {h h' : Nat} {k k' : Configuration}
    (hk : s.dfa.StandsFor h k) (hk' : s.dfa.StandsFor h' k') (hkey : k.key = k'.key) : h = h' := by
  have hm := hs.made_iff.mpr ⟨k, hk, rfl⟩
  have hm' := hs.made_iff.mpr ⟨k', hk', hkey.symm⟩
  rw [hm, Option.some.injEq] at hm'
  exact hm'

/-! ### Making a state -/

theorem Sound.standsFor_make_iff (hs : Sound n s) {k k' : Configuration} {h : Nat} :
    (s.make n k).dfa.StandsFor h k' ↔
      s.dfa.StandsFor h k' ∨ (h = s.dfa.states.size ∧ k' = k) := by
  unfold Dfa.StandsFor make
  dsimp only
  rw [Array.getElem?_push, hs.size]
  by_cases hh : h = s.dfa.states.size
  · subst hh
    have hnone : s.dfa.configurations[s.dfa.states.size]? = none :=
      Array.getElem?_eq_none (Nat.le_of_eq hs.size)
    simp [hnone, eq_comm]
  · simp [hh]

theorem Sound.standsFor_make (hs : Sound n s) (k : Configuration) :
    (s.make n k).dfa.StandsFor s.dfa.states.size k :=
  hs.standsFor_make_iff.mpr (Or.inr ⟨rfl, rfl⟩)

/-- The handles with a mark, when a state has come last. -/
theorem filter_range_addState (d : Diagram) (t : State) :
    ((List.range (d.addState t).states.size).filter fun h => ((d.addState t).state h).isAccept) =
      ((List.range d.states.size).filter fun h => (d.state h).isAccept) ++
        if t.isAccept then [d.states.size] else [] := by
  rw [Diagram.size_states_addState, List.range_succ, List.filter_append]
  congr 1
  · refine List.filter_congr ?_
    intro h hh
    have hlt := List.mem_range.mp hh
    rw [Diagram.state_addState, if_neg (by omega)]
  · rw [List.filter_singleton, Diagram.state_addState, if_pos rfl, Bool.cond_eq_ite]

/-- The index finds the new state by its key, and all others as before. -/
theorem Sound.made_make_iff (hs : Sound n s) {k : Configuration} (hnew : s.made[k.key]? = none)
    {key : List Nat} {h : Nat} :
    (s.make n k).made[key]? = some h ↔
      ∃ k', (s.make n k).dfa.StandsFor h k' ∧ k'.key = key := by
  unfold Subsets.make
  rw [Std.HashMap.getElem?_insert]
  by_cases hkey : k.key = key
  · subst hkey
    rw [if_pos (beq_self_eq_true _), Option.some.injEq]
    constructor
    · intro hh
      exact ⟨k, hs.standsFor_make_iff.mpr (Or.inr ⟨hh.symm, rfl⟩), rfl⟩
    · intro ⟨k', hk', hkey⟩
      rcases hs.standsFor_make_iff.mp hk' with hk' | ⟨hh, -⟩
      · rw [hs.made_iff.mpr ⟨k', hk', hkey⟩] at hnew
        cases hnew
      · exact hh.symm
  · rw [if_neg (by simpa using hkey), hs.made_iff]
    constructor
    · intro ⟨k', hk', hkey'⟩
      exact ⟨k', hs.standsFor_make_iff.mpr (Or.inl hk'), hkey'⟩
    · intro ⟨k', hk', hkey'⟩
      rcases hs.standsFor_make_iff.mp hk' with hk' | ⟨-, rfl⟩
      · exact ⟨k', hk', hkey'⟩
      · exact absurd hkey' hkey

/-- A new state is made for a configuration that no state stands for yet. -/
theorem Sound.make (hs : Sound n s) {k : Configuration} (hk : n.IsConfiguration k)
    (hnew : s.made[k.key]? = none) : Sound n (s.make n k) where
  consistent := hs.consistent.addState rfl rfl
  start := hs.start
  accepting := by
    unfold Subsets.make
    dsimp only
    rw [filter_range_addState, hs.accepting]
    split
    · rfl
    · rw [List.append_nil]
  size := by
    unfold Subsets.make
    simp [hs.size]
  isConfiguration hk' := by
    rcases hs.standsFor_make_iff.mp hk' with hk' | ⟨-, rfl⟩
    · exact hs.isConfiguration hk'
    · exact hk
  isStart_iff hk' := by
    unfold Subsets.make
    dsimp only
    rw [Diagram.isStart_addState]
    rcases hs.standsFor_make_iff.mp hk' with hk' | ⟨rfl, rfl⟩
    · simp [Nat.ne_of_lt (hs.lt_of_standsFor hk'), hs.isStart_iff hk']
    · simp [Diagram.IsStart]
  isAccept_iff hk' := by
    unfold Subsets.make
    dsimp only
    rw [Diagram.isAccept_addState]
    rcases hs.standsFor_make_iff.mp hk' with hk' | ⟨rfl, rfl⟩
    · simp [Nat.ne_of_lt (hs.lt_of_standsFor hk'), hs.isAccept_iff hk']
    · simp [Diagram.IsAccept]
  made_iff := hs.made_make_iff hnew

/-! ### Linking states -/

theorem Sound.link (hs : Sound n s) {source target : Nat} (hsource : source < s.dfa.states.size)
    (htarget : target < s.dfa.states.size) (c : Char) : Sound n (s.link source target c) where
  consistent := hs.consistent.addMove hsource htarget (.symbol c)
  start := hs.start
  accepting := by
    unfold Subsets.link
    dsimp only
    rw [Diagram.size_states_addMove, hs.accepting]
    refine List.filter_congr ?_
    intro h _
    rw [(Diagram.marks_addMove s.dfa.toDiagram h source target (.symbol c)).2]
  size := by
    unfold Subsets.link
    rw [Diagram.size_states_addMove]
    exact hs.size
  isConfiguration := hs.isConfiguration
  isStart_iff hk := by
    unfold Subsets.link
    rw [Diagram.isStart_addMove]
    exact hs.isStart_iff hk
  isAccept_iff hk := by
    unfold Subsets.link
    rw [Diagram.isAccept_addMove]
    exact hs.isAccept_iff hk
  made_iff := hs.made_iff

end Sound

/-! ## What one symbol adds -/

/-- States stand for what they stood for, and all but one have the moves they had. -/
structure Grows (h : Nat) (s t : Subsets) : Prop where
  standsFor : ∀ {i k}, s.dfa.StandsFor i k → t.dfa.StandsFor i k
  movesFrom : ∀ i ≠ h, t.dfa.movesFrom i = s.dfa.movesFrom i

theorem Grows.refl (h : Nat) (s : Subsets) : Grows h s s := ⟨id, fun _ _ => rfl⟩

theorem Grows.trans {h : Nat} {s t u : Subsets} (hst : Grows h s t) (htu : Grows h t u) :
    Grows h s u where
  standsFor hk := htu.standsFor (hst.standsFor hk)
  movesFrom i hi := (htu.movesFrom i hi).trans (hst.movesFrom i hi)

section Grows

variable {n : Nfa} {s t : Subsets} {h : Nat}

/-- The moves that a state had lead to states with the keys they had. -/
theorem Grows.map_movesFrom (hg : Grows h s t) (hs : Sound n s) (i : Nat) :
    ((s.dfa.movesFrom i).map fun m => (m.label, t.dfa.key m.target)) = s.dfa.outline i := by
  unfold Dfa.outline
  refine List.map_congr_left ?_
  intro m hm
  have hlt := hs.consistent.coherent.target_lt_of_mem hm
  obtain ⟨k, hk⟩ := hs.exists_standsFor hlt
  rw [hk.key_eq, (hg.standsFor hk).key_eq]

theorem Grows.outline_eq (hg : Grows h s t) (hs : Sound n s) {i : Nat} (hi : i ≠ h) :
    t.dfa.outline i = s.dfa.outline i := by
  rw [← hg.map_movesFrom hs i, ← hg.movesFrom i hi]
  rfl

theorem size_states_make (n : Nfa) (s : Subsets) (k : Configuration) :
    (s.make n k).dfa.states.size = s.dfa.states.size + 1 :=
  Diagram.size_states_addState _ _

theorem movesFrom_make (hs : Sound n s) (k : Configuration) (i : Nat) :
    (s.make n k).dfa.movesFrom i = s.dfa.movesFrom i :=
  hs.consistent.movesFrom_addState rfl rfl i

theorem grows_make (hs : Sound n s) (k : Configuration) : Grows h s (s.make n k) where
  standsFor hk := hs.standsFor_make_iff.mpr (Or.inl hk)
  movesFrom i _ := movesFrom_make hs k i

theorem outline_make (hs : Sound n s) (k : Configuration) (i : Nat) :
    (s.make n k).dfa.outline i = s.dfa.outline i := by
  rw [← (grows_make (h := i) hs k).map_movesFrom hs i]
  unfold Dfa.outline
  rw [movesFrom_make hs]

theorem size_states_link (s : Subsets) (source target : Nat) (c : Char) :
    (s.link source target c).dfa.states.size = s.dfa.states.size :=
  Diagram.size_states_addMove _ _ _ _

theorem movesFrom_link (hs : Sound n s) {target : Nat} (hh : h < s.dfa.states.size)
    (ht : target < s.dfa.states.size) (c : Char) (i : Nat) :
    (s.link h target c).dfa.movesFrom i =
      s.dfa.movesFrom i ++ if h = i then [⟨h, target, .symbol c⟩] else [] :=
  hs.consistent.movesFrom_addMove hh ht (.symbol c) i

theorem grows_link (hs : Sound n s) {target : Nat} (hh : h < s.dfa.states.size)
    (ht : target < s.dfa.states.size) (c : Char) : Grows h s (s.link h target c) where
  standsFor hk := hk
  movesFrom i hi := by
    rw [movesFrom_link hs hh ht, if_neg (Ne.symm hi), List.append_nil]

/-- A link is a move with the target's key. -/
theorem outline_link (hs : Sound n s) {target : Nat} (hh : h < s.dfa.states.size)
    {k : Configuration} (ht : s.dfa.StandsFor target k) (c : Char) :
    (s.link h target c).dfa.outline h = s.dfa.outline h ++ [(.symbol c, k.key)] := by
  unfold Dfa.outline
  rw [movesFrom_link hs hh (hs.lt_of_standsFor ht), if_pos rfl, List.map_append]
  rw [← ht.key_eq]
  rfl

/-- A move to a state made for the occasion. -/
theorem make_link_spec (hs : Sound n s) (hh : h < s.dfa.states.size) {k : Configuration}
    (hk : n.IsConfiguration k) (hnew : s.made[k.key]? = none) (c : Char) :
    Sound n ((s.make n k).link h s.dfa.states.size c) ∧
      Grows h s ((s.make n k).link h s.dfa.states.size c) ∧
      ((s.make n k).link h s.dfa.states.size c).dfa.outline h =
        s.dfa.outline h ++ [(.symbol c, k.key)] := by
  have hmake := hs.make hk hnew
  have htarget := hs.standsFor_make k
  have ht := hmake.lt_of_standsFor htarget
  obtain ⟨k', hk'⟩ := hs.exists_standsFor hh
  have hh' := hmake.lt_of_standsFor ((grows_make (h := h) hs k).standsFor hk')
  refine ⟨hmake.link hh' ht c, (grows_make hs k).trans (grows_link hmake hh' ht c), ?_⟩
  rw [outline_link hmake hh' htarget c, outline_make hs]

/-- What one symbol does: nothing if it leads nowhere, else a move to the state that stands for what
it leads to, which is made for the occasion if there is none. -/
theorem extend_cases (hs : Sound n s) (h : Nat) (k : Configuration) (c : Char) :
    (n.followAll k.members (.symbol c) = [] ∧
      extend n n.automaton.numbering h k.members s c = s) ∨
    ∃ k', n.followAll k.members (.symbol c) ≠ [] ∧
      k' = n.configuration n.automaton.numbering (n.followAll k.members (.symbol c)) ∧
      ((∃ target k'', s.dfa.StandsFor target k'' ∧ k''.key = k'.key ∧
          extend n n.automaton.numbering h k.members s c = s.link h target c) ∨
        (s.made[k'.key]? = none ∧
          extend n n.automaton.numbering h k.members s c =
            (s.make n k').link h s.dfa.states.size c)) := by
  unfold extend
  split
  · rename_i hnil
    exact Or.inl ⟨hnil, rfl⟩
  · rename_i hne
    refine Or.inr ⟨_, hne, rfl, ?_⟩
    dsimp only
    split
    · rename_i target hmade
      obtain ⟨k', hk', hkey⟩ := hs.made_iff.mp hmade
      exact Or.inl ⟨target, k', hk', hkey, rfl⟩
    · rename_i hnew
      exact Or.inr ⟨hnew, rfl⟩

/-- One symbol adds the move that is due on it. -/
theorem extend_spec (hn : n.Fragment) (hs : Sound n s) {k : Configuration}
    (hk : s.dfa.StandsFor h k) (c : Char) :
    Sound n (extend n n.automaton.numbering h k.members s c) ∧
      Grows h s (extend n n.automaton.numbering h k.members s c) ∧
      (extend n n.automaton.numbering h k.members s c).dfa.outline h =
        s.dfa.outline h ++ n.due k.members [c] := by
  have hh := hs.lt_of_standsFor hk
  rcases extend_cases hs h k c with
    ⟨hnil, heq⟩ | ⟨k', hne, rfl, ⟨target, k'', hk'', hkey, heq⟩ | ⟨hnew, heq⟩⟩
  · rw [heq, Nfa.due_of_eq_nil hnil, List.append_nil]
    exact ⟨hs, .refl h s, rfl⟩
  · have ht := hs.lt_of_standsFor hk''
    rw [heq, Nfa.due_of_ne_nil hne, ← hkey]
    exact ⟨hs.link hh ht c, grows_link hs hh ht c, outline_link hs hh hk'' c⟩
  · rw [heq, Nfa.due_of_ne_nil hne]
    exact make_link_spec hs hh ((hs.isConfiguration hk).followAll hn hne) hnew c

end Grows

end Subsets

end PatternAutomata
