/-
  Subset construction, run to its end. States are expanded in order; those behind
  have all moves that are due, those ahead none (`Progress`). Distinct states have
  distinct keys, so the states that can come up are bounded and the fuel suffices
  (`expands_ofNfa`). What holds of the start, is kept by one symbol at the state
  under way and goes over to the next state holds in the end (`ofNfa_induction`).
  Then every state has the moves that are due, and a word leads on from a state as
  it does from its members (`Progress.leadsOn_iff`). So the language is that of the
  fragment.
-/
import PatternAutomata.Proofs.Subsets

namespace PatternAutomata

namespace Subsets

variable {n : Nfa} {s t : Subsets} {h : Nat}

/-! ## Expanding a state -/

/-- Several symbols add the moves that are due on them, in order. -/
theorem foldl_extend_spec (hn : n.Fragment) {k : Configuration} (cs : List Char) (hs : Sound n s)
    (hk : s.dfa.StandsFor h k) :
    Sound n (cs.foldl (extend n n.automaton.numbering h k.members) s) ∧
      Grows h s (cs.foldl (extend n n.automaton.numbering h k.members) s) ∧
      (cs.foldl (extend n n.automaton.numbering h k.members) s).dfa.outline h =
        s.dfa.outline h ++ n.due k.members cs := by
  induction cs generalizing s with
  | nil => exact ⟨hs, .refl h s, (List.append_nil _).symm⟩
  | cons c cs ih =>
    obtain ⟨hs', hg, ho⟩ := extend_spec hn hs hk c
    obtain ⟨hs'', hg', ho'⟩ := ih hs' (hg.standsFor hk)
    refine ⟨hs'', hg.trans hg', ?_⟩
    rw [List.foldl_cons, ho', ho, List.append_assoc, ← Nfa.due_append]
    rfl

theorem expand_spec (hn : n.Fragment) {k : Configuration} (hs : Sound n s)
    (hk : s.dfa.StandsFor h k) :
    Sound n (expand n n.automaton.numbering s h) ∧
      Grows h s (expand n n.automaton.numbering s h) ∧
      (expand n n.automaton.numbering s h).dfa.outline h =
        s.dfa.outline h ++ n.due k.members n.alphabet := by
  unfold expand
  rw [show s.dfa.configurations[h]? = some k from hk]
  exact foldl_extend_spec hn n.alphabet hs hk

/-- The states before `h` have the moves that are due, and those from `h` on none yet. -/
structure Progress (n : Nfa) (h : Nat) (s : Subsets) : Prop extends Sound n s where
  entry : s.dfa.StandsFor 0 (n.configuration n.automaton.numbering [n.start])
  expanded : ∀ {i k}, i < h → s.dfa.StandsFor i k → s.dfa.outline i = n.due k.members n.alphabet
  idle : ∀ i, h ≤ i → s.dfa.movesFrom i = []

theorem progress_initial (n : Nfa) : Progress n 0 (initial n n.automaton.numbering) := by
  have hempty := sound_empty n
  have hs := hempty.make n.isConfiguration_start (by simp)
  refine ⟨hs, hempty.standsFor_make _, fun hi => absurd hi (Nat.not_lt_zero _), ?_⟩
  intro i _
  exact movesFrom_make hempty _ i

/-- Expanding the next state. -/
theorem Progress.expand (hn : n.Fragment) (hp : Progress n h s) (hlt : h < s.dfa.states.size) :
    Progress n (h + 1) (expand n n.automaton.numbering s h) := by
  obtain ⟨k, hk⟩ := hp.exists_standsFor hlt
  obtain ⟨hs, hg, ho⟩ := expand_spec hn hp.toSound hk
  refine ⟨hs, hg.standsFor hp.entry, ?_, ?_⟩
  · intro i k' hi hk'
    rcases Nat.lt_succ_iff_lt_or_eq.mp hi with hi | rfl
    · -- A state behind was there before, with the configuration it has.
      obtain ⟨k₀, hk₀⟩ := hp.exists_standsFor (Nat.lt_trans hi hlt)
      obtain rfl := (hg.standsFor hk₀).unique hk'
      rw [hg.outline_eq hp.toSound (Nat.ne_of_lt hi)]
      exact hp.expanded hi hk₀
    · obtain rfl := (hg.standsFor hk).unique hk'
      have hidle : s.dfa.outline i = [] := by
        unfold Dfa.outline
        rw [hp.idle i (Nat.le_refl i), List.map_nil]
      rw [ho, hidle, List.nil_append]
  · intro i hi
    rw [hg.movesFrom i (by omega)]
    exact hp.idle i (by omega)

theorem Progress.of_expands (hn : n.Fragment) (he : Expands n n.automaton.numbering h s t)
    (hp : Progress n h s) : Progress n t.dfa.states.size t := by
  induction he with
  | done hh =>
    rw [← hh]
    exact hp
  | more hlt _ ih => exact ih (hp.expand hn hlt)

/-! ## Coming to an end -/

/-- Keys are different sublists of one list, so there are not too many states. -/
theorem Sound.size_le (hs : Sound n s) : s.dfa.states.size ≤ Nat.pow 2 n.states.size := by
  have hnodup : (s.dfa.configurations.toList.map Configuration.key).Nodup := by
    rw [List.nodup_iff_injective_getElem]
    intro i j hij
    have hi : s.dfa.StandsFor i s.dfa.configurations[i] := Array.getElem?_eq_getElem _
    have hj : s.dfa.StandsFor j s.dfa.configurations[j] := Array.getElem?_eq_getElem _
    apply Fin.ext
    refine hs.eq_of_key_eq hi hj ?_
    simpa using hij
  have hsub : s.dfa.configurations.toList.map Configuration.key ⊆
      (List.range' 1 n.automaton.numbering.size).sublists := by
    intro key hkey
    obtain ⟨k, hk, rfl⟩ := List.mem_map.mp hkey
    obtain ⟨h, hh⟩ := Array.mem_iff_getElem?.mp (Array.mem_toList_iff.mp hk)
    obtain ⟨seeds, -, -, rfl⟩ := hs.isConfiguration hh
    exact List.mem_sublists.mpr (Diagram.key_sublist _ _ _)
  have hlen := (List.subperm_of_subset hnodup hsub).length_le
  rw [List.length_map, Array.length_toList, hs.size, List.length_sublists,
    List.length_range'] at hlen
  have hnum := Numbering.size_le (Automaton.valid_numbering n.automaton)
  exact hlen.trans (Nat.pow_le_pow_right (by decide) hnum)

/-- With fuel for all states that can come up, the construction comes to its end. -/
theorem expands_expandFrom (hn : n.Fragment) (fuel : Nat) (hp : Progress n h s)
    (hle : h ≤ s.dfa.states.size) (hfuel : Nat.pow 2 n.states.size ≤ fuel + h) :
    Expands n n.automaton.numbering h s (expandFrom n n.automaton.numbering fuel h s) := by
  induction fuel generalizing h s with
  | zero =>
    have hsize := hp.size_le
    exact .done (by omega)
  | succ fuel ih =>
    unfold expandFrom
    split
    · rename_i hlt
      obtain ⟨k, hk⟩ := hp.exists_standsFor hlt
      obtain ⟨hs, hg, -⟩ := expand_spec hn hp.toSound hk
      have hlt' := hs.lt_of_standsFor (hg.standsFor hk)
      exact .more hlt (ih (hp.expand hn hlt) hlt' (by omega))
    · exact .done (by omega)

/-- The construction of a fragment's deterministic automaton ends with all states expanded. -/
theorem expands_ofNfa (hn : n.Fragment) :
    ∃ s, Dfa.ofNfa n = s.dfa ∧
      Expands n n.automaton.numbering 0 (initial n n.automaton.numbering) s :=
  ⟨_, rfl, expands_expandFrom hn _ (progress_initial n) (Nat.zero_le _) (Nat.le_refl _)⟩

theorem progress_ofNfa (hn : n.Fragment) :
    ∃ s, Dfa.ofNfa n = s.dfa ∧ Progress n s.dfa.states.size s := by
  obtain ⟨s, heq, hexpands⟩ := expands_ofNfa hn
  exact ⟨s, heq, (progress_initial n).of_expands hn hexpands⟩

/-! ## Induction over the construction -/

section Induction

variable (hn : n.Fragment) {motive : Nat → Subsets → Prop}
  (extend : ∀ {s h k} (c : Char), Sound n s → s.dfa.StandsFor h k → motive h s →
    motive h (extend n n.automaton.numbering h k.members s c))
include hn extend

theorem foldl_extend_induction {k : Configuration} (cs : List Char) (hs : Sound n s)
    (hk : s.dfa.StandsFor h k) (hm : motive h s) :
    motive h (cs.foldl (Subsets.extend n n.automaton.numbering h k.members) s) := by
  induction cs generalizing s with
  | nil => exact hm
  | cons c cs ih =>
    obtain ⟨hs', hg, -⟩ := extend_spec hn hs hk c
    exact ih hs' (hg.standsFor hk) (extend c hs hk hm)

variable (next : ∀ {s h}, Progress n (h + 1) s → motive h s → motive (h + 1) s)
include next

theorem expands_induction (he : Expands n n.automaton.numbering h s t) (hp : Progress n h s)
    (hm : motive h s) : motive t.dfa.states.size t := by
  induction he with
  | done hh =>
    rw [← hh]
    exact hm
  | @more h s t hlt _ ih =>
    have hp' := hp.expand hn hlt
    refine ih hp' (next hp' ?_)
    obtain ⟨k, hk⟩ := hp.exists_standsFor hlt
    unfold Subsets.expand
    rw [show s.dfa.configurations[h]? = some k from hk]
    exact foldl_extend_induction hn extend n.alphabet hp.toSound hk hm

/-- What holds when the start is made, is kept by one symbol at the state under way, and goes over to
the next state, holds in the end. -/
theorem ofNfa_induction (initial : motive 0 (initial n n.automaton.numbering)) :
    ∃ s, Dfa.ofNfa n = s.dfa ∧ Progress n s.dfa.states.size s ∧ motive s.dfa.states.size s := by
  obtain ⟨s, heq, hexpands⟩ := expands_ofNfa hn
  have hp := progress_initial n
  exact ⟨s, heq, hp.of_expands hn hexpands, expands_induction hn extend next hexpands hp initial⟩

end Induction

/-! ## The language

  From here on, all states are expanded.
-/

section Language

variable (hp : Progress n s.dfa.states.size s)
include hp

theorem Progress.exists_due {m : Move} (hm : m ∈ s.dfa.movesFrom h) :
    ∃ k, s.dfa.StandsFor h k ∧ (m.label, s.dfa.key m.target) ∈ n.due k.members n.alphabet := by
  have hlt : h < s.dfa.states.size := by
    by_contra hge
    rw [hp.idle h (Nat.le_of_not_lt hge)] at hm
    cases hm
  obtain ⟨k, hk⟩ := hp.exists_standsFor hlt
  refine ⟨k, hk, ?_⟩
  rw [← hp.expanded hlt hk]
  exact List.mem_map.mpr ⟨m, hm, rfl⟩

/-- There are no epsilon moves, so a path that spells nothing goes nowhere. -/
theorem Progress.eq_of_path_nil {t : Nat} (hpath : s.dfa.Path h [] t) : t = h := by
  generalize hw : ([] : List Char) = w at hpath
  cases hpath with
  | nil _ => rfl
  | @cons _ _ m _ hm _ =>
    obtain ⟨k, -, hdue⟩ := hp.exists_due hm
    obtain ⟨c, -, -, hl, -⟩ := Nfa.mem_due.mp hdue
    rw [hl] at hw
    cases hw

theorem Progress.closed_singleton (h : Nat) : s.dfa.Closed [h] := by
  intro q hq t hqt
  rw [List.mem_singleton] at hq ⊢
  rw [hp.eq_of_path_nil hqt, hq]

/-- A move on a symbol leads to the state for what the symbol leads to. -/
theorem Progress.mem_members_follow (hn : n.Fragment) {k k' : Configuration} {c : Char} {r : Nat}
    (hk : s.dfa.StandsFor h k) (hr : r ∈ s.dfa.follow h (.symbol c))
    (hk' : s.dfa.StandsFor r k') (t : Nat) :
    t ∈ k'.members ↔ ∃ q ∈ n.followAll k.members (.symbol c), n.Path q [] t := by
  obtain ⟨m, hm, hl, rfl⟩ := Diagram.mem_follow.mp hr
  obtain ⟨k₀, hk₀, hdue⟩ := hp.exists_due hm
  obtain rfl := hk.unique hk₀
  obtain ⟨c', -, hne, hl', hkey⟩ := Nfa.mem_due.mp hdue
  rw [hl, Label.symbol.injEq] at hl'
  subst hl'
  have hconf := (hp.isConfiguration hk).followAll hn hne
  rw [hk'.key_eq] at hkey
  rw [(hp.isConfiguration hk').mem_congr hn hconf hkey]
  exact hn.mem_configuration
    (fun q hq => (hp.isConfiguration hk).reaches_of_mem_followAll hn hq) t

/-- Where a symbol leads on from the members, there is a move on it. -/
theorem Progress.exists_follow (hn : n.Fragment) {k : Configuration} {c : Char} {r : Nat}
    (hk : s.dfa.StandsFor h k) (hr : r ∈ n.followAll k.members (.symbol c)) :
    ∃ u, u ∈ s.dfa.follow h (.symbol c) := by
  have hc := hn.mem_alphabet_of_mem_followAll hr
  have hdue := Nfa.mem_due.mpr ⟨c, hc, List.ne_nil_of_mem hr, rfl, rfl⟩
  rw [← hp.expanded (hp.lt_of_standsFor hk) hk] at hdue
  obtain ⟨m', hm', heq⟩ := List.mem_map.mp hdue
  exact ⟨m'.target, Diagram.mem_follow.mpr ⟨m', hm', (Prod.mk.inj heq).1, rfl⟩⟩

/-- A word leads from a state to an accepting one as it leads on from the state's members. -/
theorem Progress.leadsOn_iff (hn : n.Fragment) {k : Configuration} (hk : s.dfa.StandsFor h k)
    (w : List Char) :
    s.dfa.LeadsOn [h] w ↔ n.automaton.LeadsOn k.members w := by
  have hcl := (hp.isConfiguration hk).closed hn
  induction w generalizing h k with
  | nil =>
    rw [Automaton.leadsOn_nil (hp.closed_singleton h), Automaton.leadsOn_nil hcl]
    simp only [List.mem_singleton, exists_eq_left]
    exact hp.isAccept_iff hk
  | cons c w ih =>
    rw [Automaton.leadsOn_cons (hp.closed_singleton h), Automaton.leadsOn_cons hcl]
    have hfollow : s.dfa.followAll [h] (.symbol c) = s.dfa.follow h (.symbol c) := by
      unfold Diagram.followAll
      rw [List.flatMap_singleton]
    rw [hfollow]
    -- Each state that the symbol leads to stands for what it leads to from the members.
    have hstep : ∀ r ∈ s.dfa.follow h (.symbol c), s.dfa.LeadsOn [r] w ↔
        n.automaton.LeadsOn (n.followAll k.members (.symbol c)) w := by
      intro r hr
      obtain ⟨k', hk'⟩ := hp.exists_standsFor (hp.consistent.coherent.follow_lt hr)
      have hmembers := Automaton.leadsOn_closure (a := n.automaton)
        (hp.mem_members_follow hn hk hr hk') w
      exact (ih hk' ((hp.isConfiguration hk').closed hn)).trans hmembers
    rw [Automaton.leadsOn_iff_exists]
    constructor
    · intro ⟨r, hr, hw⟩
      exact (hstep r hr).mp hw
    · intro hw
      obtain ⟨q, hq, -⟩ := id hw
      obtain ⟨r, hr⟩ := hp.exists_follow hn hk hq
      exact ⟨r, hr, (hstep r hr).mpr hw⟩

theorem Progress.coherent : s.dfa.toAutomaton.Coherent where
  toCoherent := hp.consistent.coherent
  start_lt := by
    rw [hp.start]
    exact hp.lt_of_standsFor hp.entry

theorem Progress.accepts_eq (hn : n.Fragment) (w : List Char) :
    s.dfa.accepts w = n.automaton.accepts w := by
  have hstart := hn.mem_configuration n.reaches_of_mem_start
  rw [Bool.eq_iff_iff, Automaton.accepts_iff_path hp.coherent,
    Automaton.accepts_iff_path hn.coherent, Automaton.acceptsByPath_iff,
    Automaton.acceptsByPath_iff, hp.start, hp.leadsOn_iff hn hp.entry]
  exact Automaton.leadsOn_closure hstart w

end Language

end Subsets

/-- Determinizing keeps the language: a fragment and its deterministic automaton accept the same
words, whatever symbols they have. -/
theorem accepts_ofNfa (n : Nfa) (h : n.Built) (w : List Char) :
    (Dfa.ofNfa n).accepts w = n.automaton.accepts w := by
  obtain ⟨e, rfl⟩ := Nfa.exists_ofExpr_of_built h
  have hn := Nfa.fragment_ofExpr e
  obtain ⟨s, heq, hp⟩ := Subsets.progress_ofNfa hn
  rw [heq]
  exact hp.accepts_eq hn w

theorem accepts_ofNfa_alternation_closed :
    ((Nfa.symbol 'a').alternate (Nfa.symbol 'b')).closure.Built ∧
      (Dfa.ofNfa ((Nfa.symbol 'a').alternate (Nfa.symbol 'b')).closure).accepts "abc".toList =
        ((Nfa.symbol 'a').alternate (Nfa.symbol 'b')).closure.automaton.accepts "abc".toList := by
  have hbuilt : ((Nfa.symbol 'a').alternate (Nfa.symbol 'b')).closure.Built :=
    .closure (.alternate (.symbol 'a') (.symbol 'b'))
  exact ⟨hbuilt, accepts_ofNfa _ hbuilt "abc".toList⟩

end PatternAutomata
