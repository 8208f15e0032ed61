/-
  The deterministic automaton is the accessible part of the subset automaton. A key
  names a set of states if it lists the identifiers of its members, and of no other
  states (`Numbering.Names`). The keys of the automaton name what they should, each
  set has one state, and a symbol leads from a state by exactly one move to the
  state for the set that the symbol leads to, or by none if that set is empty
  (`IsSubsetAutomaton`). Such an automaton is deterministic.
-/
import PatternAutomata.Proofs.Trim

namespace PatternAutomata

/-! ## Keys as names of sets -/

/-- The key lists the identifiers of the states with a property, each once and in ascending order:
of all such states, and of no others. -/
structure Numbering.Names (num : Numbering) (key : List Nat) (P : Nat → Prop) : Prop where
  ascending : key.Pairwise (· < ·)
  sound : ∀ i ∈ key, ∃ q, num.id? q = some i ∧ P q
  complete : ∀ q, P q → ∃ i ∈ key, num.id? q = some i

theorem Numbering.Names.congr {num : Numbering} {key : List Nat} {P Q : Nat → Prop}
    (h : num.Names key P) (hPQ : ∀ q, P q ↔ Q q) : num.Names key Q := by
  have hfun : P = Q := funext fun q => propext (hPQ q)
  exact hfun ▸ h

namespace Nfa

variable {n : Nfa}

/-- A symbol, and epsilon moves after it, lead to the state from one that the key names. -/
def LeadsTo (n : Nfa) (key : List Nat) (c : Char) (q : Nat) : Prop :=
  ∃ i ∈ key, ∃ r, n.automaton.numbering.id? r = some i ∧
    ∃ t ∈ n.follow r (.symbol c), n.Path t [] q

/-- The key of a configuration names its members: none lacks an identifier. -/
theorem IsConfiguration.names (hn : n.Fragment) {k : Configuration} (hk : n.IsConfiguration k) :
    n.automaton.numbering.Names k.key (· ∈ k.members) := by
  have hv := Automaton.valid_numbering n.automaton
  have hreaches := fun q => hk.reaches hn (t := q)
  obtain ⟨seeds, -, -, rfl⟩ := hk
  refine ⟨Diagram.pairwise_key _ _ _, ?_, ?_⟩
  · intro i hi
    obtain ⟨q, hq, hmem⟩ := Diagram.mem_key.mp hi
    exact ⟨q, (Numbering.handle?_eq_some_iff hv).mp hq, hmem⟩
  · intro q hq
    obtain ⟨i, hi⟩ := Automaton.exists_id?_of_reaches hn.coherent (hreaches q hq)
    exact ⟨i, Diagram.mem_key.mpr ⟨q, (Numbering.handle?_eq_some_iff hv).mpr hi, hq⟩, hi⟩

/-- A symbol leads from a key to what it leads to from the states that the key names. -/
theorem leadsTo_iff_of_names {key : List Nat} {P : Nat → Prop}
    (h : n.automaton.numbering.Names key P) (c : Char) (q : Nat) :
    n.LeadsTo key c q ↔ ∃ r, P r ∧ ∃ t ∈ n.follow r (.symbol c), n.Path t [] q := by
  constructor
  · intro ⟨i, hi, r, hr, hq⟩
    obtain ⟨r', hr', hP⟩ := h.sound i hi
    obtain rfl := Numbering.id?_injective (Automaton.valid_numbering _) hr hr'
    exact ⟨r, hP, hq⟩
  · intro ⟨r, hP, hq⟩
    obtain ⟨i, hi, hr⟩ := h.complete r hP
    exact ⟨i, hi, r, hr, hq⟩

/-! ## What is due on one symbol -/

theorem due_cons (n : Nfa) (members : List Nat) (c : Char) (cs : List Char) :
    n.due members (c :: cs) = n.due members [c] ++ n.due members cs :=
  n.due_append members [c] cs

theorem filterMap_due_singleton (n : Nfa) (members : List Nat) (a c : Char) :
    ((n.due members [a]).filterMap fun p => if p.1 = .symbol c then some p.2 else none) =
      if a = c then (n.due members [c]).map Prod.snd else [] := by
  by_cases hnil : n.followAll members (.symbol a) = []
  · split
    · rename_i hac
      rw [← hac, due_of_eq_nil hnil]
      rfl
    · rw [due_of_eq_nil hnil]
      rfl
  · split
    · rename_i hac
      rw [← hac, due_of_ne_nil hnil]
      simp
    · rename_i hac
      rw [due_of_ne_nil hnil]
      simp [hac]

/-- What is due with the label of one symbol is due on that symbol. -/
theorem filterMap_due (n : Nfa) (members : List Nat) (c : Char) (cs : List Char) :
    ((n.due members cs).filterMap fun p => if p.1 = .symbol c then some p.2 else none) =
      (n.due members (cs.filter (· = c))).map Prod.snd := by
  induction cs with
  | nil => rfl
  | cons a cs ih =>
    rw [due_cons, List.filterMap_append, filterMap_due_singleton, ih]
    by_cases hac : a = c
    · rw [if_pos hac, List.filter_cons_of_pos (by simpa using hac), due_cons n members a,
        List.map_append, hac]
    · rw [if_neg hac, List.filter_cons_of_neg (by simpa using hac), List.nil_append]

/-- The alphabet has each symbol once, so at most one move is due on a symbol. -/
theorem filterMap_due_alphabet (hn : n.Fragment) (members : List Nat) (c : Char) :
    ((n.due members n.alphabet).filterMap fun p => if p.1 = .symbol c then some p.2 else none) =
      (n.due members [c]).map Prod.snd := by
  rw [filterMap_due, List.filter_eq, hn.consistent.nodup_alphabet.count]
  split
  · rfl
  · rename_i hc
    have hnil : n.followAll members (.symbol c) = [] := by
      refine List.eq_nil_iff_forall_not_mem.mpr fun t ht => hc ?_
      exact hn.mem_alphabet_of_mem_followAll ht
    rw [due_of_eq_nil hnil]
    rfl

end Nfa

/-! ## The automaton -/

namespace Diagram

/-- There are as many moves on a label as the label occurs. -/
theorem length_follow (d : Diagram) (h : Nat) (label : Label) :
    (d.follow h label).length = ((d.movesFrom h).map Move.label).count label := by
  unfold follow List.count
  rw [List.length_filterMap_eq_countP, List.countP_map]
  refine List.countP_congr fun m _ => ?_
  by_cases hm : m.label = label
  · simp [hm]
  · simp [hm]

end Diagram

namespace Dfa

theorem map_key_follow (d : Dfa) (h : Nat) (label : Label) :
    (d.follow h label).map d.key =
      (d.outline h).filterMap fun p => if p.1 = label then some p.2 else none := by
  unfold Diagram.follow outline
  rw [List.map_filterMap, List.filterMap_map]
  refine List.filterMap_congr fun m _ => ?_
  dsimp only [Function.comp_apply]
  split
  · rfl
  · rfl

/-- The accessible part of the subset automaton of a fragment: its states are known by their keys,
the keys name what they should, and a symbol leads to what it leads to from the key. -/
structure IsSubsetAutomaton (d : Dfa) (n : Nfa) : Prop where
  numbered : ∀ q < n.states.size, ∃ i, n.automaton.numbering.id? q = some i
  start_lt : d.start < d.states.size
  accessible : ∀ h < d.states.size, d.Reaches d.start h
  key_ne_nil : ∀ h < d.states.size, d.key h ≠ []
  ascending : ∀ h < d.states.size, (d.key h).Pairwise (· < ·)
  identifiers : ∀ h < d.states.size, ∀ i ∈ d.key h, ∃ q, n.automaton.numbering.id? q = some i
  key_injective : ∀ h < d.states.size, ∀ h' < d.states.size, d.key h = d.key h' → h = h'
  key_start : n.automaton.numbering.Names (d.key d.start) fun q => n.Path n.start [] q
  follow_nil : ∀ h < d.states.size, ∀ c, (∀ q, ¬ n.LeadsTo (d.key h) c q) →
    d.follow h (.symbol c) = []
  follow_singleton : ∀ h < d.states.size, ∀ c, (∃ q, n.LeadsTo (d.key h) c q) →
    ∃ t < d.states.size, d.follow h (.symbol c) = [t] ∧
      n.automaton.numbering.Names (d.key t) fun q => n.LeadsTo (d.key h) c q
  label_ne_epsilon : ∀ m ∈ d.moves, m.label ≠ .epsilon
  isAccept_iff : ∀ h < d.states.size,
    (d.state h).isAccept = true ↔ ∃ i ∈ d.key h, n.automaton.numbering.id? n.accept = some i

section IsSubsetAutomaton

variable {d : Dfa} {n : Nfa} (hd : d.IsSubsetAutomaton n)
include hd

/-- No symbol has two moves at a state, and no move is an epsilon move. -/
theorem IsSubsetAutomaton.deterministic : d.Deterministic := by
  intro h hlt
  have hepsilon : .epsilon ∉ (d.movesFrom h).map Move.label := by
    intro hmem
    obtain ⟨m, hm, hl⟩ := List.mem_map.mp hmem
    exact hd.label_ne_epsilon m (Diagram.mem_moves_of_mem_movesFrom hm) hl
  refine ⟨hepsilon, List.nodup_iff_count_le_one.mpr fun label => ?_⟩
  cases label with
  | epsilon =>
    rw [List.count_eq_zero.mpr hepsilon]
    exact Nat.zero_le 1
  | symbol c =>
    rw [← Diagram.length_follow]
    by_cases hc : ∃ q, n.LeadsTo (d.key h) c q
    · obtain ⟨t, -, ht, -⟩ := hd.follow_singleton h hlt c hc
      rw [ht]
      exact Nat.le_refl 1
    · rw [hd.follow_nil h hlt c (not_exists.mp hc)]
      exact Nat.zero_le 1

/-- A move reads a symbol, and leads to the state whose key names what the symbol leads to. -/
theorem IsSubsetAutomaton.names_target {h : Nat} (hlt : h < d.states.size) {P : Nat → Prop}
    (hP : n.automaton.numbering.Names (d.key h) P) {m : Move} (hm : m ∈ d.movesFrom h) :
    ∃ c, m.label = .symbol c ∧ m.target < d.states.size ∧
      n.automaton.numbering.Names (d.key m.target) fun q =>
        ∃ r, P r ∧ ∃ t ∈ n.follow r (.symbol c), n.Path t [] q := by
  cases hl : m.label with
  | epsilon => exact absurd hl (hd.label_ne_epsilon m (Diagram.mem_moves_of_mem_movesFrom hm))
  | symbol c =>
    have hmem := Diagram.mem_follow.mpr ⟨m, hm, hl, rfl⟩
    have hc : ∃ q, n.LeadsTo (d.key h) c q := by
      by_contra hnone
      rw [hd.follow_nil h hlt c (not_exists.mp hnone)] at hmem
      cases hmem
    obtain ⟨target, htarget, hfollow, hnames⟩ := hd.follow_singleton h hlt c hc
    rw [hfollow, List.mem_singleton] at hmem
    rw [hmem]
    exact ⟨c, rfl, htarget, hnames.congr (Nfa.leadsTo_iff_of_names hP c)⟩

/-- If a key names a set closed under epsilon moves, a word leads from its state to the one whose key
names what the word leads to from that set. -/
theorem IsSubsetAutomaton.names_of_path {h t : Nat} {w : List Char} (hw : d.Path h w t)
    (hlt : h < d.states.size) {P : Nat → Prop} (hP : n.automaton.numbering.Names (d.key h) P)
    (hclosed : ∀ q r, P q → n.Path q [] r → P r) :
    n.automaton.numbering.Names (d.key t) fun q => ∃ p, P p ∧ n.Path p w q := by
  induction hw generalizing P with
  | nil h =>
    refine hP.congr fun q => ?_
    constructor
    · intro hq
      exact ⟨q, hq, .nil q⟩
    · intro ⟨p, hp, hpq⟩
      exact hclosed p q hp hpq
  | @cons h t m w hm _ ih =>
    obtain ⟨c, hl, htarget, hnames⟩ := hd.names_target hlt hP hm
    rw [hl]
    -- The symbol leads to a closed set, and the rest of the word leads on from there.
    refine (ih htarget hnames ?_).congr fun q => ?_
    · intro q r ⟨p, hp, u, hu, huq⟩ hqr
      exact ⟨p, hp, u, hu, huq.append hqr⟩
    · constructor
      · intro ⟨p, ⟨r, hr, u, hu, hup⟩, hpq⟩
        exact ⟨r, hr, Diagram.path_cons_iff.mpr ⟨r, u, .nil r, hu, hup.append hpq⟩⟩
      · intro ⟨p, hp, hpq⟩
        obtain ⟨r, u, hpr, hu, huq⟩ := Diagram.path_cons_iff.mp hpq
        exact ⟨u, ⟨r, hclosed p r hp hpr, u, hu, .nil u⟩, huq⟩

/-- The key of the state that a word leads to names all states that the word leads to. -/
theorem IsSubsetAutomaton.names_of_path_start {h : Nat} {w : List Char}
    (hw : d.Path d.start w h) :
    n.automaton.numbering.Names (d.key h) fun q => n.Path n.start w q := by
  have hclosed : ∀ q r, n.Path n.start [] q → n.Path q [] r → n.Path n.start [] r :=
    fun q r hq hqr => hq.append hqr
  refine (hd.names_of_path hw hd.start_lt hd.key_start hclosed).congr fun q => ?_
  constructor
  · intro ⟨p, hp, hpq⟩
    exact hp.append hpq
  · intro hq
    exact ⟨n.start, .nil n.start, hq⟩

end IsSubsetAutomaton

end Dfa

namespace Subsets

variable {n : Nfa} {s : Subsets} {h : Nat}

section Expanded

variable (hp : Progress n s.dfa.states.size s)
include hp

theorem Progress.names (hn : n.Fragment) {k : Configuration} (hk : s.dfa.StandsFor h k) :
    n.automaton.numbering.Names (s.dfa.key h) (· ∈ k.members) := by
  rw [hk.key_eq]
  exact (hp.isConfiguration hk).names hn

theorem Progress.label_ne_epsilon {m : Move} (hm : m ∈ s.dfa.moves) : m.label ≠ .epsilon := by
  intro hl
  have hfrom := hp.consistent.mem_movesFrom.mpr ⟨hm, rfl⟩
  obtain ⟨k, -, hdue⟩ := hp.exists_due hfrom
  obtain ⟨c, -, -, hl', -⟩ := Nfa.mem_due.mp hdue
  rw [hl] at hl'
  cases hl'

variable (hn : n.Fragment)
include hn

theorem Progress.leadsTo_iff {k : Configuration} (hk : s.dfa.StandsFor h k) (c : Char) (q : Nat) :
    n.LeadsTo (s.dfa.key h) c q ↔
      ∃ t ∈ n.followAll k.members (.symbol c), n.Path t [] q := by
  rw [Nfa.leadsTo_iff_of_names (hp.names hn hk)]
  constructor
  · intro ⟨r, hr, t, ht, hq⟩
    exact ⟨t, Diagram.mem_followAll.mpr ⟨r, hr, ht⟩, hq⟩
  · intro ⟨t, ht, hq⟩
    obtain ⟨r, hr, ht⟩ := Diagram.mem_followAll.mp ht
    exact ⟨r, hr, t, ht, hq⟩

theorem Progress.map_key_follow {k : Configuration} (hk : s.dfa.StandsFor h k) (c : Char) :
    (s.dfa.follow h (.symbol c)).map s.dfa.key = (n.due k.members [c]).map Prod.snd := by
  rw [Dfa.map_key_follow, hp.expanded (hp.lt_of_standsFor hk) hk, Nfa.filterMap_due_alphabet hn]

/-- A symbol that leads nowhere from the key has no move. -/
theorem Progress.follow_eq_nil (hlt : h < s.dfa.states.size) {c : Char}
    (hc : ∀ q, ¬ n.LeadsTo (s.dfa.key h) c q) : s.dfa.follow h (.symbol c) = [] := by
  obtain ⟨k, hk⟩ := hp.exists_standsFor hlt
  have hnil : n.followAll k.members (.symbol c) = [] := by
    refine List.eq_nil_iff_forall_not_mem.mpr fun t ht => hc t ?_
    exact (hp.leadsTo_iff hn hk c t).mpr ⟨t, ht, .nil t⟩
  have hkeys := hp.map_key_follow hn hk c
  rw [Nfa.due_of_eq_nil hnil] at hkeys
  exact List.map_eq_nil_iff.mp hkeys

/-- Any other symbol has one move, to the state for what it leads to. -/
theorem Progress.follow_eq_singleton (hlt : h < s.dfa.states.size) {c : Char}
    (hc : ∃ q, n.LeadsTo (s.dfa.key h) c q) :
    ∃ t < s.dfa.states.size, s.dfa.follow h (.symbol c) = [t] ∧
      n.automaton.numbering.Names (s.dfa.key t) fun q => n.LeadsTo (s.dfa.key h) c q := by
  obtain ⟨k, hk⟩ := hp.exists_standsFor hlt
  have hleads := hp.leadsTo_iff hn hk c
  have hne : n.followAll k.members (.symbol c) ≠ [] := by
    obtain ⟨q, hq⟩ := hc
    obtain ⟨t, ht, -⟩ := (hleads q).mp hq
    exact List.ne_nil_of_mem ht
  have hkeys := hp.map_key_follow hn hk c
  rw [Nfa.due_of_ne_nil hne] at hkeys
  obtain ⟨t, ht, hkey⟩ := List.map_eq_singleton_iff.mp hkeys
  have hmem : t ∈ s.dfa.follow h (.symbol c) := by
    rw [ht]
    exact List.mem_singleton.mpr rfl
  refine ⟨t, hp.consistent.coherent.follow_lt hmem, ht, ?_⟩
  rw [hkey]
  refine (((hp.isConfiguration hk).followAll hn hne).names hn).congr fun q => ?_
  rw [hleads]
  exact hn.mem_configuration (fun r hr => (hp.isConfiguration hk).reaches_of_mem_followAll hn hr) q

/-- A state is marked as accepting if its key names the accepting state of the fragment. -/
theorem Progress.isAccept_iff_key (hlt : h < s.dfa.states.size) :
    (s.dfa.state h).isAccept = true ↔
      ∃ i ∈ s.dfa.key h, n.automaton.numbering.id? n.accept = some i := by
  obtain ⟨k, hk⟩ := hp.exists_standsFor hlt
  have hnames := hp.names hn hk
  refine (hp.isAccept_iff hk).trans ?_
  constructor
  · intro ⟨q, hq, hacc⟩
    rw [(hn.isAccept_iff q).mp hacc] at hq
    exact hnames.complete n.accept hq
  · intro ⟨i, hi, hid⟩
    obtain ⟨q, hq, hmem⟩ := hnames.sound i hi
    obtain rfl := Numbering.id?_injective (Automaton.valid_numbering _) hid hq
    exact ⟨n.accept, hmem, (hn.isAccept_iff n.accept).mpr rfl⟩

theorem Progress.isSubsetAutomaton (ht : n.Through) (hac : s.Accessible) :
    s.dfa.IsSubsetAutomaton n where
  numbered q hq := Automaton.exists_id?_of_reaches hn.coherent (ht q hq).1
  start_lt := hp.coherent.start_lt
  accessible i hi := by
    rw [hp.start]
    exact hac i hi
  key_ne_nil i hi := by
    obtain ⟨k, hk⟩ := hp.exists_standsFor hi
    obtain ⟨q, hq⟩ := (hp.isConfiguration hk).exists_mem hn
    obtain ⟨j, hj, -⟩ := (hp.names hn hk).complete q hq
    exact List.ne_nil_of_mem hj
  ascending i hi := by
    obtain ⟨k, hk⟩ := hp.exists_standsFor hi
    exact (hp.names hn hk).ascending
  identifiers i hi j hj := by
    obtain ⟨k, hk⟩ := hp.exists_standsFor hi
    obtain ⟨q, hq, -⟩ := (hp.names hn hk).sound j hj
    exact ⟨q, hq⟩
  key_injective i hi j hj hkey := by
    obtain ⟨k, hk⟩ := hp.exists_standsFor hi
    obtain ⟨k', hk'⟩ := hp.exists_standsFor hj
    rw [hk.key_eq, hk'.key_eq] at hkey
    exact hp.eq_of_key_eq hk hk' hkey
  key_start := by
    rw [hp.start]
    refine (hp.names hn hp.entry).congr fun q => ?_
    rw [hn.mem_configuration n.reaches_of_mem_start]
    simp only [List.mem_singleton, exists_eq_left]
  follow_nil _ hi _ hc := hp.follow_eq_nil hn hi hc
  follow_singleton _ hi _ hc := hp.follow_eq_singleton hn hi hc
  label_ne_epsilon _ hm := hp.label_ne_epsilon hm
  isAccept_iff _ hi := hp.isAccept_iff_key hn hi

end Expanded

end Subsets

section Built

variable {n : Nfa} (h : n.Built)
include h

theorem Nfa.Built.isSubsetAutomaton : (Dfa.ofNfa n).IsSubsetAutomaton n := by
  have hn := h.fragment
  obtain ⟨s, heq, hp, hac⟩ := Subsets.accessible_ofNfa hn
  rw [heq]
  exact hp.isSubsetAutomaton hn h.through hac

/-- The walk that looks for a symbol seen before finds none. -/
theorem Nfa.Built.isDeterministic_ofNfa : (Dfa.ofNfa n).isDeterministic = true :=
  Diagram.isDeterministic_iff.mpr h.isSubsetAutomaton.deterministic

end Built

/-- Determinizing a fragment gives the accessible part of its subset automaton, and so a
deterministic automaton. -/
theorem isSubsetAutomaton_ofNfa (n : Nfa) (h : n.Built) :
    (Dfa.ofNfa n).IsSubsetAutomaton n ∧ (Dfa.ofNfa n).Deterministic :=
  ⟨h.isSubsetAutomaton, h.isSubsetAutomaton.deterministic⟩

theorem isSubsetAutomaton_ofNfa_copies_closed :
    ((Nfa.symbol 'a').alternate (Nfa.symbol 'a')).closure.Built ∧
      (Dfa.ofNfa ((Nfa.symbol 'a').alternate (Nfa.symbol 'a')).closure).IsSubsetAutomaton
        ((Nfa.symbol 'a').alternate (Nfa.symbol 'a')).closure ∧
      (Dfa.ofNfa ((Nfa.symbol 'a').alternate (Nfa.symbol 'a')).closure).Deterministic := by
  have hbuilt : ((Nfa.symbol 'a').alternate (Nfa.symbol 'a')).closure.Built :=
    .closure (.alternate (.symbol 'a') (.symbol 'a'))
  exact ⟨hbuilt, isSubsetAutomaton_ofNfa _ hbuilt⟩

end PatternAutomata
