/-
  No state is useless. In a fragment, paths lead from the start to every state and
  from every state to the accepting one (`Through`), since a combinator joins the
  bounds of its operands to its own. So all states of a fragment are numbered. In a
  deterministic automaton each state is made together with a move that leads to it,
  and it leads on to an accepting state because its members do.
-/
import PatternAutomata.Proofs.Determinization
import PatternAutomata.Proofs.Operands

namespace PatternAutomata

/-! ## Reaching -/

namespace Diagram

variable {d e : Diagram}

theorem Reaches.refl (d : Diagram) (s : Nat) : d.Reaches s s := ⟨[], .nil s⟩

theorem Reaches.trans {s t u : Nat} (h : d.Reaches s t) (h' : d.Reaches t u) : d.Reaches s u := by
  obtain ⟨v, hv⟩ := h
  obtain ⟨w, hw⟩ := h'
  exact ⟨v ++ w, hv.append hw⟩

theorem Reaches.single {s : Nat} {m : Move} (h : m ∈ d.movesFrom s) : d.Reaches s m.target :=
  ⟨_, Path.single h⟩

theorem Reaches.epsilon (hd : d.Consistent) {s t : Nat}
    (h : { source := s, target := t, label := .epsilon } ∈ d.moves) : d.Reaches s t :=
  ⟨[], .epsilon hd h⟩

/-- In a diagram that has the moves of another one `k` places further on, what reached still does. -/
theorem Reaches.shift (hd : d.Consistent) (he : e.Consistent) {k : Nat}
    (hmoves : ∀ m ∈ d.moves, m.shift k ∈ e.moves) {s t : Nat} (h : d.Reaches s t) :
    e.Reaches (s + k) (t + k) := by
  obtain ⟨w, hw⟩ := h
  exact ⟨w, hw.shift hd he hmoves⟩

theorem Reaches.mono (h : ∀ s, ∀ m ∈ d.movesFrom s, m ∈ e.movesFrom s) {s t : Nat}
    (hst : d.Reaches s t) : e.Reaches s t := by
  obtain ⟨w, hw⟩ := hst
  induction hw with
  | nil s => exact .refl e s
  | cons hm _ ih => exact (Reaches.single (h _ _ hm)).trans ih

end Diagram

/-! ## Fragments -/

namespace Nfa

/-- A path through the fragment leads over each of its states. -/
def Through (n : Nfa) : Prop :=
  ∀ h < n.states.size, n.Reaches n.start h ∧ n.Reaches h n.accept

section Through

variable {a b e : Nfa} {k : Nat}

/-- A path over a state of an operand goes on to both ends of the whole, if the operand's bounds are
joined to them. -/
theorem Through.of_operand (ht : a.Through) (ha : a.Fragment) (he : e.Fragment)
    (hmoves : ∀ m ∈ a.moves, m.shift k ∈ e.moves) (hin : e.Reaches e.start (a.start + k))
    (hout : e.Reaches (a.accept + k) e.accept) {h : Nat} (hlt : h < a.states.size) :
    e.Reaches e.start (h + k) ∧ e.Reaches (h + k) e.accept := by
  obtain ⟨hfrom, hto⟩ := ht h hlt
  exact ⟨hin.trans (hfrom.shift ha.consistent he.consistent hmoves),
    (hto.shift ha.consistent he.consistent hmoves).trans hout⟩

theorem through_symbol (c : Char) : (symbol c).Through := by
  have hmove : (symbol c).Reaches 0 1 := .single (m := ⟨0, 1, .symbol c⟩)
    ((fragment_symbol c).consistent.mem_movesFrom.mpr ⟨mem_moves_symbol.mpr rfl, rfl⟩)
  intro h hlt
  have hh : h = 0 ∨ h = 1 := by
    simp [symbol] at hlt
    omega
  rcases hh with rfl | rfl
  · exact ⟨.refl _ 0, hmove⟩
  · exact ⟨hmove, .refl _ 1⟩

theorem Fragment.through_alternate (ha : a.Fragment) (hb : b.Fragment) (hta : a.Through)
    (htb : b.Through) : (a.alternate b).Through := by
  have he := ha.alternate hb
  have hleft : ∀ h < a.states.size, (a.alternate b).Reaches (a.alternate b).start h ∧
      (a.alternate b).Reaches h (a.alternate b).accept := by
    intro h hlt
    exact hta.of_operand (k := 0) ha he (fun m hm => mem_moves_alternate.mpr (Or.inl hm))
      (.epsilon he.consistent (by simp [mem_moves_alternate]))
      (.epsilon he.consistent (by simp [mem_moves_alternate])) hlt
  have hright : ∀ h < b.states.size,
      (a.alternate b).Reaches (a.alternate b).start (h + a.states.size) ∧
        (a.alternate b).Reaches (h + a.states.size) (a.alternate b).accept := by
    intro h hlt
    exact htb.of_operand hb he
      (fun m hm => mem_moves_alternate.mpr (Or.inr (Or.inl ⟨m, hm, rfl⟩)))
      (.epsilon he.consistent (by simp [mem_moves_alternate]))
      (.epsilon he.consistent (by simp [mem_moves_alternate])) hlt
  obtain ⟨hfrom, hto⟩ := hleft a.start ha.start_lt
  intro h hlt
  rcases lt_alternate_cases hlt with (hh | ⟨k, hk, rfl⟩) | rfl | rfl
  · exact hleft h hh
  · exact hright k hk
  · exact ⟨.refl _ _, hfrom.trans hto⟩
  · exact ⟨hfrom.trans hto, .refl _ _⟩

theorem Fragment.through_concat (ha : a.Fragment) (hb : b.Fragment) (hta : a.Through)
    (htb : b.Through) : (a.concat b).Through := by
  have he := ha.concat hb
  have hleft : ∀ m ∈ a.moves, m.shift 0 ∈ (a.concat b).moves :=
    fun m hm => mem_moves_concat.mpr (Or.inl hm)
  have hright : ∀ m ∈ b.moves, m.shift a.states.size ∈ (a.concat b).moves :=
    fun m hm => mem_moves_concat.mpr (Or.inr (Or.inl ⟨m, hm, rfl⟩))
  have hjoint : (a.concat b).Reaches a.accept (b.start + a.states.size) :=
    .epsilon he.consistent (by simp [mem_moves_concat])
  have hstart : (a.concat b).Reaches (a.concat b).start (a.start + 0) := by
    rw [start_concat]
    exact .refl _ a.start
  have haccept : (a.concat b).Reaches (b.accept + a.states.size) (a.concat b).accept := by
    rw [accept_concat]
    exact .refl _ _
  -- Each operand's path is lengthened by that of the other one, over the joint.
  have hfirst : (a.concat b).Reaches (a.start + 0) (a.accept + 0) :=
    (hta a.start ha.start_lt).2.shift ha.consistent he.consistent hleft
  have hsecond : (a.concat b).Reaches (b.start + a.states.size) (b.accept + a.states.size) :=
    (htb b.start hb.start_lt).2.shift hb.consistent he.consistent hright
  intro h hlt
  rcases lt_concat_cases hlt with hh | ⟨k, hk, rfl⟩
  · exact hta.of_operand ha he hleft hstart ((hjoint.trans hsecond).trans haccept) hh
  · exact htb.of_operand hb he hright ((hstart.trans hfirst).trans hjoint) haccept hk

theorem Fragment.through_closure (ha : a.Fragment) (hta : a.Through) : a.closure.Through := by
  have he := ha.closure
  have hnone : a.closure.Reaches a.closure.start a.closure.accept :=
    .epsilon he.consistent (by simp [mem_moves_closure])
  intro h hlt
  rcases lt_closure_cases hlt with hh | rfl | rfl
  · exact hta.of_operand (k := 0) ha he (fun m hm => mem_moves_closure.mpr (Or.inl hm))
      (.epsilon he.consistent (by simp [mem_moves_closure]))
      (.epsilon he.consistent (by simp [mem_moves_closure])) hh
  · exact ⟨.refl _ _, hnone⟩
  · exact ⟨hnone, .refl _ _⟩

end Through

theorem through_ofExpr (e : Expr) : (ofExpr e).Through := by
  induction e with
  | symbol c => exact through_symbol c
  | alternate a b iha ihb =>
    exact (fragment_ofExpr a).through_alternate (fragment_ofExpr b) iha ihb
  | concat a b iha ihb => exact (fragment_ofExpr a).through_concat (fragment_ofExpr b) iha ihb
  | closure a ih => exact (fragment_ofExpr a).through_closure ih

theorem Built.through {n : Nfa} (h : n.Built) : n.Through := by
  obtain ⟨e, rfl⟩ := exists_ofExpr_of_built h
  exact through_ofExpr e

end Nfa

/-! ## Automata without useless states -/

namespace Automaton

/-- Every state can be reached from the start and can reach an accepting state. -/
def Trim (a : Automaton) : Prop :=
  ∀ h < a.states.size, a.Reaches a.start h ∧
    ∃ t ∈ a.accepting, (a.state t).isAccept = true ∧ a.Reaches h t

/-- If all states can be reached, the numbering lists all of them. -/
theorem perm_order_numbering {a : Automaton} (hc : a.Coherent)
    (h : ∀ s < a.states.size, a.Reaches a.start s) :
    a.numbering.order.Perm (List.range a.states.size) := by
  have hv := valid_numbering a
  refine (List.perm_ext_iff_of_nodup hv.nodup List.nodup_range).mpr fun s => ?_
  rw [List.mem_range, Array.mem_toList_iff]
  constructor
  · exact hv.lt
  · intro hs
    exact (mem_order_numbering hc s).mpr (h s hs)

end Automaton

theorem Nfa.Fragment.trim {n : Nfa} (hn : n.Fragment) (ht : n.Through) : n.automaton.Trim := by
  intro h hlt
  obtain ⟨hfrom, hto⟩ := ht h hlt
  exact ⟨hfrom, n.accept, List.mem_singleton.mpr rfl, (hn.isAccept_iff n.accept).mpr rfl, hto⟩

/-! ## Deterministic automata -/

namespace Subsets

variable {n : Nfa} {s : Subsets} {h : Nat}

/-- Every state made so far can be reached from the first one. -/
def Accessible (s : Subsets) : Prop := ∀ h < s.dfa.states.size, s.dfa.Reaches 0 h

theorem accessible_initial (n : Nfa) : (initial n n.automaton.numbering).Accessible := by
  intro h hlt
  have hh : h = 0 := by
    unfold initial at hlt
    rw [size_states_make] at hlt
    exact Nat.lt_one_iff.mp hlt
  rw [hh]
  exact .refl _ 0

/-- A move more leaves what could be reached so, and lets its target be reached if its source is. -/
theorem reaches_link (hs : Sound n s) {target : Nat} (hh : h < s.dfa.states.size)
    (ht : target < s.dfa.states.size) (c : Char) :
    (∀ {i j}, s.dfa.Reaches i j → (s.link h target c).dfa.Reaches i j) ∧
      (s.link h target c).dfa.Reaches h target := by
  have hlinked : ∀ i, ∀ m ∈ s.dfa.movesFrom i, m ∈ (s.link h target c).dfa.movesFrom i := by
    intro i m hm
    rw [movesFrom_link hs hh ht]
    exact List.mem_append_left _ hm
  have hnew : ⟨h, target, .symbol c⟩ ∈ (s.link h target c).dfa.movesFrom h := by
    rw [movesFrom_link hs hh ht, if_pos rfl]
    exact List.mem_append_right _ (List.mem_singleton.mpr rfl)
  exact ⟨.mono hlinked, .single hnew⟩

theorem reaches_make (hs : Sound n s) (k : Configuration) {i j : Nat} (hij : s.dfa.Reaches i j) :
    (s.make n k).dfa.Reaches i j := by
  refine hij.mono fun r m hm => ?_
  rw [movesFrom_make hs]
  exact hm

theorem Accessible.extend (hn : n.Fragment) (hac : s.Accessible) (hs : Sound n s)
    {k : Configuration} (hk : s.dfa.StandsFor h k) (c : Char) :
    (extend n n.automaton.numbering h k.members s c).Accessible := by
  have hh := hs.lt_of_standsFor hk
  rcases extend_cases hs h k c with
    ⟨-, heq⟩ | ⟨k', hne, hk', ⟨target, k'', hk'', -, heq⟩ | ⟨hnew, heq⟩⟩
  · rw [heq]
    exact hac
  · rw [heq]
    intro i hi
    rw [size_states_link] at hi
    exact (reaches_link hs hh (hs.lt_of_standsFor hk'') c).1 (hac i hi)
  · rw [heq]
    have hmake := hs.make (hk' ▸ (hs.isConfiguration hk).followAll hn hne) hnew
    have hsize := size_states_make n s k'
    have hh' : h < (s.make n k').dfa.states.size := by omega
    have ht' : s.dfa.states.size < (s.make n k').dfa.states.size := by omega
    obtain ⟨hold, htarget⟩ := reaches_link hmake hh' ht' c
    intro i hi
    rw [size_states_link, hsize] at hi
    rcases Nat.lt_succ_iff_lt_or_eq.mp hi with hi | rfl
    · exact hold (reaches_make hs k' (hac i hi))
    · exact (hold (reaches_make hs k' (hac h hh))).trans htarget

/-- The members of a state lead on to the accepting state, so the state leads on to an accepting
one. -/
theorem Progress.reaches_accepting (hn : n.Fragment) (ht : n.Through)
    (hp : Progress n s.dfa.states.size s) (hlt : h < s.dfa.states.size) :
    ∃ t ∈ s.dfa.accepting, (s.dfa.state t).isAccept = true ∧ s.dfa.Reaches h t := by
  obtain ⟨k, hk⟩ := hp.exists_standsFor hlt
  obtain ⟨q, hq⟩ := (hp.isConfiguration hk).exists_mem hn
  obtain ⟨w, hw⟩ := (ht q (hn.lt_of_reaches ((hp.isConfiguration hk).reaches hn hq))).2
  have hleads : n.automaton.LeadsOn k.members w :=
    ⟨q, hq, n.accept, hw, (hn.isAccept_iff n.accept).mpr rfl⟩
  obtain ⟨i, hi, t, hpath, hacc⟩ := (hp.leadsOn_iff hn hk w).mpr hleads
  rw [List.mem_singleton.mp hi] at hpath
  refine ⟨t, ?_, hacc, w, hpath⟩
  rw [hp.accepting, List.mem_filter, List.mem_range]
  exact ⟨hpath.lt hp.consistent.coherent hlt, hacc⟩

/-- The construction ends with all states expanded, and each of them reached. -/
theorem accessible_ofNfa (hn : n.Fragment) :
    ∃ s, Dfa.ofNfa n = s.dfa ∧ Progress n s.dfa.states.size s ∧ s.Accessible :=
  ofNfa_induction hn (motive := fun _ s => s.Accessible) (fun c hs hk hac => hac.extend hn hs hk c)
    (fun _ hac => hac) (accessible_initial n)

end Subsets

/-- Both automata are trim: no state is out of reach of the start or of an accepting state. All states
of a fragment are numbered, and its deterministic automaton has an accepting state. -/
theorem trim_of_built (n : Nfa) (h : n.Built) :
    n.automaton.Trim ∧
      n.automaton.numbering.size = n.states.size ∧
      n.automaton.numbering.order.Perm (List.range n.states.size) ∧
      (Dfa.ofNfa n).Trim ∧ (Dfa.ofNfa n).accepting ≠ [] := by
  have hn := h.fragment
  have ht := h.through
  have hperm : n.automaton.numbering.order.Perm (List.range n.states.size) :=
    Automaton.perm_order_numbering hn.coherent fun s hs => (ht s hs).1
  have hsize : n.automaton.numbering.size = n.states.size := by
    have hlength := hperm.length_eq
    rw [List.length_range] at hlength
    exact hlength
  obtain ⟨s, heq, hp, hac⟩ := Subsets.accessible_ofNfa hn
  have htrim : s.dfa.Trim := by
    intro i hi
    refine ⟨?_, hp.reaches_accepting hn ht hi⟩
    rw [hp.start]
    exact hac i hi
  obtain ⟨t, hmem, -⟩ := hp.reaches_accepting hn ht (hp.lt_of_standsFor hp.entry)
  rw [heq]
  exact ⟨hn.trim ht, hsize, hperm, htrim, List.ne_nil_of_mem hmem⟩

theorem trim_of_built_concatenation_closed :
    ((Nfa.symbol 'a').concat (Nfa.symbol 'b')).closure.Built ∧
      ((Nfa.symbol 'a').concat (Nfa.symbol 'b')).closure.automaton.Trim ∧
      ((Nfa.symbol 'a').concat (Nfa.symbol 'b')).closure.automaton.numbering.size =
        ((Nfa.symbol 'a').concat (Nfa.symbol 'b')).closure.states.size ∧
      ((Nfa.symbol 'a').concat (Nfa.symbol 'b')).closure.automaton.numbering.order.Perm
        (List.range ((Nfa.symbol 'a').concat (Nfa.symbol 'b')).closure.states.size) ∧
      (Dfa.ofNfa ((Nfa.symbol 'a').concat (Nfa.symbol 'b')).closure).Trim ∧
      (Dfa.ofNfa ((Nfa.symbol 'a').concat (Nfa.symbol 'b')).closure).accepting ≠ [] := by
  have hbuilt : ((Nfa.symbol 'a').concat (Nfa.symbol 'b')).closure.Built :=
    .closure (.concat (.symbol 'a') (.symbol 'b'))
  exact ⟨hbuilt, trim_of_built _ hbuilt⟩

end PatternAutomata
