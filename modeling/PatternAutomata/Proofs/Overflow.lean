/-
  No handle overflows. While a sequence is evaluated, every fragment on the stack
  lists its part of it, so if what the whole weighs fits into 32 bits, all of them
  fit (`Nfa.fits_of_run`). A pattern of fewer than 2^30 characters weighs at most
  four for each. So compiling with handles of 32 bits takes the steps that compiling
  with numbers takes, and is refused where that is (`Compact.Nfa.ofPattern_reads`).
  A fragment that fits, however it is built, is built with handles in the same way
  (`Nfa.Built.exists_compact`). The identifiers of states fit as well, since there are
  no more of them than states (`Compact.Nfa.numbering_yields`).

  Handles of deterministic automata are numbers throughout and have no reading in 32
  bits, so nothing is said of them here.
-/
import PatternAutomata.Proofs.Compact
import PatternAutomata.Proofs.Search
import PatternAutomata.Proofs.Sizes
import PatternAutomata.Regex

namespace PatternAutomata

/-! ## Fragments on the stack -/

namespace Nfa

open Token (weight)

/-- The fragments that a run leaves are those of trees that list the tokens. -/
theorem exists_trees_of_run {ts : List Token} {s : List Nfa}
    (h : ts.foldlM fragments.step [] = .ok s) :
    ∃ es : List Expr, es.reverse.flatMap Expr.postorder = ts ∧ s = es.map ofExpr := by
  have hmap := fragments.run_map_interpret [] ts
  rw [List.map_nil, h] at hmap
  cases hrun : ts.foldlM Expr.trees.step [] with
  | error e =>
    rw [hrun] at hmap
    cases hmap
  | ok es =>
    rw [hrun] at hmap
    exact ⟨es, Interpretation.postorder_of_run hrun, Except.ok.inj hmap⟩

theorem fragment_of_run {ts : List Token} {s : List Nfa}
    (h : ts.foldlM fragments.step [] = .ok s) : ∀ n ∈ s, n.Fragment := by
  obtain ⟨es, -, rfl⟩ := exists_trees_of_run h
  intro n hn
  obtain ⟨e, -, rfl⟩ := List.mem_map.mp hn
  exact fragment_ofExpr e

/-- The states and moves that a sequence stands for fit into 32 bits. The moves are one less than what
it weighs. -/
structure Light (ts : List Token) : Prop where
  states : weight 2 2 2 ts < UInt32.size
  moves : weight 2 3 4 ts ≤ UInt32.size

theorem Light.of_sublist {ts us : List Token} (h : Light us) (hs : ts.Sublist us) : Light ts where
  states := Nat.lt_of_le_of_lt (Token.weight_le_of_sublist hs) h.states
  moves := Nat.le_trans (Token.weight_le_of_sublist hs) h.moves

theorem light_of_weight {ts : List Token} (h : weight 4 4 4 ts < UInt32.size) : Light ts where
  states := Nat.lt_of_le_of_lt (Token.weight_mono (by decide) (by decide) (by decide) ts) h
  moves := Nat.le_of_lt
    (Nat.lt_of_le_of_lt (Token.weight_mono (by decide) (by decide) (by decide) ts) h)

/-- Light expressions are those whose fragments fit. -/
theorem fits_ofExpr_iff {e : Expr} : (ofExpr e).Fits ↔ Light e.postorder := by
  constructor
  · intro h
    refine ⟨?_, ?_⟩
    · rw [← size_states_ofExpr]
      exact h.states
    · rw [← size_moves_ofExpr]
      exact h.moves
  · intro h
    refine ⟨?_, ?_⟩
    · rw [size_states_ofExpr]
      exact h.states
    · have hmoves := h.moves
      rw [← size_moves_ofExpr] at hmoves
      exact hmoves

/-- No fragment on the stack weighs more than what was read. -/
theorem fits_of_run {ts : List Token} {s : List Nfa} (hts : Light ts)
    (h : ts.foldlM fragments.step [] = .ok s) : ∀ n ∈ s, n.Fits := by
  obtain ⟨es, rfl, rfl⟩ := exists_trees_of_run h
  intro n hn
  obtain ⟨e, he, rfl⟩ := List.mem_map.mp hn
  have hsub : e.postorder.Sublist (es.reverse.flatMap Expr.postorder) :=
    List.sublist_flatten_of_mem (List.mem_map_of_mem (List.mem_reverse.mpr he))
  exact fits_ofExpr_iff.mpr (hts.of_sublist hsub)

end Nfa

namespace Compact

/-! ## Results that correspond -/

section Reads

variable {α β α' β' : Type} {v : α → β} {w : α' → β'}

/-- The result with handles reads as the one with numbers, or is refused for the same cause. -/
def Reads (v : α → β) (x : Except Fault α) (y : Except Error β) : Prop :=
  x.map v = y.mapError .refused

theorem Reads.bind {x : Except Fault α} {y : Except Error β} {f : α → Except Fault α'}
    {g : β → Except Error β'} (h : Reads v x y)
    (hf : ∀ a, y = .ok (v a) → Reads w (f a) (g (v a))) : Reads w (x >>= f) (y >>= g) := by
  cases x with
  | error e =>
    cases y with
    | error e' =>
      cases h
      rfl
    | ok b => cases h
  | ok a =>
    cases y with
    | error e' => cases h
    | ok b =>
      obtain rfl : v a = b := Except.ok.inj h
      exact hf a rfl

theorem Reads.eq_ok {a : α} {y : Except Error β} (h : Reads v (.ok a) y) : y = .ok (v a) := by
  cases y with
  | error e => cases h
  | ok b =>
    obtain rfl : v a = b := Except.ok.inj h
    rfl

end Reads

/-! ## Compiling -/

namespace Nfa

theorem push_reads {stack : List Nfa} {x : Except Fault Nfa} {n : PatternAutomata.Nfa}
    (h : Yields x (·.value = n)) :
    Reads (List.map value) ((· :: stack) <$> x) (.ok (n :: stack.map value)) := by
  obtain ⟨a, rfl, rfl⟩ := h
  rfl

/-- A token has the same effect on the stack, if what it leaves there fits. -/
theorem step_reads {stack : List Nfa} (hstack : ∀ n ∈ stack, n.value.Fragment) (t : Token)
    (hfits : ∀ s, Nfa.fragments.step (stack.map value) t = .ok s → ∀ n ∈ s, n.Fits) :
    Reads (List.map value) (step stack t) (Nfa.fragments.step (stack.map value) t) := by
  cases t with
  | operand c => exact push_reads (symbol_yields c)
  | operator op =>
    cases op with
    | closure =>
      rcases stack with _ | ⟨a, stack⟩
      · rfl
      · exact push_reads (closure_yields (hfits _ rfl _ List.mem_cons_self))
    | alternation =>
      rcases stack with _ | ⟨b, _ | ⟨a, stack⟩⟩
      · rfl
      · rfl
      · exact push_reads (alternate_yields (hstack b List.mem_cons_self)
          (hfits _ rfl _ List.mem_cons_self))
    | concatenation =>
      rcases stack with _ | ⟨b, _ | ⟨a, stack⟩⟩
      · rfl
      · rfl
      · exact push_reads (concat_yields (hstack b List.mem_cons_self)
          (hfits _ rfl _ List.mem_cons_self))
  | leftGroup => rfl
  | rightGroup => rfl

/-- Light sequences have the same effect. -/
theorem run_reads {ts : List Token} (hts : Nfa.Light ts) :
    Reads (List.map value) (ts.foldlM step []) (ts.foldlM Nfa.fragments.step []) := by
  induction ts using List.reverseRecOn with
  | nil => rfl
  | append_singleton ts t ih =>
    rw [List.foldlM_append, List.foldlM_append]
    refine (ih (hts.of_sublist (List.sublist_append_left ts [t]))).bind fun stack hrun => ?_
    rw [run_singleton, run_singleton]
    refine step_reads (fun n hn => ?_) t fun s hstep => ?_
    · exact Nfa.fragment_of_run hrun _ (List.mem_map_of_mem hn)
    · refine Nfa.fits_of_run hts ?_
      rw [run_append_of_ok hrun, run_singleton]
      exact hstep

theorem onlyValue_reads (stack : List Nfa) :
    Reads value ((onlyValue stack).mapError .refused) (onlyValue (stack.map value)) := by
  rcases stack with _ | ⟨a, _ | ⟨b, stack⟩⟩
  · rfl
  · rfl
  · simp [Reads, onlyValue, Except.map, Except.mapError]

theorem ofPostfix_reads {p : Postfix} (hp : Nfa.Light p.tokens) :
    Reads value (ofPostfix p) (PatternAutomata.Nfa.ofPostfix p) :=
  (run_reads hp).bind fun stack _ => onlyValue_reads stack

end Nfa

/-- A short pattern weighs little, and its postorder as much. -/
theorem light_of_ofPattern {p : String} (hp : p.length < 2 ^ 30) {post : Postfix}
    (h : Postfix.ofPattern p = .ok post) : Nfa.Light post.tokens := by
  refine Nfa.light_of_weight ?_
  have hle := Token.weight_ofChars_le 4 p.toList
  have hsize : UInt32.size = 2 ^ 30 * 4 := rfl
  rw [String.length_toList] at hle
  rw [Postfix.weight_of_ofTokens h, Token.tokenize_eq_ofChars, hsize]
  omega

theorem Nfa.ofPattern_reads {p : String} (hp : p.length < 2 ^ 30) :
    Reads value (ofPattern p) ((Regex.ofPattern p).map Regex.nfa) := by
  have hpost : Reads id ((Postfix.ofPattern p).mapError .refused) (Postfix.ofPattern p) := by
    cases Postfix.ofPattern p with
    | error e => rfl
    | ok post => rfl
  rw [Regex.map_nfa_ofPattern]
  exact hpost.bind fun post h => ofPostfix_reads (light_of_ofPattern hp h)

/-- The fragment of a short pattern fits. -/
theorem Nfa.fits_of_ofPattern {p : String} (hp : p.length < 2 ^ 30) {n : Nfa}
    (h : ofPattern p = .ok n) : n.value.Fits := by
  have hread := ofPattern_reads hp
  rw [h] at hread
  have hnfa := hread.eq_ok
  rw [Regex.map_nfa_ofPattern] at hnfa
  cases hpost : Postfix.ofPattern p with
  | error e =>
    rw [hpost] at hnfa
    cases hnfa
  | ok post =>
    rw [hpost, ok_bind] at hnfa
    obtain ⟨e, he, hn⟩ := PatternAutomata.Nfa.ofPostfix_eq_ok_iff.mp hnfa
    rw [hn]
    exact PatternAutomata.Nfa.fits_ofExpr_iff.mpr (he ▸ light_of_ofPattern hp hpost)

/-! ## Numbering -/

namespace Numbering

variable {n : Numbering}

theorem value_blank (k : Nat) : (blank k).value.roster = Roster.blank k := by
  simp [blank, value, Roster.blank]

theorem places_value_eq_iff (n : Numbering) (h : UInt32) :
    n.value.roster.places[h.toNat]? = some none ↔ n.ids[h.toNat]? = some 0 := by
  simp [value]

/-- The identifier of a new state is one above the number of states before it. -/
theorem enter_yields (h : UInt32) (hfits : n.vacancies + n.order.size < UInt32.size) :
    Yields (n.enter h) (·.value.roster = n.value.roster.enter h.toNat) := by
  have hplace := places_value_eq_iff n h
  unfold enter Roster.enter
  by_cases hfree : n.ids[h.toNat]? = some 0
  · obtain ⟨hlt, hzero⟩ := Array.getElem?_eq_some_iff.mp hfree
    have hpos : 0 < n.ids.count 0 := Array.count_pos_iff.mpr (hzero ▸ Array.getElem_mem hlt)
    rw [if_pos hfree, hplace.mpr hfree]
    unfold vacancies at hfits
    refine (handle_yields (n := (n.order.push h).size) ?_).bind fun id hid => yields_ok ?_
    · rw [Array.size_push]
      omega
    · rw [Array.size_push] at hid
      have hne : id ≠ 0 := by
        rintro rfl
        cases hid
      simp [value, hne, hid]
  · rw [if_neg hfree]
    refine yields_ok ?_
    split
    · rename_i hnone
      exact absurd (hplace.mp hnone) hfree
    · rfl

theorem enterAll_yields (hs : List UInt32) (hfits : n.vacancies + n.order.size < UInt32.size) :
    Yields (n.enterAll hs) (·.value.roster = n.value.roster.enterAll (hs.map UInt32.toNat)) := by
  induction hs generalizing n with
  | nil => exact yields_ok rfl
  | cons h hs ih =>
    obtain ⟨m, hm, hvalue⟩ := enter_yields h hfits
    rw [← vacancies_enter hm] at hfits
    unfold enterAll Roster.enterAll
    rw [List.foldlM_cons, hm, ok_bind, List.map_cons, List.foldl_cons, ← hvalue]
    exact ih hfits

/-- Exploring takes the same turns: the same neighbours are new, and they are numbered in order. -/
theorem explore_yields {next : UInt32 → List UInt32} {next' : Nat → List Nat}
    (hnext : ∀ h, (next h).map UInt32.toNat = next' h.toNat) (n : Numbering) (i : Nat)
    (hfits : n.vacancies + n.order.size < UInt32.size) :
    Yields (n.explore next i) (·.value.roster = n.value.roster.explore next' i) := by
  fun_induction explore next n i with
  | case1 n i hlt m hm ih =>
    have hlt' : i < n.value.roster.order.size := by simpa [value] using hlt
    have hget : n.value.roster.order[i] = n.order[i].toNat := by simp [value]
    obtain ⟨m', hm', hvalue⟩ := enterAll_yields (next n.order[i]) hfits
    obtain rfl : m = m' := Except.ok.inj (hm.symm.trans hm')
    rw [Roster.explore, dif_pos hlt', hget, ← hnext, ← hvalue]
    exact ih (by rwa [vacancies_enterAll hm])
  | case2 n i hlt f hf =>
    obtain ⟨m, hm, -⟩ := enterAll_yields (next n.order[i]) hfits
    rw [hf] at hm
    cases hm
  | case3 n i hge =>
    have hge' : ¬ i < n.value.roster.order.size := by simpa [value] using hge
    rw [Roster.explore, dif_neg hge']
    exact yields_ok rfl

end Numbering

/-- The successors of a state are those of its number. -/
theorem Diagram.map_successors (d : Diagram) (h : UInt32) :
    (d.successors h).map UInt32.toNat = d.value.successors h.toNat := by
  have hstate : d.value.state h.toNat = (d.states[h.toNat]?.getD {}).value := by
    unfold PatternAutomata.Diagram.state value
    rw [Array.getElem?_map]
    cases d.states[h.toNat]? with
    | none => rfl
    | some s => rfl
  unfold successors PatternAutomata.Diagram.successors PatternAutomata.Diagram.movesFrom
  rw [hstate]
  simp [value, State.value, Move.value, List.map_filterMap, List.filterMap_map, Function.comp_def]

/-- There are no more identifiers than states, so those of a fragment that fits do. -/
theorem Nfa.numbering_yields (n : Nfa) (hfits : n.value.Fits) :
    Yields n.numbering (·.value = n.value.automaton.numbering) := by
  have hsize : n.value.states.size = n.states.size := n.size_states_value
  have hblank : (Numbering.blank n.states.size).vacancies +
      (Numbering.blank n.states.size).order.size < UInt32.size := by
    have hstates := hfits.states
    simpa [Numbering.blank, Numbering.vacancies, ← hsize] using hstates
  unfold numbering PatternAutomata.Automaton.numbering
  obtain ⟨m, hm, hstart⟩ := Numbering.enter_yields n.start hblank
  rw [← Numbering.vacancies_enter hm] at hblank
  obtain ⟨k, hk, hall⟩ := Numbering.explore_yields n.map_successors m 0 hblank
  have hroster : k.value.roster = n.value.automaton.numbering.roster := by
    rw [hall, hstart, Numbering.value_blank, ← hsize]
    rfl
  rw [hm, ok_bind]
  exact ⟨k, hk, congrArg PatternAutomata.Numbering.mk hroster⟩

end Compact

/-! ## However fragments are built -/

namespace Nfa

variable {a b n : Nfa}

theorem fits_of_alternate (h : (a.alternate b).Fits) : a.Fits ∧ b.Fits := by
  have hs := h.states
  have hm := h.moves
  rw [size_states_alternate] at hs
  rw [size_moves_alternate] at hm
  exact ⟨⟨by omega, by omega⟩, by omega, by omega⟩

theorem fits_of_concat (h : (a.concat b).Fits) : a.Fits ∧ b.Fits := by
  have hs := h.states
  have hm := h.moves
  rw [size_states_concat] at hs
  rw [size_moves_concat] at hm
  exact ⟨⟨by omega, by omega⟩, by omega, by omega⟩

theorem fits_of_closure (h : a.closure.Fits) : a.Fits := by
  have hs := h.states
  have hm := h.moves
  rw [size_states_closure] at hs
  rw [size_moves_closure] at hm
  exact ⟨by omega, by omega⟩

/-- A fragment that fits is built with handles in the way in which it is built with numbers, and
its states are numbered alike. -/
theorem Built.exists_compact (hn : n.Built) (hfits : n.Fits) :
    ∃ m : Compact.Nfa, m.Built ∧ m.value = n ∧
      m.numbering.map Compact.Numbering.value = .ok n.automaton.numbering := by
  suffices h : ∃ m : Compact.Nfa, m.Built ∧ m.value = n by
    obtain ⟨m, hm, rfl⟩ := h
    obtain ⟨num, hnum, hvalue⟩ := m.numbering_yields hfits
    exact ⟨m, hm, rfl, by rw [hnum, ← hvalue]; rfl⟩
  induction hn with
  | symbol c =>
    obtain ⟨m, hm, hvalue⟩ := Compact.Nfa.symbol_yields c
    exact ⟨m, .symbol hm, hvalue⟩
  | alternate ha hb iha ihb =>
    obtain ⟨x, hx, rfl⟩ := iha (fits_of_alternate hfits).1
    obtain ⟨y, hy, rfl⟩ := ihb (fits_of_alternate hfits).2
    obtain ⟨m, hm, hvalue⟩ := Compact.Nfa.alternate_yields hb.fragment hfits
    exact ⟨m, .alternate hx hy hm, hvalue⟩
  | concat ha hb iha ihb =>
    obtain ⟨x, hx, rfl⟩ := iha (fits_of_concat hfits).1
    obtain ⟨y, hy, rfl⟩ := ihb (fits_of_concat hfits).2
    obtain ⟨m, hm, hvalue⟩ := Compact.Nfa.concat_yields hb.fragment hfits
    exact ⟨m, .concat hx hy hm, hvalue⟩
  | closure ha iha =>
    obtain ⟨x, hx, rfl⟩ := iha (fits_of_closure hfits)
    obtain ⟨m, hm, hvalue⟩ := Compact.Nfa.closure_yields hfits
    exact ⟨m, .closure hx hm, hvalue⟩
  | @ofPostfix p n hp =>
    obtain ⟨e, he, rfl⟩ := ofPostfix_eq_ok_iff.mp hp
    have hreads := Compact.Nfa.ofPostfix_reads (p := p) (he ▸ fits_ofExpr_iff.mp hfits)
    rw [hp] at hreads
    cases hm : Compact.Nfa.ofPostfix p with
    | error f =>
      rw [hm] at hreads
      cases hreads
    | ok m =>
      rw [hm] at hreads
      exact ⟨m, .ofPostfix hm, Except.ok.inj hreads⟩

end Nfa

/-- How large the fragment of a pattern is: two states for each alternation, closure and character
that stands for itself, and moves in proportion. If the pattern has fewer than 2^30 characters, then
compiling it with handles of 32 bits gives what compiling it with numbers does, for a refusal the
cause, and so does numbering the states; no handle overflows. -/
theorem sizes_of_ofPattern (p : String) :
    (∀ n, Regex.ofPattern p = .ok ⟨n⟩ →
      n.states.size =
        2 * (p.toList.countP (¬ Reserved ·) + p.toList.count '|' + p.toList.count '*') ∧
      (n.moves.size : Int) = 2 * p.toList.countP (¬ Reserved ·) - 1 + 3 * p.toList.count '|' +
        4 * p.toList.count '*') ∧
    (p.length < 2 ^ 30 →
      (Compact.Nfa.ofPattern p).map Compact.Nfa.value =
        ((Regex.ofPattern p).map Regex.nfa).mapError .refused ∧
      ∀ n, Compact.Nfa.ofPattern p = .ok n →
        n.numbering.map Compact.Numbering.value = .ok n.value.automaton.numbering) := by
  constructor
  · intro n hn
    obtain ⟨hstates, hmoves⟩ := Regex.sizes_of_ok hn
    omega
  · intro hp
    refine ⟨Compact.Nfa.ofPattern_reads hp, fun n hn => ?_⟩
    obtain ⟨num, hnum, hvalue⟩ := n.numbering_yields (Compact.Nfa.fits_of_ofPattern hp hn)
    rw [hnum, ← hvalue]
    rfl

/-- A group, an alternation and a closure: three symbols, ten states and twelve moves. -/
theorem sizes_of_ofPattern_grouped :
    Regex.ofPattern "(a|b)*c" = .ok ⟨(((Nfa.symbol 'a').alternate (Nfa.symbol 'b')).closure).concat
      (Nfa.symbol 'c')⟩ ∧
    ((((Nfa.symbol 'a').alternate (Nfa.symbol 'b')).closure).concat
      (Nfa.symbol 'c')).states.size = 10 ∧
    ((((Nfa.symbol 'a').alternate (Nfa.symbol 'b')).closure).concat
      (Nfa.symbol 'c')).moves.size = 12 ∧
    ∃ n, Compact.Nfa.ofPattern "(a|b)*c" = .ok n ∧
      n.value = (((Nfa.symbol 'a').alternate (Nfa.symbol 'b')).closure).concat (Nfa.symbol 'c') ∧
      n.numbering.map Compact.Numbering.value = .ok n.value.automaton.numbering := by
  have hpattern : Regex.ofPattern "(a|b)*c" = .ok ⟨(((Nfa.symbol 'a').alternate
      (Nfa.symbol 'b')).closure).concat (Nfa.symbol 'c')⟩ := by
    decide +kernel
  obtain ⟨hsizes, hhandles⟩ := sizes_of_ofPattern "(a|b)*c"
  obtain ⟨hstates, hmoves⟩ := hsizes _ hpattern
  obtain ⟨hread, hnumbering⟩ := hhandles (by decide)
  refine ⟨hpattern, hstates, Int.ofNat.inj hmoves, ?_⟩
  rw [hpattern] at hread
  cases hn : Compact.Nfa.ofPattern "(a|b)*c" with
  | error f =>
    rw [hn] at hread
    cases hread
  | ok n =>
    rw [hn] at hread
    exact ⟨n, rfl, Except.ok.inj hread, hnumbering n hn⟩

end PatternAutomata
