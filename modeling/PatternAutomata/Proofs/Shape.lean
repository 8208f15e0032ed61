/-
  The shape of fragments. Nothing enters the start or leaves the accepting state,
  and everywhere else one move leaves, or two that read nothing, and one move or
  two enter (`Shape`). What holds of operands holds of their combinations, since
  there the bounds of the operands only get the moves that they lack.
-/
import PatternAutomata.Proofs.Operands

namespace PatternAutomata

namespace Nfa

/-! ## The shape -/

/-- One move, or two that read nothing. -/
def Forks (ms : List Move) : Prop :=
  (∃ m, ms = [m]) ∨ ∃ m m', ms = [m, m'] ∧ m.label = .epsilon ∧ m'.label = .epsilon

/-- One move or two. -/
def Joins (ms : List Move) : Prop := ms.length = 1 ∨ ms.length = 2

theorem Forks.map_shift {ms : List Move} (h : Forks ms) (k : Nat) : Forks (ms.map (·.shift k)) := by
  rcases h with ⟨m, rfl⟩ | ⟨m, m', rfl, hm, hm'⟩
  · exact Or.inl ⟨m.shift k, rfl⟩
  · exact Or.inr ⟨m.shift k, m'.shift k, rfl, hm, hm'⟩

theorem Joins.map_shift {ms : List Move} (h : Joins ms) (k : Nat) : Joins (ms.map (·.shift k)) := by
  unfold Joins
  rw [List.length_map]
  exact h

theorem Forks.length {ms : List Move} (h : Forks ms) : ms.length = 1 ∨ ms.length = 2 := by
  rcases h with ⟨m, rfl⟩ | ⟨m, m', rfl, -, -⟩
  · exact Or.inl rfl
  · exact Or.inr rfl

/-- A move that reads a symbol is the only one. -/
theorem Forks.eq_singleton {ms : List Move} (h : Forks ms) {m : Move} (hm : m ∈ ms) {c : Char}
    (hc : m.label = .symbol c) : ms = [m] := by
  rcases h with ⟨m', rfl⟩ | ⟨m₁, m₂, rfl, h1, h2⟩
  · rw [List.mem_singleton.mp hm]
  · rcases List.mem_pair.mp hm with rfl | rfl
    · rw [h1] at hc
      cases hc
    · rw [h2] at hc
      cases hc

/-- No move enters the start or leaves the accepting state. Every other state is left by one move or
by two that read nothing, and entered by one or two. -/
structure Shape (n : Nfa) : Prop where
  target_start : n.movesAt Move.target n.start = []
  source_accept : n.movesAt Move.source n.accept = []
  forks : ∀ h < n.states.size, h ≠ n.accept → Forks (n.movesAt Move.source h)
  joins : ∀ h < n.states.size, h ≠ n.start → Joins (n.movesAt Move.target h)

section Operand

variable {a e : Nfa} {k : Nat} {leaving entering : List Move}

/-- In the whole, a state of an operand is left as it was, and its accepting state by the moves
added. -/
theorem Operand.forks (ho : Operand a k e leaving entering) (hs : a.Shape) {h : Nat}
    (hlt : h < a.states.size) (hl : h = a.accept → Forks leaving) :
    Forks (e.movesAt Move.source (h + k)) := by
  rw [ho.source h hlt]
  by_cases hh : a.accept = h
  · subst hh
    rw [if_pos rfl, hs.source_accept]
    exact hl rfl
  · rw [if_neg hh, List.append_nil]
    exact (hs.forks h hlt (Ne.symm hh)).map_shift k

theorem Operand.joins (ho : Operand a k e leaving entering) (hs : a.Shape) {h : Nat}
    (hlt : h < a.states.size) (he : h = a.start → Joins entering) :
    Joins (e.movesAt Move.target (h + k)) := by
  rw [ho.target h hlt]
  by_cases hh : a.start = h
  · subst hh
    rw [if_pos rfl, hs.target_start]
    exact he rfl
  · rw [if_neg hh, List.append_nil]
    exact (hs.joins h hlt (Ne.symm hh)).map_shift k

end Operand

theorem shape_symbol (c : Char) : (symbol c).Shape where
  target_start := rfl
  source_accept := rfl
  forks h hlt hne := by
    have hh : h = 0 := by
      simp [symbol] at hlt hne
      omega
    subst hh
    exact Or.inl ⟨_, rfl⟩
  joins h hlt hne := by
    have hh : h = 1 := by
      simp [symbol] at hlt hne
      omega
    subst hh
    exact Or.inl rfl

section Combinators

variable {a b : Nfa}

theorem Fragment.shape_alternate (ha : a.Fragment) (hb : b.Fragment) (hsa : a.Shape)
    (hsb : b.Shape) : (a.alternate b).Shape where
  target_start := (ha.newBounds_alternate hb).target_start
  source_accept := (ha.newBounds_alternate hb).source_accept
  forks h hlt hne := by
    rcases lt_alternate_cases hlt with (hh | ⟨k, hk, rfl⟩) | rfl | rfl
    · exact (ha.operand_alternate_left b).forks hsa hh fun _ => Or.inl ⟨_, rfl⟩
    · exact (ha.operand_alternate_right b).forks hsb hk fun _ => Or.inl ⟨_, rfl⟩
    · rw [(ha.newBounds_alternate hb).source_start]
      exact Or.inr ⟨_, _, rfl, rfl, rfl⟩
    · exact absurd rfl hne
  joins h hlt hne := by
    rcases lt_alternate_cases hlt with (hh | ⟨k, hk, rfl⟩) | rfl | rfl
    · exact (ha.operand_alternate_left b).joins hsa hh fun _ => Or.inl rfl
    · exact (ha.operand_alternate_right b).joins hsb hk fun _ => Or.inl rfl
    · exact absurd rfl hne
    · rw [(ha.newBounds_alternate hb).target_accept]
      exact Or.inr rfl

theorem Fragment.shape_concat (ha : a.Fragment) (hb : b.Fragment) (hsa : a.Shape)
    (hsb : b.Shape) : (a.concat b).Shape where
  target_start := by
    rw [start_concat, ← Nat.add_zero a.start, (operand_concat_left a b).target _ ha.start_lt,
      hsa.target_start, if_pos rfl]
    rfl
  source_accept := by
    rw [accept_concat, (ha.operand_concat_right b).source _ hb.accept_lt, hsb.source_accept,
      if_pos rfl]
    rfl
  forks h hlt hne := by
    rcases lt_concat_cases hlt with hh | ⟨k, hk, rfl⟩
    · exact (operand_concat_left a b).forks hsa hh fun _ => Or.inl ⟨_, rfl⟩
    · refine (ha.operand_concat_right b).forks hsb hk fun hk => absurd ?_ hne
      rw [hk, accept_concat]
  joins h hlt hne := by
    rcases lt_concat_cases hlt with hh | ⟨k, hk, rfl⟩
    · refine (operand_concat_left a b).joins hsa hh fun hh => absurd ?_ hne
      rw [hh, start_concat]
    · exact (ha.operand_concat_right b).joins hsb hk fun _ => Or.inl rfl

theorem Fragment.shape_closure (ha : a.Fragment) (hsa : a.Shape) : a.closure.Shape where
  target_start := ha.newBounds_closure.target_start
  source_accept := ha.newBounds_closure.source_accept
  forks h hlt hne := by
    rcases lt_closure_cases hlt with hh | rfl | rfl
    · exact ha.operand_closure.forks hsa hh fun _ => Or.inr ⟨_, _, rfl, rfl, rfl⟩
    · rw [ha.newBounds_closure.source_start]
      exact Or.inr ⟨_, _, rfl, rfl, rfl⟩
    · exact absurd rfl hne
  joins h hlt hne := by
    rcases lt_closure_cases hlt with hh | rfl | rfl
    · exact ha.operand_closure.joins hsa hh fun _ => Or.inr rfl
    · exact absurd rfl hne
    · rw [ha.newBounds_closure.target_accept]
      exact Or.inr rfl

end Combinators

theorem shape_ofExpr (e : Expr) : (ofExpr e).Shape := by
  induction e with
  | symbol c => exact shape_symbol c
  | alternate a b iha ihb => exact (fragment_ofExpr a).shape_alternate (fragment_ofExpr b) iha ihb
  | concat a b iha ihb => exact (fragment_ofExpr a).shape_concat (fragment_ofExpr b) iha ihb
  | closure a ih => exact (fragment_ofExpr a).shape_closure ih

theorem Built.shape {n : Nfa} (h : n.Built) : n.Shape := by
  obtain ⟨e, rfl⟩ := exists_ofExpr_of_built h
  exact shape_ofExpr e

/-! ## The shape of all fragments -/

/-- Two bounds, the only marked states, and few moves at each state: none enters the start or leaves
the accepting state, one or two enter and leave all others, and one that reads a symbol leaves its
state alone. -/
structure Thompson (n : Nfa) : Prop where
  start_lt : n.start < n.states.size
  accept_lt : n.accept < n.states.size
  start_ne_accept : n.start ≠ n.accept
  isStart_iff : ∀ h < n.states.size, (n.state h).isStart = true ↔ h = n.start
  isAccept_iff : ∀ h < n.states.size, (n.state h).isAccept = true ↔ h = n.accept
  accepting : n.automaton.accepting = [n.accept]
  target_ne_start : ∀ m ∈ n.moves, m.target ≠ n.start
  source_ne_accept : ∀ m ∈ n.moves, m.source ≠ n.accept
  movesInto_start : n.movesInto n.start = []
  movesFrom_accept : n.movesFrom n.accept = []
  outgoing : ∀ h < n.states.size, h ≠ n.accept →
    (n.movesFrom h).length = 1 ∨ (n.movesFrom h).length = 2
  incoming : ∀ h < n.states.size, h ≠ n.start →
    (n.movesInto h).length = 1 ∨ (n.movesInto h).length = 2
  symbol_alone : ∀ h < n.states.size, ∀ m ∈ n.movesFrom h, ∀ c,
    m.label = .symbol c → n.movesFrom h = [m]

theorem Fragment.thompson {n : Nfa} (hn : n.Fragment) (hs : n.Shape) : n.Thompson where
  start_lt := hn.start_lt
  accept_lt := hn.accept_lt
  start_ne_accept := hn.start_ne_accept
  isStart_iff h _ := hn.isStart_iff h
  isAccept_iff h _ := hn.isAccept_iff h
  accepting := rfl
  target_ne_start m hm := by
    have hnone := List.filter_eq_nil_iff.mp hs.target_start m (Array.mem_toList_iff.mpr hm)
    simpa using hnone
  source_ne_accept m hm := by
    have hnone := List.filter_eq_nil_iff.mp hs.source_accept m (Array.mem_toList_iff.mpr hm)
    simpa using hnone
  movesInto_start := (hn.consistent.movesInto_eq_filter n.start).trans hs.target_start
  movesFrom_accept := (hn.consistent.movesFrom_eq_filter n.accept).trans hs.source_accept
  outgoing h hlt hne := by
    rw [hn.consistent.movesFrom_eq_filter]
    exact (hs.forks h hlt hne).length
  incoming h hlt hne := by
    rw [hn.consistent.movesInto_eq_filter]
    exact hs.joins h hlt hne
  symbol_alone h hlt m hm c hc := by
    rw [hn.consistent.movesFrom_eq_filter] at hm ⊢
    by_cases hh : h = n.accept
    · have hnone : m ∈ n.movesAt Move.source h := hm
      rw [hh, hs.source_accept] at hnone
      cases hnone
    · exact (hs.forks h hlt hh).eq_singleton hm hc

end Nfa

/-- Whatever is built from symbols, by combinators in any order or from a postfix sequence, has
Thompson's shape. -/
theorem thompson_of_built (n : Nfa) (h : n.Built) : n.Thompson :=
  h.fragment.thompson h.shape

theorem thompson_of_built_copies :
    (((Nfa.symbol 'a').alternate (Nfa.symbol 'b')).concat
        ((Nfa.symbol 'a').alternate (Nfa.symbol 'b'))).closure.Built ∧
      (((Nfa.symbol 'a').alternate (Nfa.symbol 'b')).concat
        ((Nfa.symbol 'a').alternate (Nfa.symbol 'b'))).closure.Thompson := by
  have heither : ((Nfa.symbol 'a').alternate (Nfa.symbol 'b')).Built :=
    .alternate (.symbol 'a') (.symbol 'b')
  have hbuilt := Nfa.Built.closure (.concat heither heither)
  exact ⟨hbuilt, thompson_of_built _ hbuilt⟩

end PatternAutomata
