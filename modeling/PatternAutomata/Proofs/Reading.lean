/-
  What fragments read. A fragment reads a word if a path spells it from the start
  to the accepting state. A combinator puts its operands into a larger diagram, so
  their paths are paths there; and a path that leaves an operand does so by an
  epsilon move from the operand's accepting state (`Path.leaves`). With this, each
  combinator reads what it should, and the fragment of an expression reads the
  words that the expression matches (`reads_ofExpr`).
-/
import PatternAutomata.Expr.Language
import PatternAutomata.Proofs.Fragments
import PatternAutomata.Proofs.Simulation

namespace PatternAutomata

/-! ## Paths of an operand -/

namespace Diagram

variable {d e : Diagram}

/-- In a diagram that has the moves of another one `k` places further on, so are its paths. -/
theorem Path.shift (hd : d.Consistent) (he : e.Consistent) {k : Nat}
    (hmoves : ∀ m ∈ d.moves, m.shift k ∈ e.moves) {s t : Nat} {w : List Char}
    (h : d.Path s w t) : e.Path (s + k) w (t + k) := by
  induction h with
  | nil s => exact .nil (s + k)
  | @cons s t m w hm _ ih =>
    obtain ⟨hmem, hsource⟩ := hd.mem_movesFrom.mp hm
    have hshift : m.shift k ∈ e.movesFrom (s + k) := by
      refine he.mem_movesFrom.mpr ⟨hmoves m hmem, ?_⟩
      unfold Move.shift
      rw [hsource]
    exact Path.cons (m := m.shift k) hshift ih

/-- If no other move leaves the operand, a path from inside stays inside. -/
theorem Path.stays (hd : d.Consistent) (he : e.Consistent) {k : Nat}
    (hown : ∀ m ∈ e.moves, ∀ s < d.states.size, m.source = s + k → ∃ m' ∈ d.moves, m'.shift k = m)
    {s t : Nat} {w : List Char} (h : e.Path (s + k) w t) (hs : s < d.states.size) :
    ∃ r, t = r + k ∧ d.Path s w r := by
  generalize hq : s + k = q at h
  induction h generalizing s with
  | nil q => exact ⟨s, hq.symm, .nil s⟩
  | @cons q t m w hm _ ih =>
    obtain ⟨hmem, hsource⟩ := he.mem_movesFrom.mp hm
    obtain ⟨m', hm', rfl⟩ := hown m hmem s hs (hsource.trans hq.symm)
    obtain ⟨r, hr, hp⟩ := ih (hd.target_lt m' hm') rfl
    have hs' : m'.source = s := Nat.add_right_cancel (hsource.trans hq.symm)
    have hp' := Path.cons (hd.mem_movesFrom.mpr ⟨hm', hs'⟩) hp
    exact ⟨r, hr, hp'⟩

/-- Where a path can go on after an operand with the bounds `first` and `last`: outside, where only
words in `P` lead to `t`, or back to `first`, if `P` allows for one more round. -/
def GoesOn (d e : Diagram) (k first last t : Nat) (P : List Char → Prop) (q : Nat) : Prop :=
  (∀ v, e.Path q v t → P v) ∨
    (q = first + k ∧ ∀ u v, d.Path first u last → P v → P (u ++ v))

/-- If the operand can only be left from `last` by epsilon moves, a path from inside to the outside
is one to `last` and something that goes on from there. -/
theorem Path.leaves (hd : d.Consistent) (he : e.Consistent) {k first last t : Nat}
    {P : List Char → Prop} (hfirst : first < d.states.size)
    (hout : ∀ m ∈ e.moves, ∀ s < d.states.size, m.source = s + k →
      (∃ m' ∈ d.moves, m'.shift k = m) ∨
        (s = last ∧ m.label = .epsilon ∧ GoesOn d e k first last t P m.target))
    (ht : ∀ s < d.states.size, t ≠ s + k) {s : Nat} {w : List Char} (h : e.Path (s + k) w t)
    (hs : s < d.states.size) : ∃ u v, w = u ++ v ∧ d.Path s u last ∧ P v := by
  generalize hq : s + k = q at h
  induction h generalizing s with
  | nil q => exact absurd hq.symm (ht s hs)
  | @cons q t m w hm hp ih =>
    obtain ⟨hmem, hsource⟩ := he.mem_movesFrom.mp hm
    rcases hout m hmem s hs (hsource.trans hq.symm) with ⟨m', hm', rfl⟩ | ⟨rfl, hl, hgo⟩
    · obtain ⟨u, v, rfl, hu, hv⟩ := ih hout ht (hd.target_lt m' hm') rfl
      have hs' : m'.source = s := Nat.add_right_cancel (hsource.trans hq.symm)
      have hu' := Path.cons (hd.mem_movesFrom.mpr ⟨hm', hs'⟩) hu
      exact ⟨m'.label.spelling ++ u, v, (List.append_assoc _ _ _).symm, hu', hv⟩
    · rw [hl]
      refine ⟨[], w, rfl, .nil s, ?_⟩
      rcases hgo with hgo | ⟨hback, hround⟩
      · exact hgo w hp
      · obtain ⟨u, v, rfl, hu, hv⟩ := ih hout ht hfirst hback.symm
        exact hround u v hu hv

/-- A path between different states starts with a move. -/
theorem Path.first (hd : d.Consistent) {s t : Nat} {w : List Char} (h : d.Path s w t)
    (hne : s ≠ t) :
    ∃ m ∈ d.moves, m.source = s ∧ ∃ v, w = m.label.spelling ++ v ∧ d.Path m.target v t := by
  cases h with
  | nil _ => exact absurd rfl hne
  | cons hm hp =>
    obtain ⟨hmem, hsource⟩ := hd.mem_movesFrom.mp hm
    exact ⟨_, hmem, hsource, _, rfl, hp⟩

/-- From a state that no move leaves, only the empty path starts. -/
theorem Path.of_last (hd : d.Consistent) {s t : Nat} {w : List Char} (h : d.Path s w t)
    (hlast : ∀ m ∈ d.moves, m.source ≠ s) : w = [] ∧ t = s := by
  cases h with
  | nil _ => exact ⟨rfl, rfl⟩
  | cons hm _ =>
    obtain ⟨hmem, hsource⟩ := hd.mem_movesFrom.mp hm
    exact absurd hsource (hlast _ hmem)

/-- A path along one epsilon move spells nothing. -/
theorem Path.epsilon (hd : d.Consistent) {s t : Nat}
    (h : { source := s, target := t, label := .epsilon } ∈ d.moves) : d.Path s [] t :=
  Path.single (hd.mem_movesFrom.mpr ⟨h, rfl⟩)

end Diagram

/-! ## The words a fragment reads -/

namespace Nfa

/-- Some path spells the word from the start to the accepting state. -/
def Reads (n : Nfa) (w : List Char) : Prop := n.Path n.start w n.accept

theorem Fragment.coherent {n : Nfa} (h : n.Fragment) : n.automaton.Coherent where
  toCoherent := h.consistent.coherent
  start_lt := h.start_lt

/-- The simulation accepts what the fragment reads. -/
theorem Fragment.accepts_iff {n : Nfa} (h : n.Fragment) (w : List Char) :
    n.automaton.accepts w = true ↔ n.Reads w := by
  rw [Automaton.accepts_iff_path h.coherent]
  constructor
  · intro ⟨t, hp, ht⟩
    have htt := (h.isAccept_iff t).mp ht
    subst htt
    exact hp
  · intro hp
    exact ⟨n.accept, hp, (h.isAccept_iff n.accept).mpr rfl⟩

section Moves

variable {a b : Nfa} {m : Move}

theorem mem_moves_symbol {c : Char} : m ∈ (symbol c).moves ↔ m = ⟨0, 1, .symbol c⟩ := by
  simp [symbol]

theorem mem_moves_alternate :
    m ∈ (a.alternate b).moves ↔
      m ∈ a.moves ∨ (∃ m' ∈ b.moves, m'.shift a.states.size = m) ∨
        m = ⟨a.states.size + b.states.size, a.start, .epsilon⟩ ∨
        m = ⟨a.states.size + b.states.size, b.start + a.states.size, .epsilon⟩ ∨
        m = ⟨a.accept, a.states.size + b.states.size + 1, .epsilon⟩ ∨
        m = ⟨b.accept + a.states.size, a.states.size + b.states.size + 1, .epsilon⟩ := by
  simp only [alternate, Diagram.moves_addMove, Diagram.moves_addState, Diagram.moves_unmarkStart,
    Diagram.moves_unmarkAccept, Array.mem_push, Diagram.mem_moves_absorb, or_assoc]

theorem mem_moves_concat :
    m ∈ (a.concat b).moves ↔
      m ∈ a.moves ∨ (∃ m' ∈ b.moves, m'.shift a.states.size = m) ∨
        m = ⟨a.accept, b.start + a.states.size, .epsilon⟩ := by
  simp only [concat, Diagram.moves_addMove, Diagram.moves_unmarkStart,
    Diagram.moves_unmarkAccept, Array.mem_push, Diagram.mem_moves_absorb, or_assoc]

theorem mem_moves_closure :
    m ∈ a.closure.moves ↔
      m ∈ a.moves ∨
        m = ⟨a.states.size, a.states.size + 1, .epsilon⟩ ∨
        m = ⟨a.states.size, a.start, .epsilon⟩ ∨
        m = ⟨a.accept, a.states.size + 1, .epsilon⟩ ∨
        m = ⟨a.accept, a.start, .epsilon⟩ := by
  simp only [closure, Diagram.moves_addMove, Diagram.moves_addState, Diagram.moves_unmarkStart,
    Diagram.moves_unmarkAccept, Array.mem_push, or_assoc]

end Moves

theorem reads_symbol {c : Char} {w : List Char} : (symbol c).Reads w ↔ w = [c] := by
  have hc := (fragment_symbol c).consistent
  have hlast : ∀ m ∈ (symbol c).moves, m.source ≠ 1 := by
    intro m hm
    rw [mem_moves_symbol.mp hm]
    simp
  constructor
  · intro h
    obtain ⟨m, hm, -, v, rfl, hp⟩ := h.first hc (by simp [symbol])
    rw [mem_moves_symbol.mp hm] at hp ⊢
    obtain ⟨rfl, -⟩ := hp.of_last hc hlast
    rfl
  · intro h
    subst h
    exact Diagram.Path.single (hc.mem_movesFrom.mpr ⟨mem_moves_symbol.mpr rfl, rfl⟩)

section Combinators

variable {a b : Nfa} {w : List Char}

/-! ### Alternation -/

/-- No move leaves the new accepting state of an alternation. -/
theorem Fragment.source_ne_alternate (ha : a.Fragment) (hb : b.Fragment) {m : Move}
    (hm : m ∈ (a.alternate b).moves) : m.source ≠ a.states.size + b.states.size + 1 := by
  have h1 := ha.accept_lt
  have h2 := hb.accept_lt
  rcases mem_moves_alternate.mp hm with hm | ⟨m', hm', rfl⟩ | rfl | rfl | rfl | rfl
  · have h3 := ha.consistent.source_lt m hm
    omega
  · have h3 := hb.consistent.source_lt m' hm'
    unfold Move.shift
    dsimp only
    omega
  all_goals
    dsimp only
    omega

/-- At the new accepting state of an alternation nothing is left to spell. -/
theorem Fragment.eq_nil_alternate (ha : a.Fragment) (hb : b.Fragment) {v : List Char}
    (h : (a.alternate b).Path (a.states.size + b.states.size + 1) v
      (a.states.size + b.states.size + 1)) : v = [] :=
  (h.of_last (ha.alternate hb).consistent fun _ hm => ha.source_ne_alternate hb hm).1

/-- A path that leaves the left operand of an alternation reads what that operand reads. -/
theorem Fragment.path_alternate_left (ha : a.Fragment) (hb : b.Fragment)
    (h : (a.alternate b).Path a.start w (a.states.size + b.states.size + 1)) : a.Reads w := by
  have hout : ∀ m ∈ (a.alternate b).moves, ∀ s < a.states.size, m.source = s + 0 →
      (∃ m' ∈ a.moves, m'.shift 0 = m) ∨
        (s = a.accept ∧ m.label = .epsilon ∧
          Diagram.GoesOn a.toDiagram (a.alternate b).toDiagram 0 a.start a.accept
            (a.states.size + b.states.size + 1) (· = []) m.target) := by
    intro m hm s hs hsource
    rcases mem_moves_alternate.mp hm with hm | ⟨m', -, rfl⟩ | rfl | rfl | rfl | rfl
    · exact Or.inl ⟨m, hm, rfl⟩
    · simp only [Move.shift] at hsource
      omega
    · simp only at hsource
      omega
    · simp only at hsource
      omega
    · exact Or.inr ⟨hsource.symm, rfl, Or.inl fun v hv => ha.eq_nil_alternate hb hv⟩
    · simp only at hsource
      omega
  have ht : ∀ s < a.states.size, a.states.size + b.states.size + 1 ≠ s + 0 := by
    intro s hs
    omega
  obtain ⟨u, v, rfl, hu, rfl⟩ := h.leaves ha.consistent (ha.alternate hb).consistent ha.start_lt
    hout ht ha.start_lt
  rw [List.append_nil]
  exact hu

theorem Fragment.path_alternate_right (ha : a.Fragment) (hb : b.Fragment)
    (h : (a.alternate b).Path (b.start + a.states.size) w
      (a.states.size + b.states.size + 1)) : b.Reads w := by
  have hout : ∀ m ∈ (a.alternate b).moves, ∀ s < b.states.size, m.source = s + a.states.size →
      (∃ m' ∈ b.moves, m'.shift a.states.size = m) ∨
        (s = b.accept ∧ m.label = .epsilon ∧
          Diagram.GoesOn b.toDiagram (a.alternate b).toDiagram a.states.size b.start b.accept
            (a.states.size + b.states.size + 1) (· = []) m.target) := by
    intro m hm s hs hsource
    have h1 := ha.accept_lt
    rcases mem_moves_alternate.mp hm with hm | ⟨m', hm', rfl⟩ | rfl | rfl | rfl | rfl
    · have h2 := ha.consistent.source_lt m hm
      omega
    · exact Or.inl ⟨m', hm', rfl⟩
    · simp only at hsource
      omega
    · simp only at hsource
      omega
    · simp only at hsource
      omega
    · refine Or.inr ⟨?_, rfl, Or.inl fun v hv => ha.eq_nil_alternate hb hv⟩
      simp only at hsource
      omega
  have ht : ∀ s < b.states.size, a.states.size + b.states.size + 1 ≠ s + a.states.size := by
    intro s hs
    omega
  obtain ⟨u, v, rfl, hu, rfl⟩ := h.leaves hb.consistent (ha.alternate hb).consistent hb.start_lt
    hout ht hb.start_lt
  rw [List.append_nil]
  exact hu

/-- An alternation reads what either operand reads. -/
theorem Fragment.reads_alternate (ha : a.Fragment) (hb : b.Fragment) :
    (a.alternate b).Reads w ↔ a.Reads w ∨ b.Reads w := by
  have hc := (ha.alternate hb).consistent
  constructor
  · intro h
    unfold Reads at h
    rw [start_alternate, accept_alternate] at h
    obtain ⟨m, hm, hsource, v, rfl, hp⟩ := h.first hc (by omega)
    rcases mem_moves_alternate.mp hm with hm | ⟨m', hm', rfl⟩ | rfl | rfl | rfl | rfl
    · have h1 := ha.consistent.source_lt m hm
      omega
    · have h1 := hb.consistent.source_lt m' hm'
      simp only [Move.shift] at hsource
      omega
    · exact Or.inl (ha.path_alternate_left hb hp)
    · exact Or.inr (ha.path_alternate_right hb hp)
    · have h1 := ha.accept_lt
      simp only at hsource
      omega
    · have h1 := hb.accept_lt
      simp only at hsource
      omega
  · intro h
    rcases h with h | h
    · have hin : (a.alternate b).Path (a.states.size + b.states.size) [] a.start :=
        .epsilon hc (by simp [mem_moves_alternate])
      have hout : (a.alternate b).Path a.accept [] (a.states.size + b.states.size + 1) :=
        .epsilon hc (by simp [mem_moves_alternate])
      have hp := h.shift ha.consistent hc (k := 0) fun m hm => mem_moves_alternate.mpr (Or.inl hm)
      have hpath := (hin.append hp).append hout
      rw [List.append_nil] at hpath
      exact hpath
    · have hin : (a.alternate b).Path (a.states.size + b.states.size) []
          (b.start + a.states.size) := .epsilon hc (by simp [mem_moves_alternate])
      have hout : (a.alternate b).Path (b.accept + a.states.size) []
          (a.states.size + b.states.size + 1) := .epsilon hc (by simp [mem_moves_alternate])
      have hp := h.shift hb.consistent hc fun m hm =>
        mem_moves_alternate.mpr (Or.inr (Or.inl ⟨m, hm, rfl⟩))
      have hpath := (hin.append hp).append hout
      rw [List.append_nil] at hpath
      exact hpath

/-! ### Concatenation -/

/-- From the right operand of a concatenation no move leads back. -/
theorem Fragment.path_concat_right (ha : a.Fragment) (hb : b.Fragment)
    (h : (a.concat b).Path (b.start + a.states.size) w (b.accept + a.states.size)) :
    b.Reads w := by
  have hown : ∀ m ∈ (a.concat b).moves, ∀ s < b.states.size, m.source = s + a.states.size →
      ∃ m' ∈ b.moves, m'.shift a.states.size = m := by
    intro m hm s hs hsource
    rcases mem_moves_concat.mp hm with hm | hm | rfl
    · have h1 := ha.consistent.source_lt m hm
      omega
    · exact hm
    · have h1 := ha.accept_lt
      simp only at hsource
      omega
  obtain ⟨r, hr, hp⟩ := h.stays hb.consistent (ha.concat hb).consistent hown hb.start_lt
  rw [← Nat.add_right_cancel hr] at hp
  exact hp

theorem Fragment.path_concat_left (ha : a.Fragment) (hb : b.Fragment)
    (h : (a.concat b).Path a.start w (b.accept + a.states.size)) :
    ∃ u v, w = u ++ v ∧ a.Reads u ∧ b.Reads v := by
  have hout : ∀ m ∈ (a.concat b).moves, ∀ s < a.states.size, m.source = s + 0 →
      (∃ m' ∈ a.moves, m'.shift 0 = m) ∨
        (s = a.accept ∧ m.label = .epsilon ∧
          Diagram.GoesOn a.toDiagram (a.concat b).toDiagram 0 a.start a.accept
            (b.accept + a.states.size) b.Reads m.target) := by
    intro m hm s hs hsource
    rcases mem_moves_concat.mp hm with hm | ⟨m', -, rfl⟩ | rfl
    · exact Or.inl ⟨m, hm, rfl⟩
    · simp only [Move.shift] at hsource
      omega
    · exact Or.inr ⟨hsource.symm, rfl, Or.inl fun v hv => ha.path_concat_right hb hv⟩
  have ht : ∀ s < a.states.size, b.accept + a.states.size ≠ s + 0 := by
    intro s hs
    omega
  exact h.leaves ha.consistent (ha.concat hb).consistent ha.start_lt hout ht ha.start_lt

/-- A concatenation reads what the operands read one after the other. -/
theorem Fragment.reads_concat (ha : a.Fragment) (hb : b.Fragment) :
    (a.concat b).Reads w ↔ ∃ u v, w = u ++ v ∧ a.Reads u ∧ b.Reads v := by
  have hc := (ha.concat hb).consistent
  constructor
  · intro h
    unfold Reads at h
    rw [start_concat, accept_concat] at h
    exact ha.path_concat_left hb h
  · intro ⟨u, v, hw, hu, hv⟩
    have hpu := hu.shift ha.consistent hc (k := 0) fun m hm => mem_moves_concat.mpr (Or.inl hm)
    have hpv := hv.shift hb.consistent hc fun m hm =>
      mem_moves_concat.mpr (Or.inr (Or.inl ⟨m, hm, rfl⟩))
    have hjoin : (a.concat b).Path a.accept [] (b.start + a.states.size) :=
      .epsilon hc (by simp [mem_moves_concat])
    have hpath := (hpu.append hjoin).append hpv
    rw [List.append_nil, ← hw] at hpath
    unfold Reads
    rw [start_concat, accept_concat]
    exact hpath

/-! ### Closure -/

/-- The word is put together from any number of words that the fragment reads. -/
def ReadsAll (n : Nfa) (w : List Char) : Prop :=
  ∃ us : List (List Char), w = us.flatten ∧ ∀ u ∈ us, n.Reads u

theorem readsAll_nil (n : Nfa) : n.ReadsAll [] := ⟨[], rfl, by simp⟩

theorem ReadsAll.cons {n : Nfa} {u v : List Char} (hu : n.Reads u) (hv : n.ReadsAll v) :
    n.ReadsAll (u ++ v) := by
  obtain ⟨us, rfl, hus⟩ := hv
  exact ⟨u :: us, rfl, List.forall_mem_cons.mpr ⟨hu, hus⟩⟩

/-- At the new accepting state of a closure nothing is left to spell. -/
theorem Fragment.eq_nil_closure (ha : a.Fragment) {v : List Char}
    (h : a.closure.Path (a.states.size + 1) v (a.states.size + 1)) : v = [] := by
  have hlast : ∀ m ∈ a.closure.moves, m.source ≠ a.states.size + 1 := by
    intro m hm
    have h1 := ha.accept_lt
    rcases mem_moves_closure.mp hm with hm | rfl | rfl | rfl | rfl
    · have h2 := ha.consistent.source_lt m hm
      omega
    all_goals
      dsimp only
      omega
  exact (h.of_last ha.closure.consistent hlast).1

/-- Each time a path through the operand of a closure comes to its end, it leaves or starts over. -/
theorem Fragment.path_closure (ha : a.Fragment)
    (h : a.closure.Path a.start w (a.states.size + 1)) : a.ReadsAll w := by
  have hout : ∀ m ∈ a.closure.moves, ∀ s < a.states.size, m.source = s + 0 →
      (∃ m' ∈ a.moves, m'.shift 0 = m) ∨
        (s = a.accept ∧ m.label = .epsilon ∧
          Diagram.GoesOn a.toDiagram a.closure.toDiagram 0 a.start a.accept
            (a.states.size + 1) a.ReadsAll m.target) := by
    intro m hm s hs hsource
    rcases mem_moves_closure.mp hm with hm | rfl | rfl | rfl | rfl
    · exact Or.inl ⟨m, hm, rfl⟩
    · simp only at hsource
      omega
    · simp only at hsource
      omega
    · refine Or.inr ⟨hsource.symm, rfl, Or.inl fun v hv => ?_⟩
      rw [ha.eq_nil_closure hv]
      exact readsAll_nil a
    · exact Or.inr ⟨hsource.symm, rfl, Or.inr ⟨rfl, fun u v hu hv => ReadsAll.cons hu hv⟩⟩
  have ht : ∀ s < a.states.size, a.states.size + 1 ≠ s + 0 := by
    intro s hs
    omega
  obtain ⟨u, v, rfl, hu, hv⟩ := h.leaves ha.consistent ha.closure.consistent ha.start_lt hout ht
    ha.start_lt
  exact ReadsAll.cons hu hv

/-- From the end of the operand of a closure, any number of rounds lead out. -/
theorem Fragment.path_closure_of_readsAll (ha : a.Fragment) (h : a.ReadsAll w) :
    a.closure.Path a.accept w (a.states.size + 1) := by
  obtain ⟨us, rfl, hus⟩ := h
  have hc := ha.closure.consistent
  induction us with
  | nil => exact .epsilon hc (by simp [mem_moves_closure])
  | cons u us ih =>
    obtain ⟨hu, hus⟩ := List.forall_mem_cons.mp hus
    have hback : a.closure.Path a.accept [] a.start :=
      .epsilon hc (by simp [mem_moves_closure])
    have hp := hu.shift ha.consistent hc (k := 0) fun m hm => mem_moves_closure.mpr (Or.inl hm)
    exact (hback.append hp).append (ih hus)

/-- A closure reads what is put together from any number of words that the operand reads. -/
theorem Fragment.reads_closure (ha : a.Fragment) : a.closure.Reads w ↔ a.ReadsAll w := by
  have hc := ha.closure.consistent
  unfold Reads
  rw [start_closure, accept_closure]
  constructor
  · intro h
    obtain ⟨m, hm, hsource, v, rfl, hp⟩ := h.first hc (by omega)
    have h1 := ha.accept_lt
    rcases mem_moves_closure.mp hm with hm | rfl | rfl | rfl | rfl
    · have h2 := ha.consistent.source_lt m hm
      omega
    · rw [ha.eq_nil_closure hp]
      exact readsAll_nil a
    · exact ha.path_closure hp
    · simp only at hsource
      omega
    · simp only at hsource
      omega
  · intro ⟨us, hw, hus⟩
    cases us with
    | nil =>
      rw [hw]
      exact .epsilon hc (by simp [mem_moves_closure])
    | cons u us =>
      obtain ⟨hu, hus⟩ := List.forall_mem_cons.mp hus
      have hin : a.closure.Path a.states.size [] a.start :=
        .epsilon hc (by simp [mem_moves_closure])
      have hp := hu.shift ha.consistent hc (k := 0) fun m hm => mem_moves_closure.mpr (Or.inl hm)
      have hrest := ha.path_closure_of_readsAll ⟨us, rfl, hus⟩
      rw [hw]
      exact (hin.append hp).append hrest

end Combinators

/-! ## The fragment of an expression -/

end Nfa

namespace Expr

variable {a b : Expr} {w : List Char}

theorem matches_symbol {c : Char} : (symbol c).Matches w ↔ w = [c] := by
  constructor
  · intro h
    cases h with
    | symbol c => rfl
  · intro h
    rw [h]
    exact .symbol c

theorem matches_alternate : (alternate a b).Matches w ↔ a.Matches w ∨ b.Matches w := by
  constructor
  · intro h
    cases h with
    | left _ h => exact Or.inl h
    | right _ h => exact Or.inr h
  · intro h
    rcases h with h | h
    · exact .left b h
    · exact .right a h

theorem matches_concat :
    (concat a b).Matches w ↔ ∃ u v, w = u ++ v ∧ a.Matches u ∧ b.Matches v := by
  constructor
  · intro h
    cases h with
    | concat hu hv => exact ⟨_, _, rfl, hu, hv⟩
  · intro ⟨u, v, hw, hu, hv⟩
    rw [hw]
    exact .concat hu hv

theorem matches_closure :
    (closure a).Matches w ↔
      ∃ us : List (List Char), w = us.flatten ∧ ∀ u ∈ us, a.Matches u := by
  constructor
  · intro h
    generalize he : closure a = e at h
    induction h with
    | none _ => exact ⟨[], rfl, by simp⟩
    | @more _ u v hu _ _ ih =>
      obtain ⟨us, rfl, hus⟩ := ih he
      cases he
      exact ⟨u :: us, rfl, List.forall_mem_cons.mpr ⟨hu, hus⟩⟩
    | symbol _ => cases he
    | left _ _ _ => cases he
    | right _ _ _ => cases he
    | concat _ _ _ _ => cases he
  · intro ⟨us, hw, hus⟩
    rw [hw]
    clear hw
    induction us with
    | nil => exact .none a
    | cons u us ih =>
      obtain ⟨hu, hus⟩ := List.forall_mem_cons.mp hus
      exact .more hu (ih hus)

end Expr

namespace Nfa

/-- The fragment of an expression reads the words that the expression matches. -/
theorem reads_ofExpr (e : Expr) (w : List Char) : (ofExpr e).Reads w ↔ e.Matches w := by
  induction e generalizing w with
  | symbol c => rw [Expr.matches_symbol, ← reads_symbol]; rfl
  | alternate a b iha ihb =>
    rw [Expr.matches_alternate, ← iha, ← ihb]
    exact (fragment_ofExpr a).reads_alternate (fragment_ofExpr b)
  | concat a b iha ihb =>
    simp only [Expr.matches_concat, ← iha, ← ihb]
    exact (fragment_ofExpr a).reads_concat (fragment_ofExpr b)
  | closure a ih =>
    simp only [Expr.matches_closure, ← ih]
    exact (fragment_ofExpr a).reads_closure

/-- Running the fragment of an expression decides which words the expression matches. -/
theorem accepts_ofExpr (e : Expr) (w : List Char) :
    (ofExpr e).automaton.accepts w = true ↔ e.Matches w := by
  rw [(fragment_ofExpr e).accepts_iff, reads_ofExpr]

/-! ## The languages of the combinators -/

section Languages

variable {a b : Nfa} (ha : a.Fragment) (w : List Char)
include ha

theorem Fragment.accepts_alternate (hb : b.Fragment) :
    (a.alternate b).automaton.accepts w = true ↔
      a.automaton.accepts w = true ∨ b.automaton.accepts w = true := by
  rw [(ha.alternate hb).accepts_iff, ha.reads_alternate hb, ha.accepts_iff, hb.accepts_iff]

theorem Fragment.accepts_concat (hb : b.Fragment) :
    (a.concat b).automaton.accepts w = true ↔
      ∃ u v, w = u ++ v ∧ a.automaton.accepts u = true ∧ b.automaton.accepts v = true := by
  simp only [(ha.concat hb).accepts_iff, ha.reads_concat hb, ha.accepts_iff, hb.accepts_iff]

theorem Fragment.accepts_closure :
    a.closure.automaton.accepts w = true ↔
      ∃ us : List (List Char), w = us.flatten ∧ ∀ u ∈ us, a.automaton.accepts u = true := by
  simp only [ha.closure.accepts_iff, ha.reads_closure, ha.accepts_iff]
  rfl

end Languages

end Nfa

/-- Alternation accepts what either fragment accepts, concatenation what the two accept one after
the other, and closure what is put together from any number of words that the fragment accepts. All
of it rests on symbols, each of which accepts the word of itself alone. -/
theorem accepts_combined (a b : Nfa) (ha : a.Built) (hb : b.Built) (w : List Char) :
    ((a.alternate b).automaton.accepts w = true ↔
      a.automaton.accepts w = true ∨ b.automaton.accepts w = true) ∧
    ((a.concat b).automaton.accepts w = true ↔
      ∃ u v, w = u ++ v ∧ a.automaton.accepts u = true ∧ b.automaton.accepts v = true) ∧
    (a.closure.automaton.accepts w = true ↔
      ∃ us : List (List Char), w = us.flatten ∧ ∀ u ∈ us, a.automaton.accepts u = true) ∧
    ∀ c, (Nfa.symbol c).automaton.accepts w = true ↔ w = [c] := by
  refine ⟨ha.fragment.accepts_alternate w hb.fragment, ha.fragment.accepts_concat w hb.fragment,
    ha.fragment.accepts_closure w, fun c => ?_⟩
  rw [(Nfa.fragment_symbol c).accepts_iff, Nfa.reads_symbol]

/-- The operands are copies of one fragment that accepts the empty word. It is closed once more. -/
theorem accepts_combined_closure_copies :
    (Nfa.symbol 'a').closure.Built ∧
      (((Nfa.symbol 'a').closure.alternate (Nfa.symbol 'a').closure).automaton.accepts ['a', 'a'] =
          true ↔
        (Nfa.symbol 'a').closure.automaton.accepts ['a', 'a'] = true ∨
          (Nfa.symbol 'a').closure.automaton.accepts ['a', 'a'] = true) ∧
      (((Nfa.symbol 'a').closure.concat (Nfa.symbol 'a').closure).automaton.accepts ['a', 'a'] =
          true ↔
        ∃ u v, ['a', 'a'] = u ++ v ∧ (Nfa.symbol 'a').closure.automaton.accepts u = true ∧
          (Nfa.symbol 'a').closure.automaton.accepts v = true) ∧
      ((Nfa.symbol 'a').closure.closure.automaton.accepts ['a', 'a'] = true ↔
        ∃ us : List (List Char), ['a', 'a'] = us.flatten ∧
          ∀ u ∈ us, (Nfa.symbol 'a').closure.automaton.accepts u = true) ∧
      ∀ c, (Nfa.symbol c).automaton.accepts ['a', 'a'] = true ↔ ['a', 'a'] = [c] := by
  have hbuilt : (Nfa.symbol 'a').closure.Built := .closure (.symbol 'a')
  exact ⟨hbuilt, accepts_combined _ _ hbuilt hbuilt ['a', 'a']⟩

end PatternAutomata
