/-
  The simulation decides acceptance. Reading a word keeps the active states
  closed under epsilon moves and the scratch record blank, and a path for the
  rest of the word starts at one of them exactly if the word has a path at all.
  So an automaton accepts the words that paths from its start to a marked state
  spell (`accepts_iff_path`). A run stops once no state is active; going on to the
  end of the word would not change its answer (`acceptsInFullFrom_eq`).
-/
import PatternAutomata.Proofs.Consistency

namespace PatternAutomata

namespace Diagram

variable {d : Diagram}

/-- No epsilon move leads out of the states. -/
def Closed (d : Diagram) (active : List Nat) : Prop :=
  ∀ s ∈ active, ∀ t, d.Path s [] t → t ∈ active

/-- A closure finds the record blank and leaves it blank, and holds what it should. -/
theorem closeWith_blank (hc : d.Coherent) {seeds : List Nat}
    (hs : ∀ s ∈ seeds, s < d.states.size) :
    ∃ active, d.closeWith (Array.replicate d.states.size none) seeds =
        (active, Array.replicate d.states.size none) ∧
      active.Nodup ∧ ∀ t, t ∈ active ↔ ∃ s ∈ seeds, d.Path s [] t := by
  refine ⟨(d.enterClosure (Roster.blank d.states.size) seeds).order.toList, ?_, ?_, fun t => ?_⟩
  · have hclear := Roster.clear_eq (valid_enterClosure d seeds)
    exact congrArg (Prod.mk _) hclear
  · exact (valid_enterClosure d seeds).nodup
  · rw [Array.mem_toList_iff, mem_enterClosure hc hs]

theorem closed_of_mem_iff {seeds active : List Nat}
    (h : ∀ t, t ∈ active ↔ ∃ s ∈ seeds, d.Path s [] t) : d.Closed active := by
  intro s hs t hst
  obtain ⟨q, hq, hqs⟩ := (h s).mp hs
  exact (h t).mpr ⟨q, hq, hqs.append hst⟩

end Diagram

namespace Automaton

/-- The rest of a word leads from some state to an accepting one. -/
def LeadsOn (a : Automaton) (active : List Nat) (w : List Char) : Prop :=
  ∃ s ∈ active, ∃ t, a.Path s w t ∧ (a.state t).isAccept = true

theorem leadsOn_iff_exists {a : Automaton} {active : List Nat} {w : List Char} :
    a.LeadsOn active w ↔ ∃ s ∈ active, a.LeadsOn [s] w := by
  unfold LeadsOn
  simp only [List.mem_singleton, exists_eq_left]

theorem leadsOn_nil {a : Automaton} {active : List Nat} (hcl : a.Closed active) :
    a.LeadsOn active [] ↔ ∃ t ∈ active, (a.state t).isAccept = true := by
  constructor
  · intro ⟨s, hs, t, hst, ht⟩
    exact ⟨t, hcl s hs t hst, ht⟩
  · intro ⟨t, ht, hacc⟩
    exact ⟨t, ht, t, .nil t, hacc⟩

/-- What leads on from a closure leads on from its seeds. -/
theorem leadsOn_closure {a : Automaton} {seeds active : List Nat}
    (h : ∀ t, t ∈ active ↔ ∃ s ∈ seeds, a.Path s [] t) (w : List Char) :
    a.LeadsOn active w ↔ a.LeadsOn seeds w := by
  constructor
  · intro ⟨q, hq, t, hqt, ht⟩
    obtain ⟨s, hs, hsq⟩ := (h q).mp hq
    exact ⟨s, hs, t, hsq.append hqt, ht⟩
  · intro ⟨s, hs, t, hst, ht⟩
    exact ⟨s, (h s).mpr ⟨s, hs, .nil s⟩, t, hst, ht⟩

/-- From closed states, a symbol leads on through their successors on it. -/
theorem leadsOn_cons {a : Automaton} {active : List Nat} {c : Char} {w : List Char}
    (hcl : a.Closed active) :
    a.LeadsOn active (c :: w) ↔ a.LeadsOn (a.followAll active (.symbol c)) w := by
  constructor
  · intro ⟨s, hs, t, hst, ht⟩
    obtain ⟨q, r, hq, hr, hw⟩ := Diagram.path_cons_iff.mp hst
    exact ⟨r, Diagram.mem_followAll.mpr ⟨q, hcl s hs q hq, hr⟩, t, hw, ht⟩
  · intro ⟨r, hr, t, hrt, ht⟩
    obtain ⟨q, hq, hqr⟩ := Diagram.mem_followAll.mp hr
    exact ⟨q, hq, t, Diagram.path_cons_iff.mpr ⟨q, r, .nil q, hqr, hrt⟩, ht⟩

theorem acceptsByPath_iff {a : Automaton} {w : List Char} :
    a.AcceptsByPath w ↔ a.LeadsOn [a.start] w := by
  unfold AcceptsByPath LeadsOn
  simp only [List.mem_singleton, exists_eq_left]

theorem acceptsFrom_iff {a : Automaton} (hc : a.Coherent) {active : List Nat}
    (hcl : a.Closed active) (w : List Char) :
    a.acceptsFrom (Array.replicate a.states.size none) active w = true ↔ a.LeadsOn active w := by
  induction w generalizing active with
  | nil =>
    unfold acceptsFrom
    rw [List.any_eq_true, leadsOn_nil hcl]
  | cons c w ih =>
    have hlt : ∀ s ∈ a.followAll active (.symbol c), s < a.states.size := by
      intro s hs
      obtain ⟨q, -, hq⟩ := Diagram.mem_followAll.mp hs
      exact hc.toCoherent.follow_lt hq
    obtain ⟨next, heq, -, hnext⟩ := Diagram.closeWith_blank hc.toCoherent hlt
    have hcl' := Diagram.closed_of_mem_iff hnext
    rw [leadsOn_cons hcl, ← leadsOn_closure hnext, ← ih hcl', acceptsFrom]
    split
    · rename_i hnil
      -- No successor at all: the closure of nothing is empty, and nothing leads on from there.
      rw [ih hcl']
      simp only [Bool.false_eq_true, false_iff]
      intro ⟨s, hs, _⟩
      obtain ⟨q, hq, -⟩ := (hnext s).mp hs
      rw [hnil] at hq
      cases hq
    · rw [heq]

/-- Running the word and looking for a path that spells it are the same. -/
theorem accepts_iff_path {a : Automaton} (hc : a.Coherent) (w : List Char) :
    a.accepts w = true ↔ a.AcceptsByPath w := by
  have hlt : ∀ s ∈ [a.start], s < a.states.size := by
    intro s hs
    rw [List.mem_singleton.mp hs]
    exact hc.start_lt
  obtain ⟨active, heq, -, hactive⟩ := Diagram.closeWith_blank hc.toCoherent hlt
  unfold accepts
  rw [heq, acceptsFrom_iff hc (Diagram.closed_of_mem_iff hactive),
    leadsOn_closure hactive, acceptsByPath_iff]

/-! ## Reading to the end -/

/-- Whether the rest of a word leads from the active states to an accepting one, found by reading
all of it, even after no state is active any more. -/
def acceptsInFullFrom (a : Automaton) (scratch : Array (Option Nat)) (active : List Nat) :
    List Char → Bool
  | [] => active.any fun h => (a.state h).isAccept
  | c :: w =>
    let (active, scratch) := a.closeWith scratch (a.followAll active (.symbol c))
    a.acceptsInFullFrom scratch active w

/-- Whether the automaton accepts the word, found by reading all of it. -/
def acceptsInFull (a : Automaton) (w : List Char) : Bool :=
  let (active, scratch) := a.closeWith (Array.replicate a.states.size none) [a.start]
  a.acceptsInFullFrom scratch active w

/-- The closure of nothing is empty, and closing it leaves the record as it is. -/
theorem closeWith_nil (d : Diagram) (scratch : Array (Option Nat)) :
    d.closeWith scratch [] = ([], scratch) := by
  have hnone : d.enterClosure ⟨#[], scratch⟩ [] = ⟨#[], scratch⟩ := by
    unfold Diagram.enterClosure Roster.explore
    exact dif_neg (Nat.lt_irrefl 0)
  unfold Diagram.closeWith
  rw [hnone]
  rfl

/-- With no state active, none ever is again. -/
theorem acceptsInFullFrom_nil (a : Automaton) (scratch : Array (Option Nat)) (w : List Char) :
    a.acceptsInFullFrom scratch [] w = false := by
  induction w with
  | nil => rfl
  | cons c w ih =>
    have hnone : a.followAll [] (.symbol c) = [] := rfl
    rw [acceptsInFullFrom, hnone, closeWith_nil]
    exact ih

/-- Stopping where nothing can read the next symbol gives the answer of reading on. -/
theorem acceptsInFullFrom_eq (a : Automaton) (scratch : Array (Option Nat)) (active : List Nat)
    (w : List Char) : a.acceptsInFullFrom scratch active w = a.acceptsFrom scratch active w := by
  induction w generalizing scratch active with
  | nil => rfl
  | cons c w ih =>
    rw [acceptsInFullFrom, acceptsFrom]
    cases a.followAll active (.symbol c) with
    | nil =>
      rw [closeWith_nil]
      exact acceptsInFullFrom_nil a scratch w
    | cons s seeds => exact ih _ _

end Automaton

/-- Running a word decides whether a path spells it from the start to a state with the accepting
mark, and stopping early makes no difference. -/
theorem accepts_iff_acceptsByPath (a : Automaton) (h : a.Coherent) (w : List Char) :
    (a.accepts w = true ↔ a.AcceptsByPath w) ∧ a.accepts w = a.acceptsInFull w := by
  refine ⟨Automaton.accepts_iff_path h w, ?_⟩
  unfold Automaton.accepts Automaton.acceptsInFull
  exact (Automaton.acceptsInFullFrom_eq a _ _ w).symm

/-- Two states in a cycle of epsilon moves, with a loop and two moves side by side, and a third one
that cannot be reached. -/
def Automaton.tangled : Automaton where
  toDiagram := (({} : Diagram).addState { isStart := true }).addState { isAccept := true }
    |>.addState {} |>.addMove 0 1 .epsilon |>.addMove 1 0 .epsilon |>.addMove 1 1 (.symbol 'a')
    |>.addMove 0 1 (.symbol 'a') |>.addMove 0 1 (.symbol 'a') |>.addMove 2 0 (.symbol 'b')

/-- Nothing reads the second symbol of the word, so the run stops there. -/
theorem accepts_iff_acceptsByPath_tangled :
    Automaton.tangled.Coherent ∧
      (Automaton.tangled.accepts ['a', 'b', 'a'] = true ↔
        Automaton.tangled.AcceptsByPath ['a', 'b', 'a']) ∧
      Automaton.tangled.accepts ['a', 'b', 'a'] =
        Automaton.tangled.acceptsInFull ['a', 'b', 'a'] := by
  have hstates := ((Diagram.consistent_empty.addState (s := { isStart := true }) rfl rfl).addState
    (s := { isAccept := true }) rfl rfl).addState (s := {}) rfl rfl
  have hd : Automaton.tangled.toDiagram.Consistent :=
    (((((hstates.addMove (by decide) (by decide) _).addMove (by decide) (by decide) _).addMove
      (by decide) (by decide) _).addMove (by decide) (by decide) _).addMove
        (by decide) (by decide) _).addMove (by decide) (by decide) _
  have hc : Automaton.tangled.Coherent := ⟨hd.coherent, by decide⟩
  exact ⟨hc, accepts_iff_acceptsByPath _ hc _⟩

end PatternAutomata
