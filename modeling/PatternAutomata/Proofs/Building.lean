/-
  What building does to a diagram. For each way to build (a state, a move,
  another diagram put behind, a mark taken off) one equation says what the
  states are afterwards. The handles of the moves with some property
  (`movesWhere`) grow with the list of moves, and looking them up gives the
  moves in order (`filterMap_movesWhere`). The equations about sizes, moves and
  marks are for `simp`.
-/
import Mathlib.Data.List.Induction
import PatternAutomata.Proofs.Paths

namespace PatternAutomata

/-! ## Alphabets -/

theorem mem_insertSymbol {alphabet : List Char} {a c : Char} :
    c ∈ insertSymbol alphabet a ↔ c ∈ alphabet ∨ c = a := by
  unfold insertSymbol
  split
  · rename_i h
    constructor
    · exact Or.inl
    · rintro (hc | rfl)
      · exact hc
      · exact h
  · simp

theorem nodup_insertSymbol {alphabet : List Char} (h : alphabet.Nodup) (a : Char) :
    (insertSymbol alphabet a).Nodup := by
  unfold insertSymbol
  split
  · exact h
  · rename_i ha
    exact h.append (List.nodup_singleton a) (by simpa using ha)

theorem mem_foldl_insertSymbol {alphabet symbols : List Char} {c : Char} :
    c ∈ symbols.foldl insertSymbol alphabet ↔ c ∈ alphabet ∨ c ∈ symbols := by
  induction symbols generalizing alphabet with
  | nil => simp
  | cons a symbols ih => rw [List.foldl_cons, ih, mem_insertSymbol, List.mem_cons, or_assoc]

theorem nodup_foldl_insertSymbol {alphabet : List Char} (h : alphabet.Nodup)
    (symbols : List Char) : (symbols.foldl insertSymbol alphabet).Nodup := by
  induction symbols generalizing alphabet with
  | nil => exact h
  | cons a symbols ih => exact ih (nodup_insertSymbol h a)

theorem Label.mem_insertInto {alphabet : List Char} {label : Label} {c : Char} :
    c ∈ label.insertInto alphabet ↔ c ∈ alphabet ∨ label = .symbol c := by
  cases label with
  | epsilon => simp [insertInto]
  | symbol a =>
    unfold insertInto
    rw [mem_insertSymbol, Label.symbol.injEq]
    exact or_congr_right eq_comm

theorem Label.nodup_insertInto {alphabet : List Char} (h : alphabet.Nodup) (label : Label) :
    (label.insertInto alphabet).Nodup := by
  cases label with
  | epsilon => exact h
  | symbol a => exact nodup_insertSymbol h a

namespace Diagram

variable {d e : Diagram}

/-! ## The handles of some moves -/

theorem mem_movesWhere {p : Move → Bool} {i : Nat} :
    i ∈ d.movesWhere p ↔ ∃ m, d.moves[i]? = some m ∧ p m = true := by
  unfold movesWhere
  rw [List.mem_filter, List.mem_range, Option.any_eq_true]
  constructor
  · intro ⟨_, h⟩
    exact h
  · intro ⟨m, hm, hp⟩
    exact ⟨(Array.getElem?_eq_some_iff.mp hm).1, m, hm, hp⟩

theorem lt_of_mem_movesWhere {p : Move → Bool} {i : Nat} (hi : i ∈ d.movesWhere p) :
    i < d.moves.size := by
  obtain ⟨m, hm, -⟩ := mem_movesWhere.mp hi
  exact (Array.getElem?_eq_some_iff.mp hm).1

theorem movesWhere_congr {d' : Diagram} (h : d'.moves = d.moves) (p : Move → Bool) :
    d'.movesWhere p = d.movesWhere p := by
  unfold movesWhere
  rw [h]

/-- Behind the moves of one diagram, those of another have handles that much further on. -/
theorem movesWhere_append {d' : Diagram} {ms : Array Move} (h : d'.moves = d.moves ++ ms)
    (p : Move → Bool) :
    d'.movesWhere p =
      d.movesWhere p ++ (({ moves := ms } : Diagram).movesWhere p).map (· + d.moves.size) := by
  simp only [movesWhere, h, Array.size_append, List.range_add, List.filter_append, List.filter_map]
  congr 1
  · refine List.filter_congr fun i hi => ?_
    rw [Array.getElem?_append_left (List.mem_range.mp hi)]
  · rw [List.map_congr_left fun i _ => Nat.add_comm d.moves.size i]
    congr 1
    refine List.filter_congr fun i _ => ?_
    rw [Function.comp_apply, Array.getElem?_append_right (Nat.le_add_right _ _),
      Nat.add_sub_cancel_left]

theorem movesWhere_push {d' : Diagram} {m : Move} (h : d'.moves = d.moves.push m)
    (p : Move → Bool) :
    d'.movesWhere p = d.movesWhere p ++ if p m then [d.moves.size] else [] := by
  have hm : d'.moves = d.moves ++ #[m] := by rw [h, Array.push_eq_append]
  rw [movesWhere_append hm]
  by_cases hp : p m = true
  · simp [movesWhere, List.filter, hp]
  · simp [movesWhere, List.filter, hp]

theorem movesWhere_map (ms : Array Move) (f : Move → Move) (p : Move → Bool) :
    ({ moves := ms.map f } : Diagram).movesWhere p =
      ({ moves := ms } : Diagram).movesWhere fun m => p (f m) := by
  simp only [movesWhere, Array.size_map]
  refine List.filter_congr fun i _ => ?_
  rw [Array.getElem?_map, Option.any_map]

theorem movesWhere_eq_nil {p : Move → Bool} (h : ∀ m ∈ d.moves, p m = false) :
    d.movesWhere p = [] := by
  rw [List.eq_nil_iff_forall_not_mem]
  intro i hi
  obtain ⟨m, hm, hp⟩ := mem_movesWhere.mp hi
  rw [h m (Array.mem_of_getElem? hm)] at hp
  cases hp

/-- Looking the handles up gives the moves, in order. -/
theorem filterMap_movesWhere (d : Diagram) (p : Move → Bool) :
    (d.movesWhere p).filterMap (d.moves[·]?) = d.moves.toList.filter p := by
  obtain ⟨states, ⟨ms⟩, alphabet⟩ := d
  induction ms using List.reverseRecOn with
  | nil => rfl
  | append_singleton ms m ih =>
    have hm : (⟨states, ⟨ms ++ [m]⟩, alphabet⟩ : Diagram).moves =
        (⟨states, ⟨ms⟩, alphabet⟩ : Diagram).moves.push m := by simp
    rw [movesWhere_push hm, List.filterMap_append, List.filter_append, ← ih]
    congr 1
    · refine List.filterMap_congr fun i hi => ?_
      obtain ⟨m', hm', -⟩ := mem_movesWhere.mp hi
      obtain ⟨hlt, -⟩ := Array.getElem?_eq_some_iff.mp hm'
      simp at hlt ⊢
      rw [List.getElem?_append_left hlt]
    · by_cases hp : p m = true
      · simp [hp]
      · simp [hp]

/-! ## Sizes and moves after each way to build -/

section Sizes

variable (d e : Diagram) (s : State) (h source target : Nat) (label : Label)

@[simp] theorem size_states_addState : (d.addState s).states.size = d.states.size + 1 := by
  simp [addState]

@[simp] theorem moves_addState : (d.addState s).moves = d.moves := rfl

@[simp] theorem size_states_unmarkStart : (d.unmarkStart h).states.size = d.states.size := by
  simp [unmarkStart]

@[simp] theorem moves_unmarkStart : (d.unmarkStart h).moves = d.moves := rfl

@[simp] theorem size_states_unmarkAccept : (d.unmarkAccept h).states.size = d.states.size := by
  simp [unmarkAccept]

@[simp] theorem moves_unmarkAccept : (d.unmarkAccept h).moves = d.moves := rfl

@[simp] theorem size_states_addMove :
    (d.addMove source target label).states.size = d.states.size := by
  simp [addMove]

@[simp] theorem moves_addMove :
    (d.addMove source target label).moves = d.moves.push { source, target, label } := rfl

@[simp] theorem size_states_absorb :
    (d.absorb e).states.size = d.states.size + e.states.size := by
  simp [absorb]

@[simp] theorem moves_absorb :
    (d.absorb e).moves = d.moves ++ e.moves.map (·.shift d.states.size) := rfl

end Sizes

/-! ## The states after each way to build -/

theorem state_of_le {h : Nat} (hle : d.states.size ≤ h) : d.state h = {} := by
  unfold state
  rw [Array.getElem?_eq_none hle]
  rfl

theorem state_addState (d : Diagram) (s : State) (h : Nat) :
    (d.addState s).state h = if h = d.states.size then s else d.state h := by
  unfold state addState
  rw [Array.getElem?_push]
  split
  · rfl
  · rfl

theorem state_unmarkStart (d : Diagram) (k h : Nat) :
    (d.unmarkStart k).state h =
      if h = k then { d.state h with isStart := false } else d.state h := by
  rw [state, unmarkStart, Array.getElem?_modify]
  by_cases hk : k = h
  · rw [if_pos hk, if_pos hk.symm, state]
    cases d.states[h]? with
    | none => rfl
    | some s => rfl
  · rw [if_neg hk, if_neg (Ne.symm hk)]
    rfl

theorem state_unmarkAccept (d : Diagram) (k h : Nat) :
    (d.unmarkAccept k).state h =
      if h = k then { d.state h with isAccept := false } else d.state h := by
  rw [state, unmarkAccept, Array.getElem?_modify]
  by_cases hk : k = h
  · rw [if_pos hk, if_pos hk.symm, state]
    cases d.states[h]? with
    | none => rfl
    | some s => rfl
  · rw [if_neg hk, if_neg (Ne.symm hk)]
    rfl

/-- A new move is listed last, at its source and at its target. -/
theorem state_addMove {source target : Nat} (hs : source < d.states.size)
    (ht : target < d.states.size) (label : Label) (h : Nat) :
    (d.addMove source target label).state h =
      { d.state h with
        outgoing := (d.state h).outgoing ++ if source = h then [d.moves.size] else []
        incoming := (d.state h).incoming ++ if target = h then [d.moves.size] else [] } := by
  simp only [state, addMove, Array.getElem?_modify]
  by_cases hlt : h < d.states.size
  · rw [Array.getElem?_eq_getElem hlt]
    by_cases hsh : source = h
    · by_cases hth : target = h
      · simp [hsh, hth]
      · simp [hsh, hth]
    · by_cases hth : target = h
      · simp [hsh, hth]
      · simp [hsh, hth]
  · have hsh : source ≠ h := by omega
    have hth : target ≠ h := by omega
    simp [hsh, hth]

theorem state_absorb_left {h : Nat} (hlt : h < d.states.size) (e : Diagram) :
    (d.absorb e).state h = d.state h := by
  rw [state, absorb, Array.getElem?_append_left hlt]
  rfl

theorem state_absorb_right (d e : Diagram) (h : Nat) :
    (d.absorb e).state (h + d.states.size) = (e.state h).shift d.moves.size := by
  rw [state, absorb, Array.getElem?_append_right (Nat.le_add_left _ _), Nat.add_sub_cancel,
    Array.getElem?_map, state]
  cases e.states[h]? with
  | none => rfl
  | some s => rfl

/-! ## Marks

  Moves do not touch them, so these equations need no handle to be in range. -/

section Marks

variable (d e : Diagram) (s : State) (k h source target : Nat) (label : Label)

/-- The state has the start mark. -/
def IsStart (d : Diagram) (h : Nat) : Prop := (d.state h).isStart = true

/-- The state has the accepting mark. -/
def IsAccept (d : Diagram) (h : Nat) : Prop := (d.state h).isAccept = true

@[simp] theorem isStart_addState :
    (d.addState s).IsStart h ↔
      (h = d.states.size ∧ s.isStart = true) ∨ (h ≠ d.states.size ∧ d.IsStart h) := by
  unfold IsStart
  rw [state_addState]
  split
  · simp [*]
  · simp [*]

@[simp] theorem isAccept_addState :
    (d.addState s).IsAccept h ↔
      (h = d.states.size ∧ s.isAccept = true) ∨ (h ≠ d.states.size ∧ d.IsAccept h) := by
  unfold IsAccept
  rw [state_addState]
  split
  · simp [*]
  · simp [*]

@[simp] theorem isStart_unmarkStart :
    (d.unmarkStart k).IsStart h ↔ h ≠ k ∧ d.IsStart h := by
  unfold IsStart
  rw [state_unmarkStart]
  split
  · simp [*]
  · simp [*]

@[simp] theorem isAccept_unmarkStart : (d.unmarkStart k).IsAccept h ↔ d.IsAccept h := by
  unfold IsAccept
  rw [state_unmarkStart]
  split
  · rfl
  · rfl

@[simp] theorem isStart_unmarkAccept : (d.unmarkAccept k).IsStart h ↔ d.IsStart h := by
  unfold IsStart
  rw [state_unmarkAccept]
  split
  · rfl
  · rfl

@[simp] theorem isAccept_unmarkAccept :
    (d.unmarkAccept k).IsAccept h ↔ h ≠ k ∧ d.IsAccept h := by
  unfold IsAccept
  rw [state_unmarkAccept]
  split
  · simp [*]
  · simp [*]

/-- Listing a move at a state leaves both marks of it. -/
theorem marks_addMove :
    ((d.addMove source target label).state h).isStart = (d.state h).isStart ∧
      ((d.addMove source target label).state h).isAccept = (d.state h).isAccept := by
  simp only [state, addMove, Array.getElem?_modify]
  cases d.states[h]? with
  | none => simp
  | some s =>
    by_cases hs : source = h
    · by_cases ht : target = h
      · simp [hs, ht]
      · simp [hs, ht]
    · by_cases ht : target = h
      · simp [hs, ht]
      · simp [hs, ht]

@[simp] theorem isStart_addMove :
    (d.addMove source target label).IsStart h ↔ d.IsStart h := by
  unfold IsStart
  rw [(marks_addMove d h source target label).1]

@[simp] theorem isAccept_addMove :
    (d.addMove source target label).IsAccept h ↔ d.IsAccept h := by
  unfold IsAccept
  rw [(marks_addMove d h source target label).2]

/-- Behind another diagram, a state has the marks it had. -/
theorem marks_absorb :
    ((d.absorb e).state h).isStart =
        (if h < d.states.size then d.state h else e.state (h - d.states.size)).isStart ∧
      ((d.absorb e).state h).isAccept =
        (if h < d.states.size then d.state h else e.state (h - d.states.size)).isAccept := by
  split
  · rename_i hlt
    rw [state_absorb_left hlt]
    exact ⟨rfl, rfl⟩
  · rename_i hge
    have hright := state_absorb_right d e (h - d.states.size)
    rw [Nat.sub_add_cancel (Nat.le_of_not_lt hge)] at hright
    rw [hright]
    exact ⟨rfl, rfl⟩

@[simp] theorem isStart_absorb :
    (d.absorb e).IsStart h ↔
      (h < d.states.size ∧ d.IsStart h) ∨
        (¬ h < d.states.size ∧ e.IsStart (h - d.states.size)) := by
  unfold IsStart
  rw [(marks_absorb d e h).1]
  split
  · simp [*]
  · simp [*]

@[simp] theorem isAccept_absorb :
    (d.absorb e).IsAccept h ↔
      (h < d.states.size ∧ d.IsAccept h) ∨
        (¬ h < d.states.size ∧ e.IsAccept (h - d.states.size)) := by
  unfold IsAccept
  rw [(marks_absorb d e h).2]
  split
  · simp [*]
  · simp [*]

end Marks

end Diagram

end PatternAutomata
