/-
  Paths, taken apart. A path that spells nothing is a chain of epsilon moves; one
  that spells a symbol first goes through epsilon moves, one move on the symbol,
  and a path for the rest (`path_cons_iff`). The closure that runs and subsets
  compute is the set of states that paths spelling nothing lead to
  (`mem_enterClosure`).
-/
import PatternAutomata.Automaton.Consistent
import PatternAutomata.Automaton.Path
import PatternAutomata.Automaton.Simulation
import PatternAutomata.Proofs.Search

namespace PatternAutomata

namespace Diagram

variable {d : Diagram}

/-! ## Following moves -/

theorem mem_follow {s t : Nat} {label : Label} :
    t ∈ d.follow s label ↔ ∃ m ∈ d.movesFrom s, m.label = label ∧ m.target = t := by
  simp [follow, List.mem_filterMap]

theorem mem_followAll {hs : List Nat} {t : Nat} {label : Label} :
    t ∈ d.followAll hs label ↔ ∃ s ∈ hs, t ∈ d.follow s label := by
  simp [followAll, List.mem_flatMap]

theorem mem_successors {s t : Nat} :
    t ∈ d.successors s ↔ ∃ m ∈ d.movesFrom s, m.target = t := by
  simp [successors]

theorem mem_moves_of_mem_movesFrom {s : Nat} {m : Move} (h : m ∈ d.movesFrom s) :
    m ∈ d.moves := by
  obtain ⟨i, -, hi⟩ := List.mem_filterMap.mp h
  exact Array.mem_of_getElem? hi

theorem Coherent.target_lt_of_mem (hc : d.Coherent) {s : Nat} {m : Move}
    (h : m ∈ d.movesFrom s) : m.target < d.states.size :=
  hc.target_lt m (mem_moves_of_mem_movesFrom h)

theorem Coherent.follow_lt (hc : d.Coherent) {s t : Nat} {label : Label}
    (h : t ∈ d.follow s label) : t < d.states.size := by
  obtain ⟨m, hm, -, rfl⟩ := mem_follow.mp h
  exact hc.target_lt_of_mem hm

/-! ## Paths -/

theorem Path.append {s t u : Nat} {v w : List Char} (h : d.Path s v t) (h' : d.Path t w u) :
    d.Path s (v ++ w) u := by
  induction h with
  | nil _ => exact h'
  | cons hm _ ih =>
    rw [List.append_assoc]
    exact .cons hm (ih h')

theorem Path.single {s : Nat} {m : Move} (h : m ∈ d.movesFrom s) :
    d.Path s m.label.spelling m.target := by
  have hp := Path.cons h (Path.nil m.target)
  rwa [List.append_nil] at hp

theorem Path.lt (hc : d.Coherent) {s t : Nat} {w : List Char} (h : d.Path s w t)
    (hs : s < d.states.size) : t < d.states.size := by
  induction h with
  | nil _ => exact hs
  | cons hm _ ih => exact ih (hc.target_lt_of_mem hm)

theorem path_nil_iff {s t : Nat} :
    d.Path s [] t ↔ Relation.ReflTransGen (fun a b => b ∈ d.follow a .epsilon) s t := by
  constructor
  · intro h
    generalize hw : ([] : List Char) = w at h
    induction h with
    | nil _ => exact .refl
    | @cons s t m w hm _ ih =>
      obtain ⟨hl, hw⟩ := List.append_eq_nil_iff.mp hw.symm
      refine .head (mem_follow.mpr ⟨m, hm, ?_, rfl⟩) (ih hw.symm)
      cases hlabel : m.label with
      | epsilon => rfl
      | symbol c =>
        rw [hlabel] at hl
        cases hl
  · intro h
    induction h with
    | refl => exact .nil s
    | tail _ hstep ih =>
      obtain ⟨m, hm, hl, rfl⟩ := mem_follow.mp hstep
      have hp := ih.append (Path.single hm)
      rwa [hl] at hp

/-- A word is spelled symbol by symbol, with epsilon moves before each. -/
theorem path_cons_iff {s t : Nat} {c : Char} {w : List Char} :
    d.Path s (c :: w) t ↔
      ∃ q r, d.Path s [] q ∧ r ∈ d.follow q (.symbol c) ∧ d.Path r w t := by
  constructor
  · intro h
    generalize hv : c :: w = v at h
    induction h with
    | nil _ => cases hv
    | @cons s t m v hm hp ih =>
      cases hlabel : m.label with
      | epsilon =>
        rw [hlabel] at hv
        obtain ⟨q, r, hq, hr, hw⟩ := ih hv
        have hs := Path.single hm
        rw [hlabel] at hs
        exact ⟨q, r, hs.append hq, hr, hw⟩
      | symbol a =>
        rw [hlabel] at hv
        obtain ⟨rfl, rfl⟩ := List.cons.inj hv
        exact ⟨s, m.target, .nil s, mem_follow.mpr ⟨m, hm, hlabel, rfl⟩, hp⟩
  · intro ⟨q, r, hq, hr, hw⟩
    obtain ⟨m, hm, hl, rfl⟩ := mem_follow.mp hr
    have hp := (hq.append (Path.single hm)).append hw
    rw [hl] at hp
    exact hp

theorem reaches_iff {s t : Nat} :
    d.Reaches s t ↔ Relation.ReflTransGen (fun a b => b ∈ d.successors a) s t := by
  constructor
  · intro ⟨w, h⟩
    induction h with
    | nil _ => exact .refl
    | cons hm _ ih => exact .head (mem_successors.mpr ⟨_, hm, rfl⟩) ih
  · intro h
    induction h with
    | refl => exact ⟨[], .nil s⟩
    | tail _ hstep ih =>
      obtain ⟨w, hw⟩ := ih
      obtain ⟨m, hm, rfl⟩ := mem_successors.mp hstep
      exact ⟨_, hw.append (Path.single hm)⟩

/-! ## Closures -/

theorem Coherent.linked_iff (hc : d.Coherent) :
    Roster.Linked (d.follow · .epsilon) d.states.size = fun a b => b ∈ d.follow a .epsilon := by
  funext a b
  exact propext ⟨fun h => h.1, fun h => ⟨h, hc.follow_lt h⟩⟩

theorem valid_enterClosure (d : Diagram) (seeds : List Nat) :
    Roster.Valid d.states.size (d.enterClosure (Roster.blank d.states.size) seeds) :=
  ((Roster.valid_blank _).enterAll seeds).explore 0

/-- The closure of some states: all that epsilon moves lead to from them. -/
theorem mem_enterClosure (hc : d.Coherent) {seeds : List Nat}
    (hs : ∀ s ∈ seeds, s < d.states.size) (t : Nat) :
    t ∈ (d.enterClosure (Roster.blank d.states.size) seeds).order ↔
      ∃ s ∈ seeds, d.Path s [] t := by
  have hv := (Roster.valid_blank d.states.size).enterAll seeds
  have hblank : ∀ s, s ∈ ((Roster.blank d.states.size).enterAll seeds).order ↔ s ∈ seeds := by
    intro s
    rw [Roster.mem_enterAll (Roster.valid_blank _)]
    constructor
    · rintro (h | h)
      · simp [Roster.blank] at h
      · exact h.1
    · intro h
      exact Or.inr ⟨h, hs s h⟩
  unfold enterClosure
  rw [Roster.mem_explore hv, hc.linked_iff]
  simp only [hblank, path_nil_iff]

end Diagram

end PatternAutomata
