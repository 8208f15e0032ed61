/-
  Numberings name what can be reached. The numbering of an automaton numbers the
  states that paths from the start lead to, and no others; an identifier has a
  state exactly if the state has that identifier. A configuration is named by the
  identifiers of its members, so where all members are numbered, equal keys have
  equal members (`mem_members_congr`).
-/
import Mathlib.Data.List.Sublists
import PatternAutomata.Dfa
import PatternAutomata.Proofs.Paths

namespace PatternAutomata

namespace Numbering

variable {n : Nat} {num : Numbering}

/-- An identifier names a state exactly if it is the state's identifier. -/
theorem handle?_eq_some_iff (hv : Roster.Valid n num.roster) {i h : Nat} :
    num.handle? i = some h ↔ num.id? h = some i := by
  unfold id?
  cases i with
  | zero =>
    unfold handle?
    simp
  | succ i =>
    unfold handle?
    rw [← hv.place?_iff]
    simp

/-- No two states have one identifier. -/
theorem id?_injective (hv : Roster.Valid n num.roster) {i q r : Nat} (hq : num.id? q = some i)
    (hr : num.id? r = some i) : q = r := by
  have hq' := (handle?_eq_some_iff hv).mpr hq
  have hr' := (handle?_eq_some_iff hv).mpr hr
  rw [hq'] at hr'
  exact Option.some.inj hr'

/-- Identifiers of states run from 1 to the number of states numbered. -/
theorem mem_range_of_handle? {i h : Nat} (hi : num.handle? i = some h) :
    i ∈ List.range' 1 num.size := by
  cases i with
  | zero =>
    unfold handle? at hi
    cases hi
  | succ i =>
    unfold handle? at hi
    obtain ⟨hlt, -⟩ := Array.getElem?_eq_some_iff.mp hi
    rw [List.mem_range'_1]
    unfold size
    omega

/-- What stands in the order has an identifier. -/
theorem exists_handle?_of_mem {h : Nat} (hh : h ∈ num.roster.order) :
    ∃ i, num.handle? i = some h := by
  obtain ⟨i, hi⟩ := Array.mem_iff_getElem?.mp hh
  exact ⟨i + 1, hi⟩

theorem size_le (hv : Roster.Valid n num.roster) : num.size ≤ n := by
  have hsub : num.roster.order.toList ⊆ List.range n := by
    intro h hh
    exact List.mem_range.mpr (hv.lt (Array.mem_toList_iff.mp hh))
  have hlen := (List.subperm_of_subset hv.nodup hsub).length_le
  rw [List.length_range] at hlen
  exact hlen

end Numbering

namespace Automaton

theorem valid_numbering (a : Automaton) : Roster.Valid a.states.size a.numbering.roster :=
  ((Roster.valid_blank _).enter a.start).explore 0

/-- The states that are numbered are those that can be reached from the start. -/
theorem mem_order_numbering {a : Automaton} (hc : a.Coherent) (h : Nat) :
    h ∈ a.numbering.roster.order ↔ a.Reaches a.start h := by
  have hlinked : Roster.Linked a.successors a.states.size = fun s t => t ∈ a.successors s := by
    funext s t
    apply propext
    constructor
    · intro hst
      exact hst.1
    · intro hst
      obtain ⟨m, hm, rfl⟩ := Diagram.mem_successors.mp hst
      exact ⟨hst, hc.toCoherent.target_lt_of_mem hm⟩
  have hv := (Roster.valid_blank a.states.size).enter a.start
  have hstart : ∀ s, s ∈ ((Roster.blank a.states.size).enter a.start).order ↔ s = a.start := by
    intro s
    rw [Roster.mem_enter (Roster.valid_blank _)]
    simp [Roster.blank, hc.start_lt]
  unfold numbering
  rw [Roster.mem_explore hv, hlinked, Diagram.reaches_iff]
  simp only [hstart, exists_eq_left]

theorem exists_id?_of_reaches {a : Automaton} (hc : a.Coherent) {h : Nat}
    (hh : a.Reaches a.start h) : ∃ i, a.numbering.id? h = some i := by
  obtain ⟨i, hi⟩ := Numbering.exists_handle?_of_mem ((mem_order_numbering hc h).mpr hh)
  exact ⟨i, (Numbering.handle?_eq_some_iff a.valid_numbering).mp hi⟩

end Automaton

/-! ## Configurations -/

namespace Diagram

variable {d : Diagram} {num : Numbering}

/-- The members of a configuration are what epsilon moves lead to from the seeds. -/
theorem mem_members (hc : d.Coherent) {seeds : List Nat} (hs : ∀ s ∈ seeds, s < d.states.size)
    (t : Nat) : t ∈ (d.configuration num seeds).members ↔ ∃ s ∈ seeds, d.Path s [] t := by
  unfold configuration
  rw [Array.mem_toList_iff]
  exact mem_enterClosure hc hs t

/-- Its key lists the identifiers of its members. -/
theorem mem_key {seeds : List Nat} {i : Nat} :
    i ∈ (d.configuration num seeds).key ↔
      ∃ t, num.handle? i = some t ∧ t ∈ (d.configuration num seeds).members := by
  unfold configuration
  dsimp only
  rw [List.mem_filter, Option.any_eq_true]
  simp only [(valid_enterClosure d seeds).contains_iff, Array.mem_toList_iff]
  constructor
  · intro ⟨_, h⟩
    exact h
  · intro ⟨t, hi, ht⟩
    exact ⟨Numbering.mem_range_of_handle? hi, t, hi, ht⟩

/-- Keys are strictly ascending, and sublists of the list of all identifiers. -/
theorem key_sublist (d : Diagram) (num : Numbering) (seeds : List Nat) :
    (d.configuration num seeds).key.Sublist (List.range' 1 num.size) :=
  List.filter_sublist

theorem pairwise_key (d : Diagram) (num : Numbering) (seeds : List Nat) :
    (d.configuration num seeds).key.Pairwise (· < ·) :=
  (List.pairwise_lt_range').sublist (key_sublist d num seeds)

/-- Where all members are numbered, the key says which they are. -/
theorem mem_members_congr {seeds seeds' : List Nat}
    (hkey : (d.configuration num seeds).key = (d.configuration num seeds').key)
    {t : Nat} (hnum : t ∈ num.roster.order) (ht : t ∈ (d.configuration num seeds).members) :
    t ∈ (d.configuration num seeds').members := by
  obtain ⟨i, hi⟩ := Numbering.exists_handle?_of_mem hnum
  have hmem : i ∈ (d.configuration num seeds').key := by
    rw [← hkey]
    exact mem_key.mpr ⟨t, hi, ht⟩
  obtain ⟨t', hi', ht'⟩ := mem_key.mp hmem
  rw [hi, Option.some.injEq] at hi'
  rw [hi']
  exact ht'

end Diagram

end PatternAutomata
