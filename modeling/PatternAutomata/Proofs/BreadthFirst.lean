/-
  Numbering is breadth-first search. Exploring enters, in order, the handles that
  the neighbours of the order itself name for the first time (`order_explore`). So
  of two states that one is numbered first that is listed first: by the state with
  the smaller identifier, or earlier by the same state (`FirstListed.idxOf_lt_iff`).
  Distances from the start follow, since a shortest way to a state with a smaller
  identifier is never longer (`exists_steps_le`).
-/
import Mathlib.Data.Set.Card
import PatternAutomata.Proofs.Drawing

namespace PatternAutomata

/-! ## First appearances -/

section FirstAppearances

variable {l : List Nat} {x y : Nat}

theorem eraseDups_concat {α : Type} [DecidableEq α] (l : List α) (a : α) :
    (l ++ [a]).eraseDups = if a ∈ l then l.eraseDups else l.eraseDups ++ [a] := by
  rw [List.eraseDups_append, List.removeAll]
  by_cases ha : a ∈ l
  · simp [ha]
  · have hnil : [a].eraseDups = [a] := rfl
    simp [ha, hnil]

theorem eraseDups_prefix_append (l k : List Nat) : l.eraseDups <+: (l ++ k).eraseDups := by
  rw [List.eraseDups_append]
  exact List.prefix_append _ _

/-- What stands in the beginning of a list comes before what does not. -/
theorem idxOf_lt_of_mem_beginning {k : List Nat} (hk : k <+: l) (hx : x ∈ k) (hy : y ∉ k) :
    l.idxOf x < l.idxOf y := by
  obtain ⟨rest, rfl⟩ := hk
  have hlt := List.idxOf_lt_length_iff.mpr hx
  rw [List.idxOf_append_of_mem hx, List.idxOf_append_of_notMem hy]
  omega

/-- First appearances keep the order in which they come. -/
theorem idxOf_eraseDups_lt_iff (hx : x ∈ l) (hy : y ∈ l) :
    l.eraseDups.idxOf x < l.eraseDups.idxOf y ↔ l.idxOf x < l.idxOf y := by
  induction l using List.reverseRecOn with
  | nil => cases hx
  | append_singleton l a ih =>
    have hlist := List.prefix_append l [a]
    have hfirst := eraseDups_prefix_append l [a]
    have hmem : ∀ z, z ∈ l.eraseDups ↔ z ∈ l := fun z => List.mem_eraseDups
    by_cases hxl : x ∈ l
    · by_cases hyl : y ∈ l
      · rw [← hfirst.idxOf_eq_of_mem ((hmem x).mpr hxl), ← hlist.idxOf_eq_of_mem hxl,
          ← hfirst.idxOf_eq_of_mem ((hmem y).mpr hyl), ← hlist.idxOf_eq_of_mem hyl]
        exact ih hxl hyl
      · exact iff_of_true (idxOf_lt_of_mem_beginning hfirst ((hmem x).mpr hxl) (mt (hmem y).mp hyl))
          (idxOf_lt_of_mem_beginning hlist hxl hyl)
    · obtain rfl : x = a := by simpa [hxl] using hx
      by_cases hyl : y ∈ l
      · refine iff_of_false (Nat.lt_asymm ?_) (Nat.lt_asymm ?_)
        · exact idxOf_lt_of_mem_beginning hfirst ((hmem y).mpr hyl) (mt (hmem x).mp hxl)
        · exact idxOf_lt_of_mem_beginning hlist hyl hxl
      · obtain rfl : y = x := by simpa [hyl] using hy
        exact iff_of_false (Nat.lt_irrefl _) (Nat.lt_irrefl _)

theorem idxOf_le_of_getElem? {j : Nat} (h : l[j]? = some x) : l.idxOf x ≤ j := by
  have hx := List.mem_of_getElem? h
  rw [← Nat.lt_succ_iff, ← List.mem_take_iff_idxOf_lt hx, List.take_add_one, h]
  exact List.mem_append_right _ List.mem_cons_self

theorem idxOf_eq_iff_first {j : Nat} :
    (x ∈ l ∧ l.idxOf x = j) ↔ l[j]? = some x ∧ ∀ k < j, l[k]? ≠ some x := by
  constructor
  · rintro ⟨hx, rfl⟩
    exact ⟨List.getElem?_idxOf hx, fun k hk h => Nat.not_le_of_lt hk (idxOf_le_of_getElem? h)⟩
  · intro ⟨hj, hfirst⟩
    have hx := List.mem_of_getElem? hj
    refine ⟨hx, Nat.le_antisymm (idxOf_le_of_getElem? hj) (Nat.le_of_not_lt fun hlt => ?_)⟩
    exact hfirst _ hlt (List.getElem?_idxOf hx)

theorem idxOf_eq_iff_of_nodup {j : Nat} (hl : l.Nodup) :
    (x ∈ l ∧ l.idxOf x = j) ↔ l[j]? = some x := by
  constructor
  · rintro ⟨hx, rfl⟩
    exact List.getElem?_idxOf hx
  · intro h
    obtain ⟨hj, rfl⟩ := List.getElem?_eq_some_iff.mp h
    exact ⟨List.getElem_mem hj, hl.idxOf_getElem j hj⟩

/-- The first of the elements that lists `y` stands in place `p`, and lists it in place `j`. -/
structure FirstListed (g : Nat → List Nat) (xs : List Nat) (y p j : Nat) : Prop where
  place : ∃ x, xs[p]? = some x ∧ y ∈ g x ∧ (g x).idxOf y = j
  least : ∀ q < p, ∀ x, xs[q]? = some x → y ∉ g x

variable {g : Nat → List Nat} {xs : List Nat} {p q i j : Nat}

theorem exists_firstListed (h : y ∈ xs.flatMap g) : ∃ p j, FirstListed g xs y p j := by
  induction xs with
  | nil => cases h
  | cons x xs ih =>
    by_cases hy : y ∈ g x
    · exact ⟨0, _, ⟨x, rfl, hy, rfl⟩, fun q hq => absurd hq (Nat.not_lt_zero q)⟩
    · rw [List.flatMap_cons, List.mem_append, or_iff_right hy] at h
      obtain ⟨p, j, hplace, hleast⟩ := ih h
      refine ⟨p + 1, j, hplace, fun q hq z hz => ?_⟩
      cases q with
      | zero =>
        obtain rfl := Option.some.inj hz
        exact hy
      | succ q => exact hleast q (Nat.lt_of_succ_lt_succ hq) z hz

theorem idxOf_flatMap (h : FirstListed g xs y p j) :
    (xs.flatMap g).idxOf y = ((xs.take p).flatMap g).length + j := by
  induction xs generalizing p with
  | nil =>
    obtain ⟨x, hx, -⟩ := h.place
    cases hx
  | cons x xs ih =>
    cases p with
    | zero =>
      obtain ⟨z, hz, hy, rfl⟩ := h.place
      obtain rfl := Option.some.inj hz
      rw [List.flatMap_cons, List.idxOf_append_of_mem hy]
      simp
    | succ p =>
      have hy : y ∉ g x := h.least 0 (Nat.succ_pos p) x rfl
      have htail : FirstListed g xs y p j :=
        ⟨h.place, fun q hq => h.least (q + 1) (Nat.succ_lt_succ hq)⟩
      rw [List.flatMap_cons, List.idxOf_append_of_notMem hy, ih htail, List.take_succ_cons,
        List.flatMap_cons, List.length_append]
      omega

/-- What an earlier element lists comes before what a later one lists first. -/
theorem FirstListed.idxOf_lt (hx : FirstListed g xs x p i) (hy : FirstListed g xs y q j)
    (hlt : p < q) : (xs.flatMap g).idxOf x < (xs.flatMap g).idxOf y := by
  obtain ⟨z, hz, hxz, -⟩ := hx.place
  refine idxOf_lt_of_mem_beginning ((List.take_prefix q xs).flatMap g) ?_ ?_
  · have htake : (xs.take q)[p]? = some z := (List.getElem?_take_of_lt hlt).trans hz
    exact List.mem_flatMap.mpr ⟨z, List.mem_of_getElem? htake, hxz⟩
  · intro hmem
    obtain ⟨w, hw, hyw⟩ := List.mem_flatMap.mp hmem
    obtain ⟨k, hk⟩ := List.mem_iff_getElem?.mp hw
    rw [List.getElem?_take] at hk
    split at hk
    · rename_i hkq
      exact hy.least k hkq w hk hyw
    · cases hk

/-- What is listed first comes first, by the place of the list and the place in the list. -/
theorem FirstListed.idxOf_lt_iff (hx : FirstListed g xs x p i) (hy : FirstListed g xs y q j) :
    (xs.flatMap g).idxOf x < (xs.flatMap g).idxOf y ↔ p < q ∨ p = q ∧ i < j := by
  rcases Nat.lt_trichotomy p q with hlt | rfl | hgt
  · have := hx.idxOf_lt hy hlt
    omega
  · rw [idxOf_flatMap hx, idxOf_flatMap hy]
    omega
  · have := hy.idxOf_lt hx hgt
    omega

end FirstAppearances

/-! ## The order of entry -/

namespace Roster

variable {n : Nat} {r : Roster} {l : List Nat}

theorem Leads.prefix_of_order {s : Roster} (h : r.Leads s) : r.order.toList <+: s.order.toList := by
  rw [List.prefix_iff_getElem?]
  intro i hi
  rw [Array.getElem?_toList]
  exact h i _ (Array.getElem?_eq_getElem (by simpa using hi))

theorem order_enter (hv : Valid n r) (hr : r.order.toList = l.eraseDups) {h : Nat} (hlt : h < n) :
    (r.enter h).order.toList = (l ++ [h]).eraseDups := by
  have hmem : h ∈ r.order ↔ h ∈ l := by
    rw [← Array.mem_toList_iff, hr, List.mem_eraseDups]
  rw [eraseDups_concat]
  by_cases hh : h ∈ l
  · rw [enter_of_mem hv (hmem.mpr hh), if_pos hh, hr]
  · rw [enter_of_new hv hlt (mt hmem.mp hh), if_neg hh, Array.toList_push, hr]

theorem order_enterAll (hv : Valid n r) (hr : r.order.toList = l.eraseDups) {hs : List Nat}
    (hlt : ∀ h ∈ hs, h < n) : (r.enterAll hs).order.toList = (l ++ hs).eraseDups := by
  induction hs generalizing r l with
  | nil =>
    rw [List.append_nil]
    exact hr
  | cons h hs ih =>
    obtain ⟨hh, hhs⟩ := List.forall_mem_cons.mp hlt
    have hstep : r.enterAll (h :: hs) = (r.enter h).enterAll hs := rfl
    rw [hstep, ih (hv.enter h) (order_enter hv hr hh) hhs, List.append_assoc]
    rfl

/-- What has entered is `l`, and behind it the neighbours of the handles before place `i`. -/
def Surveyed (next : Nat → List Nat) (l : List Nat) (r : Roster) (i : Nat) : Prop :=
  r.order.toList = (l ++ (r.order.toList.take i).flatMap next).eraseDups

theorem surveyed_zero {next : Nat → List Nat} (hr : r.order.toList = l.eraseDups) :
    Surveyed next l r 0 := by
  unfold Surveyed
  rw [List.take_zero, List.flatMap_nil, List.append_nil]
  exact hr

section Explore

variable {next : Nat → List Nat} (hnext : ∀ x, ∀ y ∈ next x, y < n)
include hnext

theorem Surveyed.order_enterAll (hv : Valid n r) {i x : Nat} (hx : r.order[i]? = some x)
    (h : Surveyed next l r i) :
    (r.enterAll (next x)).order.toList =
      (l ++ (r.order.toList.take (i + 1)).flatMap next).eraseDups := by
  have hnow : (r.order.toList.take (i + 1)).flatMap next =
      (r.order.toList.take i).flatMap next ++ next x := by
    rw [List.take_add_one, Array.getElem?_toList, hx, List.flatMap_append]
    simp
  rw [Roster.order_enterAll hv h (hnext x), hnow, List.append_assoc]

theorem Surveyed.step (hv : Valid n r) {i x : Nat} (hx : r.order[i]? = some x)
    (h : Surveyed next l r i) : Surveyed next l (r.enterAll (next x)) (i + 1) := by
  obtain ⟨hi, -⟩ := Array.getElem?_eq_some_iff.mp hx
  have htake : (r.enterAll (next x)).order.toList.take (i + 1) = r.order.toList.take (i + 1) := by
    obtain ⟨rest, hrest⟩ := (leads_enterAll hv (next x)).prefix_of_order
    rw [← hrest, List.take_append_of_le_length (by simpa using hi)]
  unfold Surveyed
  rw [htake]
  exact h.order_enterAll hnext hv hx

/-- The order in the end is that in which its own neighbours name handles for the first time. -/
theorem order_explore (hv : Valid n r) (hr : r.order.toList = l.eraseDups) :
    (r.explore next 0).order.toList =
      (l ++ (r.explore next 0).order.toList.flatMap next).eraseDups := by
  obtain ⟨-, j, hj, h⟩ := explore_induction (i := 0)
    (fun _ _ _ hs hx h => Surveyed.step hnext hs hx h) hv (surveyed_zero hr)
  unfold Surveyed at h
  rwa [List.take_of_length_le (by simpa using hj)] at h

/-- An order that its neighbours name in this way begins with that of exploring. -/
theorem explore_prefix (hv : Valid n r) (hr : r.order.toList = l.eraseDups) {xs : List Nat}
    (hxs : xs = (l ++ xs.flatMap next).eraseDups) :
    (r.explore next 0).order.toList <+: xs := by
  have hstep : ∀ (s : Roster) (i x : Nat), Valid n s → s.order[i]? = some x →
      Surveyed next l s i ∧ s.order.toList <+: xs →
      Surveyed next l (s.enterAll (next x)) (i + 1) ∧
        (s.enterAll (next x)).order.toList <+: xs := by
    intro s i x hs hx ⟨h, hpre⟩
    refine ⟨h.step hnext hs hx, ?_⟩
    obtain ⟨rest, hrest⟩ :=
      ((List.take_prefix (i + 1) s.order.toList).trans hpre).flatMap next
    rw [h.order_enterAll hnext hs hx, hxs, ← hrest, ← List.append_assoc]
    exact eraseDups_prefix_append _ _
  have hstart : r.order.toList <+: xs := by
    rw [hr, hxs]
    exact eraseDups_prefix_append _ _
  obtain ⟨-, -, -, -, h⟩ := explore_induction (i := 0) hstep hv ⟨surveyed_zero hr, hstart⟩
  exact h

end Explore

end Roster

/-! ## Distances -/

namespace Diagram

/-- Some `k` moves, one after the other, lead from one state to the other. -/
inductive Steps (d : Diagram) (s : Nat) : Nat → Nat → Prop where
  | zero : d.Steps s 0 s
  | succ {k t : Nat} {m : Move} : d.Steps s k t → m ∈ d.movesFrom t → d.Steps s (k + 1) m.target

/-- The number of moves on a shortest way from one state to the other. -/
def Distance (d : Diagram) (s t k : Nat) : Prop := IsLeast {j | d.Steps s j t} k

/-- The move in place `j` of those that state `s` lists leads to `t`. -/
def LeadsAt (d : Diagram) (s j t : Nat) : Prop :=
  ∃ i m, (d.state s).outgoing[j]? = some i ∧ d.moves[i]? = some m ∧ m.target = t

variable {d : Diagram} {s t : Nat}

theorem reaches_iff_exists_steps : d.Reaches s t ↔ ∃ k, d.Steps s k t := by
  constructor
  · rw [reaches_iff]
    intro h
    induction h with
    | refl => exact ⟨0, .zero⟩
    | tail _ hstep ih =>
      obtain ⟨k, hk⟩ := ih
      obtain ⟨m, hm, rfl⟩ := mem_successors.mp hstep
      exact ⟨k + 1, hk.succ hm⟩
  · intro ⟨k, h⟩
    induction h with
    | zero => exact ⟨[], .nil s⟩
    | succ _ hm ih => exact ih.trans (Reaches.single hm)

theorem exists_distance (h : d.Reaches s t) : ∃ k, d.Distance s t k := by
  classical
  have hsteps := reaches_iff_exists_steps.mp h
  exact ⟨Nat.find hsteps, Nat.find_spec hsteps, fun j hj => Nat.find_min' hsteps hj⟩

/-- All moves that a state lists exist, so none is left out among its successors. -/
theorem Coherent.leadsAt_iff (hc : d.Coherent) {j : Nat} :
    d.LeadsAt s j t ↔ (d.successors s)[j]? = some t := by
  have hmoves : (d.state s).outgoing.map (d.moves[·]?) = (d.movesFrom s).map some := by
    rw [← List.forall₂_eq_eq_eq, List.forall₂_map_left_iff, List.forall₂_map_right_iff]
    refine forall₂_filterMap fun i hi => ?_
    obtain ⟨m, hm, -⟩ := hc.outgoing s i hi
    exact ⟨m, hm, hm⟩
  have hplace := congrArg (·[j]?) hmoves.symm
  simp only [List.getElem?_map] at hplace
  unfold LeadsAt successors
  rw [List.getElem?_map]
  cases hj : (d.state s).outgoing[j]? with
  | none =>
    rw [hj, Option.map_none, Option.map_eq_none_iff] at hplace
    simp [hplace]
  | some i =>
    rw [hj, Option.map_some] at hplace
    cases hm : (d.movesFrom s)[j]? with
    | none =>
      rw [hm] at hplace
      cases hplace
    | some m =>
      rw [hm, Option.map_some, Option.some.injEq] at hplace
      simp [← hplace]

theorem exists_leadsAt_iff (hc : d.Coherent) : (∃ j, d.LeadsAt s j t) ↔ t ∈ d.successors s := by
  rw [List.mem_iff_getElem?]
  exact exists_congr fun j => hc.leadsAt_iff

theorem Steps.next (hc : d.Coherent) {j k u : Nat} (h : d.Steps s k t) (ht : d.LeadsAt t j u) :
    d.Steps s (k + 1) u := by
  obtain ⟨m, hm, rfl⟩ := mem_successors.mp ((exists_leadsAt_iff hc).mp ⟨j, ht⟩)
  exact h.succ hm

end Diagram

/-! ## Breadth first -/

namespace Numbering

/-- Of the states with a move to `h`, that with identifier `p` has the smallest, and the first such
move that it lists stands in place `j`. -/
structure DiscoveredAt (num : Numbering) (d : Diagram) (h p j : Nat) : Prop where
  first : ∃ s, num.id? s = some p ∧ d.LeadsAt s j h ∧ ∀ k < j, ¬ d.LeadsAt s k h
  least : ∀ q < p, ∀ s, num.id? s = some q → ∀ k, ¬ d.LeadsAt s k h

/-- The states that can be reached have the identifiers from 1 up to their number, one each, in the
order in which breadth-first search from the start comes to them. -/
structure BreadthFirst (num : Numbering) (a : Automaton) : Prop where
  numbered_iff : ∀ h, (∃ i, num.id? h = some i) ↔ a.Reaches a.start h
  identifier_iff : ∀ i, (∃ h, num.id? h = some i) ↔ 1 ≤ i ∧ i ≤ num.size
  size_eq : num.size = {h | a.Reaches a.start h}.ncard
  handle?_iff : ∀ h i, num.handle? i = some h ↔ num.id? h = some i
  handle?_eq_none : ∀ i, i = 0 ∨ num.size < i → num.handle? i = none
  id?_start : num.id? a.start = some 1
  exists_distance : ∀ h, a.Reaches a.start h → ∃ k, a.Distance a.start h k
  distance_le : ∀ {s t i j k l}, num.id? s = some i → num.id? t = some j → i ≤ j →
    a.Distance a.start s k → a.Distance a.start t l → k ≤ l
  exists_discoveredAt : ∀ h, a.Reaches a.start h → h ≠ a.start →
    ∃ p j, num.DiscoveredAt a.toDiagram h p j
  lt_iff : ∀ {s t i i' p p' j j'}, s ≠ a.start → t ≠ a.start →
    num.id? s = some i → num.id? t = some i' →
    num.DiscoveredAt a.toDiagram s p j → num.DiscoveredAt a.toDiagram t p' j' →
    (i < i' ↔ p < p' ∨ p = p' ∧ j < j')

variable {n : Nat} {num : Numbering}

/-- The state in place `i` is the one that has identifier `i + 1`. -/
theorem id?_eq_succ_iff (hv : Roster.Valid n num.roster) {h i : Nat} :
    num.id? h = some (i + 1) ↔ num.order[i]? = some h := by
  rw [← handle?_eq_some_iff hv]
  unfold handle? order
  rw [Array.getElem?_toList]

theorem id?_eq_some_iff (hv : Roster.Valid n num.roster) {h i : Nat} :
    num.id? h = some i ↔ h ∈ num.order ∧ num.order.idxOf h + 1 = i := by
  have hnodup : num.order.Nodup := hv.nodup
  cases i with
  | zero =>
    rw [← handle?_eq_some_iff hv]
    simp [handle?]
  | succ i => rw [id?_eq_succ_iff hv, Nat.succ_inj, idxOf_eq_iff_of_nodup hnodup]

theorem handle?_eq_none_iff {i : Nat} : num.handle? i = none ↔ i = 0 ∨ num.size < i := by
  cases i with
  | zero => simp [handle?]
  | succ i =>
    unfold handle? size
    rw [Array.getElem?_eq_none_iff]
    omega

end Numbering

namespace Automaton

variable {a : Automaton} (hc : a.Coherent)
include hc

theorem lt_of_mem_successors {s t : Nat} (ht : t ∈ a.successors s) : t < a.states.size := by
  obtain ⟨m, hm, rfl⟩ := Diagram.mem_successors.mp ht
  exact hc.toCoherent.target_lt_of_mem hm

theorem toList_enter_start :
    ((Roster.blank a.states.size).enter a.start).order.toList = [a.start].eraseDups := by
  rw [enter_start hc]
  rfl

/-- Behind the start, the order is that in which the states in it list others for the first time. -/
theorem order_numbering :
    a.numbering.order = (a.start :: a.numbering.order.flatMap a.successors).eraseDups :=
  Roster.order_explore (fun _ _ => lt_of_mem_successors hc) ((Roster.valid_blank _).enter a.start)
    (toList_enter_start hc)

/-- A list that its states name in this way begins with the order. -/
theorem order_numbering_prefix {hs : List Nat}
    (h : hs = (a.start :: hs.flatMap a.successors).eraseDups) : a.numbering.order <+: hs :=
  Roster.explore_prefix (fun _ _ => lt_of_mem_successors hc)
    ((Roster.valid_blank _).enter a.start) (toList_enter_start hc) h

theorem discoveredAt_iff {h p j : Nat} :
    a.numbering.DiscoveredAt a.toDiagram h p j ↔
      ∃ q, p = q + 1 ∧ FirstListed a.successors a.numbering.order h q j := by
  have hv := a.valid_numbering
  have hfirst : ∀ s, (a.LeadsAt s j h ∧ ∀ k < j, ¬ a.LeadsAt s k h) ↔
      h ∈ a.successors s ∧ (a.successors s).idxOf h = j := by
    intro s
    rw [idxOf_eq_iff_first]
    simp only [hc.toCoherent.leadsAt_iff, ne_eq]
  constructor
  · intro ⟨⟨s, hs, hlead⟩, hleast⟩
    obtain ⟨q, rfl⟩ : ∃ q, p = q + 1 := ⟨_, ((Numbering.id?_eq_some_iff hv).mp hs).2.symm⟩
    refine ⟨q, rfl, ⟨s, (Numbering.id?_eq_succ_iff hv).mp hs, (hfirst s).mp hlead⟩, ?_⟩
    intro k hk t ht hmem
    obtain ⟨i, hi⟩ := (Diagram.exists_leadsAt_iff hc.toCoherent).mpr hmem
    exact hleast (k + 1) (by omega) t ((Numbering.id?_eq_succ_iff hv).mpr ht) i hi
  · rintro ⟨q, rfl, ⟨s, hs, hlead⟩, hleast⟩
    refine ⟨⟨s, (Numbering.id?_eq_succ_iff hv).mpr hs, (hfirst s).mpr hlead⟩, ?_⟩
    intro k hk t ht i hi
    obtain ⟨l, rfl⟩ : ∃ l, k = l + 1 := ⟨_, ((Numbering.id?_eq_some_iff hv).mp ht).2.symm⟩
    exact hleast l (by omega) t ((Numbering.id?_eq_succ_iff hv).mp ht)
      ((Diagram.exists_leadsAt_iff hc.toCoherent).mp ⟨i, hi⟩)

theorem id?_start : a.numbering.id? a.start = some 1 :=
  Numbering.id?_of_getElem? a.valid_numbering (getElem?_start hc)

/-- All but the start are listed by a state that is numbered. -/
theorem mem_flatMap_successors {h : Nat} (hh : h ∈ a.numbering.order) (hne : h ≠ a.start) :
    h ∈ a.numbering.order.flatMap a.successors := by
  rw [order_numbering hc, List.mem_eraseDups] at hh
  exact (List.mem_cons.mp hh).resolve_left hne

theorem exists_discoveredAt {h : Nat} (hh : h ∈ a.numbering.order) (hne : h ≠ a.start) :
    ∃ p j, a.numbering.DiscoveredAt a.toDiagram h p j := by
  obtain ⟨p, j, hfirst⟩ := exists_firstListed (mem_flatMap_successors hc hh hne)
  exact ⟨p + 1, j, (discoveredAt_iff hc).mpr ⟨p, rfl, hfirst⟩⟩

/-- Identifiers are given in the order in which states are discovered. -/
theorem id?_lt_iff {s t i i' p p' j j' : Nat} (hs : s ≠ a.start) (ht : t ≠ a.start)
    (hi : a.numbering.id? s = some i) (hi' : a.numbering.id? t = some i')
    (hp : a.numbering.DiscoveredAt a.toDiagram s p j)
    (hp' : a.numbering.DiscoveredAt a.toDiagram t p' j') :
    i < i' ↔ p < p' ∨ p = p' ∧ j < j' := by
  obtain ⟨hsmem, rfl⟩ := (Numbering.id?_eq_some_iff a.valid_numbering).mp hi
  obtain ⟨htmem, rfl⟩ := (Numbering.id?_eq_some_iff a.valid_numbering).mp hi'
  obtain ⟨q, rfl, hq⟩ := (discoveredAt_iff hc).mp hp
  obtain ⟨q', rfl, hq'⟩ := (discoveredAt_iff hc).mp hp'
  have horder := order_numbering hc
  have hslist := mem_flatMap_successors hc hsmem hs
  have htlist := mem_flatMap_successors hc htmem ht
  have hcons : a.numbering.order.idxOf s < a.numbering.order.idxOf t ↔
      (a.start :: a.numbering.order.flatMap a.successors).idxOf s <
        (a.start :: a.numbering.order.flatMap a.successors).idxOf t := by
    have hlt := idxOf_eraseDups_lt_iff (List.mem_cons_of_mem a.start hslist)
      (List.mem_cons_of_mem a.start htlist)
    rwa [← horder] at hlt
  rw [Nat.succ_lt_succ_iff, hcons, List.idxOf_cons_ne _ (Ne.symm hs),
    List.idxOf_cons_ne _ (Ne.symm ht), Nat.succ_lt_succ_iff, hq.idxOf_lt_iff hq', Nat.succ_inj,
    Nat.succ_lt_succ_iff]

theorem eq_start_of_le_one {s i : Nat} (hi : a.numbering.id? s = some i) (hle : i ≤ 1) :
    s = a.start := by
  have hv := a.valid_numbering
  obtain ⟨-, hpos⟩ := (Numbering.id?_eq_some_iff hv).mp hi
  obtain rfl : i = 1 := by omega
  exact Numbering.id?_injective hv hi (id?_start hc)

/-- Where some moves lead to a state, no more lead to a state with a smaller identifier. -/
theorem exists_steps_le {s t i j k : Nat} (hsteps : a.Steps a.start k t)
    (hi : a.numbering.id? s = some i) (hj : a.numbering.id? t = some j) (hij : i ≤ j) :
    ∃ l ≤ k, a.Steps a.start l s := by
  have hv := a.valid_numbering
  have hstart := id?_start hc
  induction hsteps generalizing s i j with
  | zero =>
    rw [hstart, Option.some.injEq] at hj
    obtain rfl := eq_start_of_le_one hc hi (by omega)
    exact ⟨0, Nat.le_refl 0, .zero⟩
  | @succ k u m hu hm ih =>
    by_cases hs : s = a.start
    · exact ⟨0, Nat.zero_le _, hs ▸ .zero⟩
    have ht : m.target ≠ a.start := by
      intro heq
      rw [heq, hstart, Option.some.injEq] at hj
      exact hs (eq_start_of_le_one hc hi (by omega))
    obtain ⟨r, hr⟩ := exists_id?_of_reaches hc (Diagram.reaches_iff_exists_steps.mpr ⟨k, hu⟩)
    obtain ⟨p, x, hp⟩ := exists_discoveredAt hc ((Numbering.id?_eq_some_iff hv).mp hi).1 hs
    obtain ⟨q, y, hq⟩ := exists_discoveredAt hc ((Numbering.id?_eq_some_iff hv).mp hj).1 ht
    obtain ⟨v, hpv, hlead, -⟩ := hp.first
    -- The state that discovers `s` is not behind that which discovers `t`, nor that behind `u`.
    have hpq : p ≤ q := by
      have hlt := id?_lt_iff hc ht hs hj hi hq hp
      omega
    have hqr : q ≤ r := by
      refine Nat.le_of_not_lt fun hrq => ?_
      obtain ⟨z, hz⟩ := (Diagram.exists_leadsAt_iff hc.toCoherent).mpr
        (Diagram.mem_successors.mpr ⟨m, hm, rfl⟩)
      exact hq.least r hrq u hr z hz
    obtain ⟨l, hl, hlv⟩ := ih hpv hr (by omega)
    exact ⟨l + 1, by omega, hlv.next hc.toCoherent hlead⟩

theorem size_numbering : a.numbering.size = {h | a.Reaches a.start h}.ncard := by
  have hset : {h | a.Reaches a.start h} = (a.numbering.order.toFinset : Set Nat) := by
    ext h
    rw [Set.mem_ofPred_eq, ← mem_order_numbering hc, Finset.mem_coe, List.mem_toFinset]
    exact Array.mem_toList_iff.symm
  have hnodup : a.numbering.order.Nodup := a.valid_numbering.nodup
  rw [hset, Set.ncard_coe_finset, List.toFinset_card_of_nodup hnodup]
  rfl

theorem exists_id?_iff {h : Nat} :
    (∃ i, a.numbering.id? h = some i) ↔ a.Reaches a.start h := by
  refine ⟨fun ⟨i, hi⟩ => ?_, exists_id?_of_reaches hc⟩
  rw [← mem_order_numbering hc, ← Array.mem_toList_iff]
  exact ((Numbering.id?_eq_some_iff a.valid_numbering).mp hi).1

end Automaton

/-- Whatever coherent automaton is numbered, its numbering is breadth first. -/
theorem numbering_breadthFirst {a : Automaton} (hc : a.Coherent) :
    a.numbering.BreadthFirst a where
  numbered_iff h := Automaton.exists_id?_iff hc
  identifier_iff i := by
    simp only [← Numbering.handle?_eq_some_iff a.valid_numbering]
    rw [← Option.isSome_iff_exists, ← Option.ne_none_iff_isSome, ne_eq,
      Numbering.handle?_eq_none_iff]
    omega
  size_eq := Automaton.size_numbering hc
  handle?_iff h i := Numbering.handle?_eq_some_iff a.valid_numbering
  handle?_eq_none i := Numbering.handle?_eq_none_iff.mpr
  id?_start := Automaton.id?_start hc
  exists_distance h := Diagram.exists_distance
  distance_le hi hj hij hs ht := by
    obtain ⟨l, hle, hl⟩ := Automaton.exists_steps_le hc ht.1 hi hj hij
    exact (hs.2 hl).trans hle
  exists_discoveredAt h hh hne :=
    Automaton.exists_discoveredAt hc
      (Array.mem_toList_iff.mpr ((Automaton.mem_order_numbering hc h).mpr hh)) hne
  lt_iff := Automaton.id?_lt_iff hc

/-- Five states, numbered from the third on: two ways lead to the second, one of them through two
moves to the first, and back to the start. The last leads there too, but nothing leads to it. -/
def Automaton.roundabout : Automaton where
  toDiagram := ((((({} : Diagram).addState {}).addState { isAccept := true }).addState {}).addState
    {}).addState {} |>.addMove 2 0 (.symbol 'a') |>.addMove 2 3 (.symbol 'b')
    |>.addMove 2 0 .epsilon |>.addMove 3 1 (.symbol 'a') |>.addMove 0 1 (.symbol 'b')
    |>.addMove 4 1 .epsilon |>.addMove 1 2 .epsilon
  start := 2
  accepting := [1]

theorem numbering_breadthFirst_roundabout :
    Automaton.roundabout.Coherent ∧
      Automaton.roundabout.numbering.BreadthFirst Automaton.roundabout ∧
      Automaton.roundabout.numbering.order = [2, 0, 3, 1] := by
  have hstates := ((((Diagram.consistent_empty.addState (s := {}) rfl rfl).addState
    (s := { isAccept := true }) rfl rfl).addState (s := {}) rfl rfl).addState (s := {}) rfl
      rfl).addState (s := {}) rfl rfl
  have hd : Automaton.roundabout.toDiagram.Consistent :=
    ((((((hstates.addMove (by decide) (by decide) _).addMove (by decide) (by decide) _).addMove
      (by decide) (by decide) _).addMove (by decide) (by decide) _).addMove (by decide) (by decide)
        _).addMove (by decide) (by decide) _).addMove (by decide) (by decide) _
  have hc : Automaton.roundabout.Coherent := ⟨hd.coherent, by decide⟩
  exact ⟨hc, numbering_breadthFirst hc, by cbv⟩

end PatternAutomata
