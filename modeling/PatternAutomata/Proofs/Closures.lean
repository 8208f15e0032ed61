/-
  The two closures under epsilon moves are one. Behind the states that were taken
  from it, the queue holds what the moves of the states met lead to, so these name
  themselves as the order of an exploration does (`Visit.Sound.states_eq`), and the
  queue empties because each state is met once. The scan is an exploration with
  marks for places (`Roster.scan`). So both give the states in the order in which
  breadth-first search enters them.
-/
import Mathlib.Data.List.Sort
import PatternAutomata.Dfa.Closures
import PatternAutomata.Proofs.BreadthFirst
import PatternAutomata.Proofs.Simulation

namespace PatternAutomata

/-! ## Marking what is taken -/

namespace Visit

variable {d : Diagram} {num : Numbering} {n h : Nat} {seeds taken waiting : List Nat}
  {v w w' : Visit}

theorem Drains.unique (hw : Drains d num v w) (hw' : Drains d num v w') : w = w' := by
  induction hw with
  | done hnil =>
    cases hw' with
    | done _ => rfl
    | more hcons _ =>
      rw [hnil] at hcons
      cases hcons
  | more hcons _ ih =>
    cases hw' with
    | done hnil =>
      rw [hnil] at hcons
      cases hcons
    | more hcons' hw' =>
      rw [hcons] at hcons'
      obtain ⟨rfl, rfl⟩ := List.cons.inj hcons'
      exact ih hw'

/-- When `taken` has been taken from the queue, what was met is what was taken for the first time,
and what was taken or waits is what was there from the start and what was found since. -/
structure Sound (d : Diagram) (num : Numbering) (seeds taken : List Nat) (v : Visit) : Prop where
  states : v.states = taken.eraseDups
  queue : taken ++ v.waiting = seeds ++ v.states.flatMap (d.follow · .epsilon)
  visited : ∀ i, i ∈ v.visited ↔ ∃ t ∈ v.states, num.id? t = some i
  nodup : v.states.Nodup
  found : ∀ t ∈ taken ++ v.waiting, ∃ s ∈ seeds, d.Path s [] t

theorem sound_initial (d : Diagram) (num : Numbering) (seeds : List Nat) :
    Sound d num seeds [] { waiting := seeds } where
  states := rfl
  queue := (List.append_nil seeds).symm
  visited i := by simp
  nodup := List.nodup_nil
  found t ht := ⟨t, ht, .nil t⟩

theorem Sound.mem_states (hs : Sound d num seeds taken v) {t : Nat} :
    t ∈ v.states ↔ t ∈ taken := by
  rw [hs.states, List.mem_eraseDups]

theorem Sound.found_of_mem (hs : Sound d num seeds taken v) {t : Nat} (ht : t ∈ v.states) :
    ∃ s ∈ seeds, d.Path s [] t :=
  hs.found t (List.mem_append_left _ (hs.mem_states.mp ht))

/-- Identifiers tell states apart, so that of a state is noted exactly if the state was met. -/
theorem Sound.mem_visited_iff (hs : Sound d num seeds taken v) (hv : Roster.Valid n num.roster)
    {i : Nat} (hi : num.id? h = some i) : i ∈ v.visited ↔ h ∈ taken := by
  rw [hs.visited, ← hs.mem_states]
  constructor
  · intro ⟨t, ht, hti⟩
    rwa [Numbering.id?_injective hv hi hti]
  · intro hmem
    exact ⟨h, hmem, hi⟩

/-- A state with an identifier is passed over or met. -/
theorem take_cases {i : Nat} (hi : num.id? h = some i) :
    (i ∈ v.visited ∧ take d num v h = v) ∨
      (i ∉ v.visited ∧ take d num v h =
        { states := v.states ++ [h]
          visited := v.visited.insert i
          waiting := v.waiting ++ d.follow h .epsilon }) := by
  unfold take
  rw [hi]
  by_cases hmem : i ∈ v.visited
  · exact Or.inl ⟨hmem, if_pos hmem⟩
  · exact Or.inr ⟨hmem, if_neg hmem⟩

/-- A state that was met before is passed over. -/
theorem Sound.pass (hs : Sound d num seeds taken v) (hw : v.waiting = h :: waiting)
    (hmem : h ∈ taken) : Sound d num seeds (taken ++ [h]) { v with waiting } where
  states := by
    rw [eraseDups_concat, if_pos hmem]
    exact hs.states
  queue := by
    rw [List.append_assoc, List.singleton_append, ← hw]
    exact hs.queue
  visited := hs.visited
  nodup := hs.nodup
  found := by
    rw [List.append_assoc, List.singleton_append, ← hw]
    exact hs.found

/-- A state that was not met before is met, and what its moves lead to waits behind all others. -/
theorem Sound.meet (hs : Sound d num seeds taken v) (hw : v.waiting = h :: waiting)
    (hnew : h ∉ taken) {i : Nat} (hi : num.id? h = some i) :
    Sound d num seeds (taken ++ [h])
      { states := v.states ++ [h]
        visited := v.visited.insert i
        waiting := waiting ++ d.follow h .epsilon } where
  states := by rw [eraseDups_concat, if_neg hnew, ← hs.states]
  queue := by
    have hqueue : taken ++ h :: waiting = seeds ++ v.states.flatMap (d.follow · .epsilon) := by
      rw [← hw]
      exact hs.queue
    rw [← List.append_assoc, List.append_assoc taken, List.singleton_append, hqueue,
      List.flatMap_append, List.flatMap_singleton, List.append_assoc]
  visited j := by
    rw [Std.TreeSet.mem_insert, hs.visited]
    simp [or_and_right, exists_or, hi, or_comm]
  nodup := by
    rw [← List.concat_eq_append]
    exact hs.nodup.concat (mt hs.mem_states.mp hnew)
  found t ht := by
    have hfound : ∀ t ∈ taken ++ h :: waiting, ∃ s ∈ seeds, d.Path s [] t := hw ▸ hs.found
    rw [← List.append_assoc, List.append_assoc taken, List.singleton_append, List.mem_append] at ht
    rcases ht with ht | ht
    · exact hfound t ht
    · obtain ⟨s, hmem, hsh⟩ := hfound h (by simp)
      exact ⟨s, hmem, Diagram.path_nil_iff.mpr ((Diagram.path_nil_iff.mp hsh).tail ht)⟩

section Numbered

variable (hv : Roster.Valid n num.roster)
  (hnum : ∀ t, (∃ s ∈ seeds, d.Path s [] t) → ∃ i, num.id? t = some i)
include hv hnum

/-- The first state of the queue has an identifier, so it is passed over or met. -/
theorem Sound.take (hs : Sound d num seeds taken v) (hw : v.waiting = h :: waiting) :
    Sound d num seeds (taken ++ [h]) (take d num { v with waiting } h) := by
  obtain ⟨i, hi⟩ := hnum h (hs.found h (by simp [hw]))
  rcases take_cases (d := d) (v := { v with waiting }) hi with ⟨hmem, heq⟩ | ⟨hmem, heq⟩
  · rw [heq]
    exact hs.pass hw ((hs.mem_visited_iff hv hi).mp hmem)
  · rw [heq]
    exact hs.meet hw (mt (hs.mem_visited_iff hv hi).mpr hmem) hi

/-- No more states are met than there are identifiers. -/
theorem Sound.length_le (hs : Sound d num seeds taken v) : v.states.length ≤ num.size := by
  have hsub : v.states ⊆ num.order := by
    intro t ht
    obtain ⟨i, hi⟩ := hnum t (hs.found_of_mem ht)
    exact ((Numbering.id?_eq_some_iff hv).mp hi).1
  have hlen := (List.subperm_of_subset hs.nodup hsub).length_le
  rwa [Numbering.order, Array.length_toList] at hlen

/-- Taking a state makes one less that waits, or one more that was met. -/
theorem Sound.take_lt (hs : Sound d num seeds taken v) (hw : v.waiting = h :: waiting) :
    Prod.Lex (· < ·) (· < ·)
      (num.size - (Visit.take d num { v with waiting } h).states.length,
        (Visit.take d num { v with waiting } h).waiting.length)
      (num.size - v.states.length, v.waiting.length) := by
  have hle := (hs.take hv hnum hw).length_le hv hnum
  obtain ⟨i, hi⟩ := hnum h (hs.found h (by simp [hw]))
  rcases take_cases (d := d) (v := { v with waiting }) hi with ⟨-, heq⟩ | ⟨-, heq⟩
  · rw [heq, hw]
    exact Prod.Lex.right _ (Nat.lt_succ_self _)
  · rw [heq] at hle ⊢
    refine Prod.Lex.left _ _ ?_
    simp only [List.length_append, List.length_singleton] at hle ⊢
    omega

/-- So the queue is empty in the end. -/
theorem Sound.exists_drains {taken : List Nat} {v : Visit} (hs : Sound d num seeds taken v) :
    ∃ taken' w, Drains d num v w ∧ w.waiting = [] ∧ Sound d num seeds taken' w := by
  match hw : v.waiting with
  | [] => exact ⟨taken, v, .done hw, hw, hs⟩
  | h :: waiting =>
    obtain ⟨taken', w, hd, hempty, hsound⟩ := (hs.take hv hnum hw).exists_drains
    exact ⟨taken', w, .more hw hd, hempty, hsound⟩
termination_by (num.size - v.states.length, v.waiting.length)
decreasing_by exact hs.take_lt hv hnum hw

end Numbered

/-- Once the queue is empty, the states met are those that they and the seeds name, in the order in
which each is named for the first time. -/
theorem Sound.states_eq (hs : Sound d num seeds taken v) (hw : v.waiting = []) :
    v.states = (seeds ++ v.states.flatMap (d.follow · .epsilon)).eraseDups := by
  rw [← hs.queue, hw, List.append_nil]
  exact hs.states

theorem Sound.members_eq (hs : Sound d num seeds taken v) (hw : v.waiting = [])
    (hc : d.Coherent) (hlt : ∀ s ∈ seeds, s < d.states.size) :
    v.states = (d.configuration num seeds).members := by
  have hblank := Roster.valid_blank d.states.size
  have hfront : (d.configuration num seeds).members <+: v.states :=
    Roster.explore_prefix (fun _ _ => hc.follow_lt) (hblank.enterAll seeds)
      (Roster.order_enterAll (l := []) hblank rfl hlt) (hs.states_eq hw)
  have hsub : v.states ⊆ (d.configuration num seeds).members :=
    fun t ht => (Diagram.mem_members hc hlt t).mpr (hs.found_of_mem ht)
  exact (hfront.eq_of_length_le (List.subperm_of_subset hs.nodup hsub).length_le).symm

theorem pairwise_visited (v : Visit) : v.visited.toList.Pairwise (· < ·) :=
  Std.TreeSet.ordered_toList.imp Nat.compare_eq_lt.mp

/-- What is met, and the identifiers noted, are the configuration of the seeds. -/
theorem Sound.configuration_eq (hs : Sound d num seeds taken v) (hw : v.waiting = [])
    (hv : Roster.Valid n num.roster) (hc : d.Coherent) (hlt : ∀ s ∈ seeds, s < d.states.size) :
    v.configuration = d.configuration num seeds := by
  have hmembers := hs.members_eq hw hc hlt
  have hkey : v.visited.toList = (d.configuration num seeds).key := by
    refine (pairwise_visited v).eq_of_mem_iff (Diagram.pairwise_key d num seeds) fun i => ?_
    rw [Std.TreeSet.mem_toList, hs.visited, Diagram.mem_key, hmembers]
    simp only [Numbering.handle?_eq_some_iff hv, and_comm]
  exact congrArg₂ Configuration.mk hmembers hkey

end Visit

/-- Where all that is found has an identifier, the queue gives the configuration, and only that. -/
theorem Diagram.visits_iff {d : Diagram} {num : Numbering} {n : Nat} {seeds : List Nat}
    (hc : d.Coherent) (hv : Roster.Valid n num.roster) (hlt : ∀ s ∈ seeds, s < d.states.size)
    (hnum : ∀ t, (∃ s ∈ seeds, d.Path s [] t) → ∃ i, num.id? t = some i) {k : Configuration} :
    d.Visits num seeds k ↔ k = d.configuration num seeds := by
  obtain ⟨taken, v, hd, hw, hs⟩ := (Visit.sound_initial d num seeds).exists_drains hv hnum
  have heq := hs.configuration_eq hw hv hc hlt
  constructor
  · rintro ⟨w, hw, rfl⟩
    rw [hw.unique hd, heq]
  · rintro rfl
    exact ⟨v, hd, heq⟩

/-! ## Marking what is found -/

theorem put?_of_lt {α : Type} {xs : Array α} {i : Nat} (hi : i < xs.size) (x : α) :
    put? xs i x = some (xs.setIfInBounds i x) :=
  if_pos hi

namespace Roster

variable {r : Roster} {d : Diagram} {h i : Nat} {hs : List Nat}

@[simp] theorem size_places_enter (r : Roster) (h : Nat) :
    (r.enter h).places.size = r.places.size := by
  unfold enter
  split
  · exact Array.size_setIfInBounds
  · rfl

@[simp] theorem size_places_enterAll (r : Roster) (hs : List Nat) :
    (r.enterAll hs).places.size = r.places.size := by
  induction hs generalizing r with
  | nil => rfl
  | cons h hs ih => exact (ih (r.enter h)).trans (size_places_enter r h)

/-- The record of marks of a roster: what has a place is marked. -/
def marks (r : Roster) : Array Bool := r.places.map Option.isSome

/-- The scan with the states and the marks of a roster. -/
def scan (r : Roster) : Scan := { states := r.order, seen := r.marks }

/-- Entering a handle that is in range appends and marks it if it is not marked. -/
theorem enter_eq_of_lt (hlt : h < r.places.size) :
    (r.marks[h]? = some true ∧ r.enter h = r) ∨
      (r.marks[h]? = some false ∧ (r.enter h).order = r.order.push h ∧
        (r.enter h).marks = r.marks.setIfInBounds h true) := by
  unfold enter marks
  rw [Array.getElem?_map, Array.getElem?_eq_getElem hlt]
  cases r.places[h] with
  | none => exact Or.inr ⟨rfl, rfl, Array.map_setIfInBounds⟩
  | some i => exact Or.inl ⟨rfl, rfl⟩

theorem add?_scan (hlt : h < r.places.size) : r.scan.add? h = some (r.enter h).scan := by
  have hsize : h < r.marks.size := by simpa [marks] using hlt
  unfold Scan.add? scan
  rcases enter_eq_of_lt hlt with ⟨hmark, heq⟩ | ⟨hmark, horder, hmarks⟩
  · simp [hmark, heq]
  · simp [hmark, horder, hmarks, put?_of_lt hsize]

theorem foldlM_add?_scan (hlt : ∀ h ∈ hs, h < r.places.size) :
    hs.foldlM Scan.add? r.scan = some (r.enterAll hs).scan := by
  induction hs generalizing r with
  | nil => rfl
  | cons h hs ih =>
    obtain ⟨hh, hhs⟩ := List.forall_mem_cons.mp hlt
    rw [List.foldlM_cons, add?_scan hh]
    exact ih (by simpa using hhs)

/-- Reading the list on is exploring the roster. -/
theorem reads_scan (hnext : ∀ x, ∀ y ∈ d.follow x .epsilon, y < r.places.size) :
    Scan.Reads d i r.scan (r.explore (d.follow · .epsilon) i).scan := by
  fun_induction explore (d.follow · .epsilon) r i with
  | case1 r i hi ih =>
    refine .more (Array.getElem?_eq_getElem hi) (foldlM_add?_scan (hnext _)) (ih ?_)
    simpa using hnext
  | case2 r i hi => exact .done (Nat.le_of_not_lt hi)

theorem foldlM_put?_false {places : Array (Option Nat)} (hlt : ∀ h ∈ hs, h < places.size) :
    hs.foldlM (fun seen h => put? seen h false) (places.map Option.isSome) =
      some ((hs.foldl (fun places h => places.setIfInBounds h none) places).map Option.isSome) := by
  induction hs generalizing places with
  | nil => rfl
  | cons h hs ih =>
    obtain ⟨hh, hhs⟩ := List.forall_mem_cons.mp hlt
    have hin : ∀ k ∈ hs, k < (places.setIfInBounds h none).size := by simpa using hhs
    have hnext := ih hin
    rw [Array.map_setIfInBounds] at hnext
    rw [List.foldlM_cons, put?_of_lt (by simpa using hh)]
    exact hnext

/-- Taking out the marks of the list is clearing the roster. -/
theorem clear?_scan (hlt : ∀ h ∈ r.order, h < r.places.size) :
    r.scan.clear? = some (r.clear.map Option.isSome) := by
  unfold Scan.clear? clear
  rw [← Array.foldlM_toList, ← Array.foldl_toList]
  exact foldlM_put?_false (by simpa [scan] using hlt)

/-- The first places of a list hold the states of the roster, and those from place `i` on what they
held in the beginning. -/
structure PackedUpTo (r : Roster) (seeds : List Nat) (i : Nat) (p : Packing) : Prop where
  kept : p.kept = r.order.size
  kept_le : p.kept ≤ i
  size : p.states.size = seeds.length
  before : ∀ j < p.kept, p.states[j]? = r.order[j]?
  behind : ∀ j, i ≤ j → p.states[j]? = seeds[j]?
  seen : p.seen = r.marks

variable {p : Packing} {seeds : List Nat}

/-- Keeping the next state overwrites what has been read. -/
theorem PackedUpTo.write (hp : PackedUpTo r seeds i p) (hi : i < seeds.length) {s : Roster}
    (horder : s.order = r.order.push h) :
    PackedUpTo s seeds (i + 1)
      { states := p.states.setIfInBounds p.kept h, seen := s.marks, kept := p.kept + 1 } where
  kept := by rw [horder, Array.size_push, hp.kept]
  kept_le := Nat.succ_le_succ hp.kept_le
  size := Array.size_setIfInBounds.trans hp.size
  before j hj := by
    have hlast : p.kept < p.states.size := hp.size ▸ Nat.lt_of_le_of_lt hp.kept_le hi
    rw [horder, Array.getElem?_setIfInBounds, Array.getElem?_push, ← hp.kept]
    by_cases hj' : j = p.kept
    · simp [hj', hlast]
    · rw [if_neg (Ne.symm hj'), if_neg hj']
      exact hp.before j (by dsimp only at hj; omega)
  behind j hj := by
    have hle := hp.kept_le
    rw [Array.getElem?_setIfInBounds, if_neg (by omega)]
    exact hp.behind j (by omega)
  seen := rfl

/-- The next state is kept if it enters the roster. -/
theorem PackedUpTo.keep? (hp : PackedUpTo r seeds i p) (hi : seeds[i]? = some h)
    (hlt : h < r.places.size) :
    ∃ q, p.keep? i = some q ∧ PackedUpTo (r.enter h) seeds (i + 1) q := by
  have hread := (hp.behind i (Nat.le_refl i)).trans hi
  obtain ⟨hil, -⟩ := List.getElem?_eq_some_iff.mp hi
  have hlast : p.kept < p.states.size := hp.size ▸ Nat.lt_of_le_of_lt hp.kept_le hil
  have hmarked : h < r.marks.size := by simpa [marks] using hlt
  unfold Packing.keep?
  rcases enter_eq_of_lt hlt with ⟨hmark, heq⟩ | ⟨hmark, horder, hmarks⟩
  · refine ⟨p, by simp [hread, hp.seen, hmark], ?_⟩
    rw [heq]
    exact { hp with
      kept_le := Nat.le_succ_of_le hp.kept_le
      behind := fun j hj => hp.behind j (Nat.le_of_succ_le hj) }
  · refine ⟨_, ?_, hp.write hil horder⟩
    simp [hread, hp.seen, hmark, hmarks, put?_of_lt hmarked, put?_of_lt hlast]

theorem exists_packedUpTo (hr : r.order = #[]) (hlt : ∀ h ∈ seeds, h < r.places.size)
    (hi : i ≤ seeds.length) :
    ∃ p, (List.range i).foldlM Packing.keep? { states := seeds.toArray, seen := r.marks } =
        some p ∧ PackedUpTo (r.enterAll (seeds.take i)) seeds i p := by
  induction i with
  | zero =>
    refine ⟨_, rfl, ?_⟩
    rw [List.take_zero]
    exact ⟨by simp [enterAll, hr], Nat.le_refl 0, rfl, fun j hj => absurd hj (Nat.not_lt_zero j),
      fun j _ => List.getElem?_toArray, rfl⟩
  | succ i ih =>
    obtain ⟨p, hfold, hp⟩ := ih (Nat.le_of_succ_le hi)
    have hread : seeds[i]? = some seeds[i] := List.getElem?_eq_getElem hi
    obtain ⟨q, hq, hpacked⟩ := hp.keep? hread (by simpa using hlt _ (List.getElem_mem hi))
    refine ⟨q, by rw [List.range_succ, List.foldlM_append, hfold]; simpa using hq, ?_⟩
    have hstep : (r.enterAll (seeds.take i)).enter seeds[i] = r.enterAll (seeds.take (i + 1)) := by
      rw [List.take_succ_eq_append_getElem hi, enterAll, enterAll, List.foldl_append]
      rfl
    rwa [hstep] at hpacked

/-- Dropping repetitions is entering all states of the list. -/
theorem pack?_eq (hr : r.order = #[]) (hlt : ∀ h ∈ seeds, h < r.places.size) :
    Scan.pack? { states := seeds.toArray, seen := r.marks } = some (r.enterAll seeds).scan := by
  obtain ⟨p, hfold, hp⟩ := exists_packedUpTo hr hlt (Nat.le_refl seeds.length)
  rw [List.take_length] at hp
  have hstates : p.states.take p.kept = (r.enterAll seeds).order := by
    apply Array.ext_getElem?
    intro j
    have hle := hp.kept_le
    have hsize := hp.size
    rw [Array.take_eq_extract, Array.getElem?_extract, Nat.zero_add]
    split
    · exact hp.before j (by omega)
    · rw [Array.getElem?_eq_none]
      have := hp.kept
      omega
  unfold Scan.pack?
  simp only [List.size_toArray, hfold]
  exact congrArg some (congrArg₂ Scan.mk hstates hp.seen)

end Roster

theorem Scan.Reads.unique {d : Diagram} {i : Nat} {s t t' : Scan} (h : Scan.Reads d i s t)
    (h' : Scan.Reads d i s t') : t = t' := by
  induction h with
  | done hle =>
    cases h' with
    | done _ => rfl
    | more hread _ _ =>
      rw [Array.getElem?_eq_none hle] at hread
      cases hread
  | more hread hfold _ ih =>
    cases h' with
    | done hle =>
      rw [Array.getElem?_eq_none hle] at hread
      cases hread
    | more hread' hfold' h' =>
      rw [hread, Option.some.injEq] at hread'
      subst hread'
      rw [hfold, Option.some.injEq] at hfold'
      subst hfold'
      exact ih h'

namespace Diagram

variable {d : Diagram} {seeds states states' : List Nat} {seen after after' : Array Bool}

theorem Scans.unique (h : d.Scans seen seeds states after) (h' : d.Scans seen seeds states' after') :
    states = states' ∧ after = after' := by
  obtain ⟨s, t, hpack, hread, rfl, hclear⟩ := h
  obtain ⟨s', t', hpack', hread', rfl, hclear'⟩ := h'
  obtain rfl := Option.some.inj (hpack.symm.trans hpack')
  obtain rfl := hread.unique hread'
  exact ⟨rfl, Option.some.inj (hclear.symm.trans hclear')⟩

theorem marks_blank (n : Nat) : (Roster.blank n).marks = Array.replicate n false := by
  simp [Roster.marks, Roster.blank]

/-- With nothing marked, the list ends with the closure, and nothing is marked in the end. -/
theorem scans (hc : d.Coherent) (hlt : ∀ s ∈ seeds, s < d.states.size) (num : Numbering) :
    d.Scans (Array.replicate d.states.size false) seeds (d.configuration num seeds).members
      (Array.replicate d.states.size false) := by
  have hv := valid_enterClosure d seeds
  have hsize : (Roster.blank d.states.size).places.size = d.states.size := by simp [Roster.blank]
  have hread : Scan.Reads d 0 ((Roster.blank d.states.size).enterAll seeds).scan
      (d.enterClosure (Roster.blank d.states.size) seeds).scan :=
    Roster.reads_scan fun x y hy => by simpa [hsize] using hc.follow_lt hy
  refine ⟨_, _, ?_, hread, rfl, ?_⟩
  · rw [← marks_blank]
    exact Roster.pack?_eq rfl (by simpa [hsize] using hlt)
  · have hin : ∀ h ∈ (d.enterClosure (Roster.blank d.states.size) seeds).order,
        h < (d.enterClosure (Roster.blank d.states.size) seeds).places.size := by
      intro h hh
      rw [hv.size_places]
      exact hv.lt hh
    rw [Roster.clear?_scan hin, Roster.clear_eq hv]
    simp

theorem scans_iff (hc : d.Coherent) (hlt : ∀ s ∈ seeds, s < d.states.size) {num : Numbering} :
    d.Scans (Array.replicate d.states.size false) seeds states after ↔
      states = (d.configuration num seeds).members ∧
        after = Array.replicate d.states.size false := by
  have hscans := scans hc hlt num
  constructor
  · intro h
    exact h.unique hscans
  · rintro ⟨rfl, rfl⟩
    exact hscans

/-- Both loops end, and only with the configuration: the queue gives it, and the scan its states, in
one order, with no mark left; simulation closes `seeds` to the same states. They are what epsilon
moves lead to, none twice, and the key lists their identifiers in ascending order. -/
structure ClosesTo (d : Diagram) (num : Numbering) (seeds : List Nat) (k : Configuration) :
    Prop where
  visits_iff : ∀ k', d.Visits num seeds k' ↔ k' = k
  scans_iff : ∀ states after, d.Scans (Array.replicate d.states.size false) seeds states after ↔
    states = k.members ∧ after = Array.replicate d.states.size false
  closeWith_eq : d.closeWith (Array.replicate d.states.size none) seeds =
    (k.members, Array.replicate d.states.size none)
  nodup : k.members.Nodup
  mem_iff : ∀ t, t ∈ k.members ↔ ∃ s ∈ seeds, d.Path s [] t
  pairwise_key : k.key.Pairwise (· < ·)
  perm_key : (k.key.map some).Perm (k.members.map num.id?)

end Diagram

/-- The key lists the identifiers of the members, and leaves none out where all have one. -/
theorem Diagram.perm_key {d : Diagram} {num : Numbering} {n : Nat} {seeds : List Nat}
    (hv : Roster.Valid n num.roster)
    (hnum : ∀ t ∈ (d.configuration num seeds).members, ∃ i, num.id? t = some i) :
    ((d.configuration num seeds).key.map some).Perm
      ((d.configuration num seeds).members.map num.id?) := by
  have hdistinct : (d.configuration num seeds).key.Nodup :=
    (pairwise_key d num seeds).imp Nat.ne_of_lt
  have hkey := hdistinct.map (Option.some_injective Nat)
  have hids : ((d.configuration num seeds).members.map num.id?).Nodup := by
    refine (valid_enterClosure d seeds).nodup.map_on fun s hs t _ h => ?_
    obtain ⟨i, hi⟩ := hnum s hs
    exact Numbering.id?_injective hv hi (h ▸ hi)
  rw [List.perm_ext_iff_of_nodup hkey hids]
  intro x
  rw [List.mem_map, List.mem_map]
  constructor
  · rintro ⟨i, hi, rfl⟩
    obtain ⟨t, hti, ht⟩ := mem_key.mp hi
    exact ⟨t, ht, (Numbering.handle?_eq_some_iff hv).mp hti⟩
  · rintro ⟨t, ht, rfl⟩
    obtain ⟨i, hi⟩ := hnum t ht
    exact ⟨i, mem_key.mpr ⟨t, (Numbering.handle?_eq_some_iff hv).mpr hi, ht⟩, hi.symm⟩

/-- Whatever states that can be reached are closed, marking them when they are taken or when they
are found makes no difference. -/
theorem closures_agree {a : Automaton} (hc : a.Coherent) {seeds : List Nat}
    (hs : ∀ s ∈ seeds, a.Reaches a.start s) :
    a.ClosesTo a.numbering seeds (a.configuration a.numbering seeds) := by
  have hlt : ∀ s ∈ seeds, s < a.states.size := by
    intro s hmem
    obtain ⟨w, hw⟩ := hs s hmem
    exact hw.lt hc.toCoherent hc.start_lt
  have hnum : ∀ t, (∃ s ∈ seeds, a.Path s [] t) → ∃ i, a.numbering.id? t = some i := by
    intro t ⟨s, hmem, hst⟩
    exact Automaton.exists_id?_of_reaches hc ((hs s hmem).trans ⟨[], hst⟩)
  have hmem : ∀ t, t ∈ (a.configuration a.numbering seeds).members ↔ ∃ s ∈ seeds, a.Path s [] t :=
    Diagram.mem_members hc.toCoherent hlt
  obtain ⟨active, hclose, -, -⟩ := Diagram.closeWith_blank hc.toCoherent hlt
  exact
    { visits_iff := fun k => Diagram.visits_iff hc.toCoherent a.valid_numbering hlt hnum
      scans_iff := fun states after => Diagram.scans_iff hc.toCoherent hlt
      closeWith_eq := by
        have hmembers : (a.configuration a.numbering seeds).members = active :=
          congrArg Prod.fst hclose
        rw [hclose, hmembers]
      nodup := (Diagram.valid_enterClosure a.toDiagram seeds).nodup
      mem_iff := hmem
      pairwise_key := Diagram.pairwise_key a.toDiagram a.numbering seeds
      perm_key := Diagram.perm_key a.valid_numbering fun t ht => hnum t ((hmem t).mp ht) }

/-- Three states in a circle of epsilon moves, and a start from which two moves lead into it. -/
def Automaton.circle : Automaton where
  toDiagram := (((({} : Diagram).addState {}).addState {}).addState { isAccept := true }).addState
    { isStart := true } |>.addMove 3 0 .epsilon |>.addMove 3 1 (.symbol 'a')
    |>.addMove 1 2 .epsilon |>.addMove 2 0 .epsilon |>.addMove 0 1 .epsilon
  start := 3
  accepting := [2]

/-- A state that comes twice; what is found last in the circle has the smallest identifier in it. -/
theorem closures_agree_circle :
    Automaton.circle.Coherent ∧
      (∀ s ∈ [1, 1], Automaton.circle.Reaches Automaton.circle.start s) ∧
      Automaton.circle.ClosesTo Automaton.circle.numbering [1, 1]
        { members := [1, 2, 0], key := [2, 3, 4] } := by
  have hstates := (((Diagram.consistent_empty.addState (s := {}) rfl rfl).addState (s := {}) rfl
    rfl).addState (s := { isAccept := true }) rfl rfl).addState (s := { isStart := true }) rfl rfl
  have hd : Automaton.circle.toDiagram.Consistent :=
    ((((hstates.addMove (by decide) (by decide) _).addMove (by decide) (by decide) _).addMove
      (by decide) (by decide) _).addMove (by decide) (by decide) _).addMove
        (by decide) (by decide) _
  have hc : Automaton.circle.Coherent := ⟨hd.coherent, by decide⟩
  have hs : ∀ s ∈ [1, 1], Automaton.circle.Reaches Automaton.circle.start s := by
    have hmove : ⟨3, 1, .symbol 'a'⟩ ∈ Automaton.circle.movesFrom Automaton.circle.start := by
      decide
    simpa using Diagram.Reaches.single hmove
  have hnum : Automaton.circle.numbering =
      ⟨⟨#[3, 0, 1, 2], #[some 1, some 2, some 3, some 0]⟩⟩ := by cbv
  have hclosure : Automaton.circle.enterClosure (Roster.blank Automaton.circle.states.size) [1, 1] =
      ⟨#[1, 2, 0], #[some 2, some 0, some 1, none]⟩ := by cbv
  have hk : Automaton.circle.configuration Automaton.circle.numbering [1, 1] =
      { members := [1, 2, 0], key := [2, 3, 4] } := by
    unfold Diagram.configuration
    rw [hnum, hclosure]
    rfl
  exact ⟨hc, hs, hk ▸ closures_agree hc hs⟩

end PatternAutomata
