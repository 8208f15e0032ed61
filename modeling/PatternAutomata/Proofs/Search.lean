/-
  Rosters hold what they say, and exploring one is breadth-first search. In a
  valid roster the record of places and the order of entry say the same
  (`Valid`). Entering a handle appends it or changes nothing, so the roster only
  grows at its end. Exploring from the first place on ends with exactly the
  handles that links lead to from those entered before (`mem_explore`).
-/
import Mathlib.Data.List.Nodup
import Mathlib.Logic.Relation
import PatternAutomata.Automaton.Roster

namespace PatternAutomata

namespace Roster

/-- The roster is for `n` handles, and each handle stands in the place that the record gives it. -/
structure Valid (n : Nat) (r : Roster) : Prop where
  size_places : r.places.size = n
  place?_iff : ∀ h i, r.place? h = some i ↔ r.order[i]? = some h

section Valid

variable {n : Nat} {r : Roster}

theorem Valid.contains_iff (hv : Valid n r) (h : Nat) : r.contains h = true ↔ h ∈ r.order := by
  unfold contains
  rw [Option.isSome_iff_exists, Array.mem_iff_getElem?]
  simp only [hv.place?_iff]

theorem Valid.lt (hv : Valid n r) {h : Nat} (hh : h ∈ r.order) : h < n := by
  obtain ⟨i, hi⟩ := Array.mem_iff_getElem?.mp hh
  have hplace := (hv.place?_iff h i).mpr hi
  rw [← hv.size_places]
  by_contra hge
  unfold place? at hplace
  rw [Array.getElem?_eq_none (Nat.le_of_not_lt hge)] at hplace
  cases hplace

/-- No handle stands in two places. -/
theorem Valid.nodup (hv : Valid n r) : r.order.toList.Nodup := by
  rw [List.nodup_iff_injective_getElem]
  intro i j hij
  have hi := (hv.place?_iff r.order.toList[i] i).mpr (by simp)
  have hj := (hv.place?_iff r.order.toList[j] j).mpr (by simp)
  change r.order.toList[i] = r.order.toList[j] at hij
  rw [hij, hj] at hi
  exact Fin.ext (Option.some.inj hi).symm

theorem valid_blank (n : Nat) : Valid n (blank n) where
  size_places := by simp [blank]
  place?_iff h i := by
    simp only [blank, place?, Array.getElem?_replicate]
    split
    · simp
    · simp

/-! ## Entering -/

theorem enter_of_mem (hv : Valid n r) {h : Nat} (hh : h ∈ r.order) : r.enter h = r := by
  obtain ⟨i, hi⟩ := Array.mem_iff_getElem?.mp hh
  have hplace := (hv.place?_iff h i).mpr hi
  unfold place? at hplace
  rw [Option.join_eq_some_iff] at hplace
  unfold enter
  rw [hplace]

theorem enter_of_le (hv : Valid n r) {h : Nat} (hh : n ≤ h) : r.enter h = r := by
  unfold enter
  rw [Array.getElem?_eq_none (by rw [hv.size_places]; exact hh)]

theorem enter_of_new (hv : Valid n r) {h : Nat} (hlt : h < n) (hh : h ∉ r.order) :
    r.enter h =
      { order := r.order.push h, places := r.places.setIfInBounds h (some r.order.size) } := by
  have hlt' : h < r.places.size := by rw [hv.size_places]; exact hlt
  have hplace : r.places[h]? = some none := by
    rw [Array.getElem?_eq_getElem hlt']
    cases hp : r.places[h] with
    | none => rfl
    | some i =>
      have hi : r.place? h = some i := by rw [place?, Array.getElem?_eq_getElem hlt', hp]; rfl
      exact absurd (Array.mem_iff_getElem?.mpr ⟨i, (hv.place?_iff h i).mp hi⟩) hh
  unfold enter
  rw [hplace]

/-- An entry leaves the roster as it is or puts the handle at the end. -/
theorem enter_cases (hv : Valid n r) (h : Nat) :
    (r.enter h = r ∧ (h < n → h ∈ r.order)) ∨
      (h < n ∧ h ∉ r.order ∧ r.enter h =
        { order := r.order.push h, places := r.places.setIfInBounds h (some r.order.size) }) := by
  by_cases hmem : h ∈ r.order
  · exact Or.inl ⟨enter_of_mem hv hmem, fun _ => hmem⟩
  · by_cases hlt : h < n
    · exact Or.inr ⟨hlt, hmem, enter_of_new hv hlt hmem⟩
    · exact Or.inl ⟨enter_of_le hv (Nat.le_of_not_lt hlt), fun h => absurd h hlt⟩

theorem Valid.enter (hv : Valid n r) (h : Nat) : Valid n (r.enter h) := by
  rcases enter_cases hv h with ⟨heq, -⟩ | ⟨hlt, hmem, heq⟩
  · rw [heq]
    exact hv
  rw [heq]
  refine ⟨by simp [hv.size_places], fun k i => ?_⟩
  have hnew : r.places[h]?.join = none := by
    have hc := mt (hv.contains_iff h).mp hmem
    simpa [contains, place?] using hc
  have hplace := hv.place?_iff k i
  simp only [place?] at hplace ⊢
  rw [Array.getElem?_setIfInBounds, hv.size_places, Array.getElem?_push]
  by_cases hkh : h = k
  · subst hkh
    have hne : ∀ j, r.order[j]? ≠ some h := fun j hj =>
      hmem (Array.mem_iff_getElem?.mpr ⟨j, hj⟩)
    by_cases hi : i = r.order.size
    · simp [hlt, hi]
    · simp [hlt, hi, hne, Ne.symm hi]
  · by_cases hi : i = r.order.size
    · subst hi
      simp [hkh, hplace]
    · simp [hkh, hi, hplace]

theorem mem_enter (hv : Valid n r) (h x : Nat) :
    x ∈ (r.enter h).order ↔ x ∈ r.order ∨ (x = h ∧ h < n) := by
  rcases enter_cases hv h with ⟨heq, hmem⟩ | ⟨hlt, -, heq⟩
  · rw [heq]
    constructor
    · exact Or.inl
    · rintro (hx | ⟨rfl, hx⟩)
      · exact hx
      · exact hmem hx
  · rw [heq, Array.mem_push]
    simp [hlt]

/-- What stands in a place stays there. -/
theorem getElem?_enter (hv : Valid n r) (h : Nat) {i x : Nat} (hx : r.order[i]? = some x) :
    (r.enter h).order[i]? = some x := by
  rcases enter_cases hv h with ⟨heq, -⟩ | ⟨-, -, heq⟩
  · rw [heq]
    exact hx
  · obtain ⟨hi, -⟩ := Array.getElem?_eq_some_iff.mp hx
    rw [heq, Array.getElem?_push, if_neg (by omega)]
    exact hx

theorem Valid.enterAll (hv : Valid n r) (hs : List Nat) : Valid n (r.enterAll hs) := by
  induction hs generalizing r with
  | nil => exact hv
  | cons h hs ih => exact ih (hv.enter h)

theorem mem_enterAll (hv : Valid n r) (hs : List Nat) (x : Nat) :
    x ∈ (r.enterAll hs).order ↔ x ∈ r.order ∨ (x ∈ hs ∧ x < n) := by
  induction hs generalizing r with
  | nil => simp [enterAll]
  | cons h hs ih =>
    have hstep : r.enterAll (h :: hs) = (r.enter h).enterAll hs := rfl
    rw [hstep, ih (hv.enter h), mem_enter hv, List.mem_cons]
    constructor
    · rintro ((hx | ⟨rfl, hx⟩) | ⟨hx, hlt⟩)
      · exact Or.inl hx
      · exact Or.inr ⟨Or.inl rfl, hx⟩
      · exact Or.inr ⟨Or.inr hx, hlt⟩
    · rintro (hx | ⟨rfl | hx, hlt⟩)
      · exact Or.inl (Or.inl hx)
      · exact Or.inl (Or.inr ⟨rfl, hlt⟩)
      · exact Or.inr ⟨hx, hlt⟩

theorem getElem?_enterAll (hv : Valid n r) (hs : List Nat) {i x : Nat}
    (hx : r.order[i]? = some x) : (r.enterAll hs).order[i]? = some x := by
  induction hs generalizing r with
  | nil => exact hx
  | cons h hs ih => exact ih (hv.enter h) (getElem?_enter hv h hx)

end Valid

/-! ## Exploring -/

/-- One handle is a neighbour of another, and in range. -/
def Linked (next : Nat → List Nat) (n a b : Nat) : Prop := b ∈ next a ∧ b < n

section Explore

variable {next : Nat → List Nat} {n : Nat}

/-- What holds of a valid roster, and is kept by entering the neighbours of a handle that stands
in the place under way, holds after exploring. -/
theorem explore_induction {motive : Roster → Nat → Prop}
    (step : ∀ r i x, Valid n r → r.order[i]? = some x → motive r i →
      motive (r.enterAll (next x)) (i + 1)) {r : Roster} {i : Nat} (hv : Valid n r)
    (hr : motive r i) :
    Valid n (r.explore next i) ∧ ∃ j, (r.explore next i).order.size ≤ j ∧
      motive (r.explore next i) j := by
  fun_induction explore next r i with
  | case1 r i hi ih =>
    exact ih (hv.enterAll _) (step r i _ hv (Array.getElem?_eq_getElem hi) hr)
  | case2 r i hi => exact ⟨hv, i, Nat.le_of_not_lt hi, hr⟩

theorem Valid.explore {r : Roster} (hv : Valid n r) (i : Nat) : Valid n (r.explore next i) :=
  (explore_induction (motive := fun _ _ => True) (fun _ _ _ _ _ _ => trivial) hv trivial).1

theorem mem_explore_of_mem {r : Roster} (hv : Valid n r) (i : Nat) {x : Nat} (hx : x ∈ r.order) :
    x ∈ (r.explore next i).order := by
  have hstep : ∀ (s : Roster) (i y : Nat), Valid n s → s.order[i]? = some y → x ∈ s.order →
      x ∈ (s.enterAll (next y)).order :=
    fun _ _ _ hs _ hm => (mem_enterAll hs _ x).mpr (Or.inl hm)
  obtain ⟨-, -, -, h⟩ := explore_induction (motive := fun s _ => x ∈ s.order) (i := i) hstep hv hx
  exact h

/-- What stands in a place stays there. -/
theorem getElem?_explore {r : Roster} (hv : Valid n r) (i : Nat) {j x : Nat}
    (hx : r.order[j]? = some x) : (r.explore next i).order[j]? = some x := by
  have hstep : ∀ (s : Roster) (i y : Nat), Valid n s → s.order[i]? = some y →
      s.order[j]? = some x → (s.enterAll (next y)).order[j]? = some x :=
    fun _ _ _ hs _ hj => getElem?_enterAll hs _ hj
  obtain ⟨-, -, -, h⟩ := explore_induction (motive := fun s _ => s.order[j]? = some x) (i := i)
    hstep hv hx
  exact h

/-- Links lead to the handle from one that has entered. -/
def Found (next : Nat → List Nat) (n : Nat) (r : Roster) (x : Nat) : Prop :=
  ∃ s ∈ r.order, Relation.ReflTransGen (Linked next n) s x

/-- All that enters is linked to what had entered before. -/
theorem found_of_mem_explore {r : Roster} (hv : Valid n r) {i x : Nat}
    (hx : x ∈ (r.explore next i).order) : Found next n r x := by
  have hstep : ∀ (s : Roster) (i y : Nat), Valid n s → s.order[i]? = some y →
      (∀ x ∈ s.order, Found next n r x) → ∀ x ∈ (s.enterAll (next y)).order, Found next n r x := by
    intro s i y hs hy ih x hx
    rcases (mem_enterAll hs _ x).mp hx with hx | hx
    · exact ih x hx
    · obtain ⟨t, ht, hty⟩ := ih y (Array.mem_iff_getElem?.mpr ⟨i, hy⟩)
      exact ⟨t, ht, hty.tail hx⟩
  have hstart : ∀ x ∈ r.order, Found next n r x := fun x hx => ⟨x, hx, .refl⟩
  obtain ⟨-, -, -, h⟩ := explore_induction (motive := fun s _ => ∀ x ∈ s.order, Found next n r x)
    (i := i) hstep hv hstart
  exact h x hx

/-- All neighbours of the handles before a place have entered. -/
def Done (next : Nat → List Nat) (n : Nat) (r : Roster) (i : Nat) : Prop :=
  ∀ k < i, ∀ x, r.order[k]? = some x → ∀ y, Linked next n x y → y ∈ r.order

theorem Done.enterAll {r : Roster} {i x : Nat} (hd : Done next n r i) (hv : Valid n r)
    (hx : r.order[i]? = some x) : Done next n (r.enterAll (next x)) (i + 1) := by
  intro k hk z hz y hzy
  obtain ⟨hi, -⟩ := Array.getElem?_eq_some_iff.mp hx
  have hks : k < r.order.size := by omega
  have hz' := getElem?_enterAll hv (next x) (Array.getElem?_eq_getElem hks)
  rw [hz, Option.some.injEq] at hz'
  have hkz : r.order[k]? = some z := by rw [hz', Array.getElem?_eq_getElem hks]
  rw [mem_enterAll hv]
  rcases Nat.lt_succ_iff_lt_or_eq.mp hk with hk | rfl
  · exact Or.inl (hd k hk z hkz y hzy)
  · rw [hx, Option.some.injEq] at hkz
    exact Or.inr (hkz ▸ hzy)

/-- The neighbours of every handle met have entered: in the end all places are done. -/
theorem mem_explore_of_linked {r : Roster} (hv : Valid n r) {x y : Nat}
    (hx : x ∈ (r.explore next 0).order) (hxy : Linked next n x y) :
    y ∈ (r.explore next 0).order := by
  have hstart : Done next n r 0 := fun k hk => absurd hk (Nat.not_lt_zero k)
  have hstep : ∀ (s : Roster) (i x : Nat), Valid n s → s.order[i]? = some x → Done next n s i →
      Done next n (s.enterAll (next x)) (i + 1) := fun _ _ _ hs hx hd => hd.enterAll hs hx
  obtain ⟨-, j, hj, h⟩ := explore_induction hstep hv hstart
  obtain ⟨k, hk⟩ := Array.mem_iff_getElem?.mp hx
  obtain ⟨hlt, -⟩ := Array.getElem?_eq_some_iff.mp hk
  exact h k (by omega) x hk y hxy

/-- Exploring finds exactly what links lead to. -/
theorem mem_explore {r : Roster} (hv : Valid n r) (x : Nat) :
    x ∈ (r.explore next 0).order ↔
      ∃ s ∈ r.order, Relation.ReflTransGen (Linked next n) s x := by
  constructor
  · exact found_of_mem_explore hv
  · intro ⟨s, hs, hsx⟩
    induction hsx with
    | refl => exact mem_explore_of_mem hv 0 hs
    | tail _ hlink ih => exact mem_explore_of_linked hv ih hlink

end Explore

/-! ## Clearing -/

theorem getElem?_foldl_setIfInBounds (hs : List Nat) (places : Array (Option Nat)) (k : Nat) :
    (hs.foldl (fun places h => places.setIfInBounds h none) places)[k]? =
      if k ∈ hs then places[k]?.map fun _ => none else places[k]? := by
  induction hs generalizing places with
  | nil => simp
  | cons h hs ih =>
    rw [List.foldl_cons, ih, Array.getElem?_setIfInBounds]
    by_cases hk : h = k
    · subst hk
      by_cases hlt : h < places.size
      · simp [hlt]
      · simp [hlt]
    · simp [hk, Ne.symm hk]

/-- Clearing a valid roster leaves its record blank. -/
theorem clear_eq {n : Nat} {r : Roster} (hv : Valid n r) : r.clear = Array.replicate n none := by
  apply Array.ext_getElem?
  intro k
  unfold clear
  rw [← Array.foldl_toList, getElem?_foldl_setIfInBounds, Array.getElem?_replicate]
  by_cases hk : k < n
  · have hk' : k < r.places.size := by rw [hv.size_places]; exact hk
    rw [if_pos hk, Array.getElem?_eq_getElem hk']
    split
    · rfl
    · rename_i hmem
      have hc := mt (hv.contains_iff k).mp (by simpa using hmem)
      simp only [contains, place?, Array.getElem?_eq_getElem hk', Option.join_some,
        Option.not_isSome_iff_eq_none] at hc
      rw [hc]
  · rw [if_neg hk, Array.getElem?_eq_none (by rw [hv.size_places]; exact Nat.le_of_not_lt hk)]
    simp

end Roster

end PatternAutomata
