/-
  Rosters: sets of handles that remember the order of entry and answer at once
  whether, and in which place, a handle stands. `explore` walks a roster from a
  place on and enters the neighbours of each handle met, which is breadth-first
  search. It ends because every entry fills one of finitely many places.
-/
namespace PatternAutomata

/-- Handles in order of entry, and for each handle its place in that order, if it has entered. -/
structure Roster where
  order : Array Nat
  places : Array (Option Nat)

namespace Roster

/-- The roster for `n` handles that none has entered. -/
def blank (n : Nat) : Roster := { order := #[], places := Array.replicate n none }

/-- The place of a handle. -/
def place? (r : Roster) (h : Nat) : Option Nat := r.places[h]?.join

/-- Whether the handle has entered. -/
def contains (r : Roster) (h : Nat) : Bool := (r.place? h).isSome

/-- Enter a handle, unless it has entered or is out of range. -/
def enter (r : Roster) (h : Nat) : Roster :=
  match r.places[h]? with
  | some none =>
    let places := r.places.setIfInBounds h (some r.order.size)
    { order := r.order.push h, places }
  | _ => r

/-- Enter handles one after the other. -/
def enterAll (r : Roster) (hs : List Nat) : Roster := hs.foldl enter r

/-- How many handles can still enter. -/
def vacancies (r : Roster) : Nat := r.places.count none

/-- The record of places with those of the roster's handles taken out again. -/
def clear (r : Roster) : Array (Option Nat) :=
  r.order.foldl (fun places h => places.setIfInBounds h none) r.places

/-- An entry takes one vacancy. -/
theorem vacancies_enter (r : Roster) (h : Nat) :
    (r.enter h).vacancies + (r.enter h).order.size = r.vacancies + r.order.size := by
  unfold enter
  split
  · rename_i hn
    obtain ⟨hlt, hh⟩ := Array.getElem?_eq_some_iff.mp hn
    have hpos : 0 < r.places.count none := Array.count_pos_iff.mpr (hh ▸ Array.getElem_mem hlt)
    simp [vacancies, Array.setIfInBounds, hlt, Array.count_set, hh]
    omega
  · rfl

theorem vacancies_enterAll (r : Roster) (hs : List Nat) :
    (r.enterAll hs).vacancies + (r.enterAll hs).order.size = r.vacancies + r.order.size := by
  induction hs generalizing r with
  | nil => rfl
  | cons h hs ih => exact (ih (r.enter h)).trans (vacancies_enter r h)

/-- From place `i` on, enter the neighbours of each handle, those entered on the way included. -/
def explore (next : Nat → List Nat) (r : Roster) (i : Nat) : Roster :=
  if h : i < r.order.size then explore next (r.enterAll (next r.order[i])) (i + 1) else r
termination_by r.vacancies + r.order.size - i
decreasing_by
  have := vacancies_enterAll r (next r.order[i])
  omega

end Roster

end PatternAutomata
