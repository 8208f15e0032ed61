/-
  Runs of a machine that takes one item after the other and may refuse one.
  What each step keeps, a run keeps (`run_induction`), and a run that is refused
  is refused by one step, after a run that was not (`run_refused`).
-/
import Mathlib.Data.List.Induction

namespace PatternAutomata

variable {α σ τ ε : Type}

theorem ok_bind (a : α) (f : α → Except ε τ) : (Except.ok a >>= f) = f a := rfl

theorem error_bind (e : ε) (f : α → Except ε τ) : (Except.error e >>= f) = .error e := rfl

variable {step : σ → τ → Except ε σ} {s z : σ}

theorem run_append_of_ok {xs : List τ} {y : σ} (h : xs.foldlM step s = .ok y) (ys : List τ) :
    (xs ++ ys).foldlM step s = ys.foldlM step y := by
  rw [List.foldlM_append, h, ok_bind]

theorem run_append_of_error {xs : List τ} {e : ε} (h : xs.foldlM step s = .error e)
    (ys : List τ) : (xs ++ ys).foldlM step s = .error e := by
  rw [List.foldlM_append, h, error_bind]

theorem run_singleton (s : σ) (t : τ) : [t].foldlM step s = step s t := by
  rw [List.foldlM_cons]
  cases step s t with
  | ok z => rfl
  | error e => rfl

/-- Machines whose steps correspond have runs that correspond. -/
theorem run_map {σ' τ' : Type} {step' : σ' → τ' → Except ε σ'} {g : σ → σ'} {k : τ → τ'}
    (hstep : ∀ s t, step' (g s) (k t) = (step s t).map g) (s : σ) (xs : List τ) :
    (xs.map k).foldlM step' (g s) = (xs.foldlM step s).map g := by
  induction xs generalizing s with
  | nil => rfl
  | cons t xs ih =>
    rw [List.map_cons, List.foldlM_cons, List.foldlM_cons, hstep]
    cases step s t with
    | ok y => exact ih y
    | error e => rfl

/-- A run that ends has every prefix end. -/
theorem run_prefix {xs ys : List τ} (h : (xs ++ ys).foldlM step s = .ok z) :
    ∃ y, xs.foldlM step s = .ok y ∧ ys.foldlM step y = .ok z := by
  cases hx : xs.foldlM step s with
  | ok y => exact ⟨y, rfl, by rw [← h, run_append_of_ok hx]⟩
  | error e => rw [run_append_of_error hx] at h; cases h

/-- What holds of the empty run and is kept by each step holds of every run. -/
theorem run_induction {motive : List τ → σ → Prop} (nil : motive [] s)
    (snoc : ∀ xs t y z, motive xs y → step y t = .ok z → motive (xs ++ [t]) z)
    {xs : List τ} (h : xs.foldlM step s = .ok z) : motive xs z := by
  induction xs using List.reverseRecOn generalizing z with
  | nil => cases h; exact nil
  | append_singleton xs t ih =>
    obtain ⟨y, hy, hz⟩ := run_prefix h
    rw [run_singleton] at hz
    exact snoc xs t y z (ih hy) hz

/-- A refused run is refused by one of its steps, and the items before were all taken in. -/
theorem run_refused {xs : List τ} {e : ε} (h : xs.foldlM step s = .error e) :
    ∃ us t vs y, xs = us ++ t :: vs ∧ us.foldlM step s = .ok y ∧ step y t = .error e := by
  induction xs generalizing s with
  | nil => cases h
  | cons t xs ih =>
    rw [List.foldlM_cons] at h
    cases ht : step s t with
    | error e' =>
      rw [ht, error_bind] at h
      cases h
      exact ⟨[], t, xs, s, rfl, rfl, ht⟩
    | ok y =>
      rw [ht, ok_bind] at h
      obtain ⟨us, u, vs, z, rfl, hz, hu⟩ := ih h
      refine ⟨t :: us, u, vs, z, rfl, ?_, hu⟩
      rw [List.foldlM_cons, ht, ok_bind]
      exact hz

end PatternAutomata
