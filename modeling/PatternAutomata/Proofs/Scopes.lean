/-
  A group is a closed scope. What waits outside a group, and what is in the output
  before it, make no difference to the steps inside: a run goes the same way in a
  frame of both (`run_frame`). So a group puts the postfix order of what it encloses
  into the output and leaves all else as it was (`run_group`), and what comes after
  does not depend on it.
-/
import PatternAutomata.Proofs.Conversion

namespace PatternAutomata

namespace Yard

/-- The yard with more in the output before, and more scopes outside. -/
def frame (y : Yard) (out : Array Token) (scopes : List (List Operator)) : Yard where
  output := out ++ y.output
  pending := y.pending
  outer := y.outer ++ scopes

theorem emit_frame (out output : Array Token) (ops : List Operator) :
    emit (out ++ output) ops = out ++ emit output ops := by
  apply Array.ext'
  simp [toList_emit]

/-! ## Steps in a frame -/

variable {y z : Yard} {out : Array Token} {scopes : List (List Operator)}

/-- A step goes the same way in a frame. -/
theorem step_frame {t : Token} (h : y.step t = .ok z) :
    (y.frame out scopes).step t = .ok (z.frame out scopes) := by
  cases t with
  | operand c =>
    cases h
    simp only [step, frame, Array.append_push]
  | operator op =>
    cases h
    simp only [step, await, frame, emit_frame]
  | leftGroup =>
    cases h
    simp only [step, frame, List.cons_append]
  | rightGroup =>
    simp only [step] at h
    split at h
    · cases h
    · rename_i scope outer hout
      cases h
      simp only [step, frame, hout, List.cons_append, emit_frame]

/-- With no more scopes outside, what was refused is refused. -/
theorem step_frame_error (out : Array Token) {t : Token} {e : Error}
    (h : y.step t = .error e) : ∃ e', (y.frame out []).step t = .error e' := by
  obtain ⟨rfl, hout, -⟩ := step_error h
  simp [step, frame, hout]

theorem run_frame {ts : List Token} (h : ts.foldlM step y = .ok z) :
    ts.foldlM step (y.frame out scopes) = .ok (z.frame out scopes) := by
  refine run_induction (motive := fun ts z =>
    ts.foldlM step (y.frame out scopes) = .ok (z.frame out scopes)) rfl ?_ h
  intro xs t u v ih hstep
  rw [run_append_of_ok ih, run_singleton]
  exact step_frame hstep

theorem run_frame_error (out : Array Token) {ts : List Token} {e : Error}
    (h : ts.foldlM step y = .error e) : ∃ e', ts.foldlM step (y.frame out []) = .error e' := by
  obtain ⟨us, t, vs, u, rfl, hu, ht⟩ := run_refused h
  obtain ⟨e', he'⟩ := step_frame_error out ht
  refine ⟨e', ?_⟩
  rw [run_append_of_ok (run_frame hu), List.foldlM_cons, he', error_bind]

/-! ## A group -/

/-- Taking in a group puts the postfix order of what it encloses behind the output. -/
theorem run_group {g : List Token} {p : Postfix} (h : Postfix.ofTokens g = .ok p) (y : Yard)
    (ys : List Token) :
    (.leftGroup :: (g ++ .rightGroup :: ys)).foldlM step y =
      ys.foldlM step { y with output := y.output ++ p.tokens.toArray } := by
  obtain ⟨z, hz, hout, rfl⟩ := Postfix.exists_run_of_ofTokens h
  have hopened : y.step .leftGroup = .ok (frame {} y.output (y.pending :: y.outer)) := by
    simp only [step, frame, Array.append_empty, List.nil_append]
  have hemit : emit (y.output ++ z.output) z.pending = y.output ++ z.held.toArray := by
    apply Array.ext'
    simp [toList_emit, held, waiting, hout]
  have hclosed : (z.frame y.output (y.pending :: y.outer)).step .rightGroup =
      .ok { y with output := y.output ++ z.held.toArray } := by
    simp only [step, frame, hout, List.nil_append, hemit]
  rw [List.foldlM_cons, hopened, ok_bind, run_append_of_ok (run_frame hz), List.foldlM_cons,
    hclosed, ok_bind]

/-! ## What comes out -/

/-- Take in the tokens, then release all that waits. -/
def convert (y : Yard) (ts : List Token) : Except Error Postfix := do
  let z ← ts.foldlM step y
  z.finish

theorem convert_frame {ts : List Token} {p : Postfix} (h : y.convert ts = .ok p) :
    (y.frame out []).convert ts = .ok ⟨out.toList ++ p.tokens⟩ := by
  unfold convert at h ⊢
  cases hts : ts.foldlM step y with
  | error e =>
    rw [hts, error_bind] at h
    cases h
  | ok z =>
    rw [hts, ok_bind] at h
    obtain ⟨hout, rfl⟩ := finish_eq_ok_iff.mp h
    rw [run_frame hts, ok_bind, finish_eq_ok_iff]
    refine ⟨?_, ?_⟩
    · simp only [frame, hout, List.append_nil]
    · simp only [held, waiting, frame, Array.toList_append, List.append_nil, List.append_assoc]

/-- More in the output before makes no difference to whether the rest converts. -/
theorem convert_frame_ok_iff {ts : List Token} :
    (∃ p, (y.frame out []).convert ts = .ok p) ↔ ∃ p, y.convert ts = .ok p := by
  constructor
  · intro ⟨p, h⟩
    unfold convert at h ⊢
    cases hts : ts.foldlM step y with
    | error e =>
      obtain ⟨e', he'⟩ := run_frame_error _ hts
      rw [he', error_bind] at h
      cases h
    | ok z =>
      rw [run_frame hts, ok_bind] at h
      obtain ⟨hout, -⟩ := finish_eq_ok_iff.mp h
      rw [ok_bind]
      exact ⟨_, finish_eq_ok_iff.mpr ⟨(List.append_eq_nil_iff.mp hout).1, rfl⟩⟩
  · intro ⟨p, h⟩
    exact ⟨_, convert_frame h⟩

/-- What is in the output when the tokens are read; nothing if they are refused before. -/
def outputAfter (ts : List Token) : List Token :=
  match ts.foldlM step {} with
  | .ok y => y.output.toList
  | .error _ => []

theorem outputAfter_of_run {ts : List Token} (h : ts.foldlM step {} = .ok y) :
    outputAfter ts = y.output.toList := by
  unfold outputAfter
  rw [h]

/-- The yard with nothing in the output yet. -/
def drained (y : Yard) : Yard := { y with output := #[] }

theorem frame_drained (y : Yard) : y.drained.frame y.output [] = y := by
  simp [drained, frame]

theorem frame_drained_append (y : Yard) (more : Array Token) :
    y.drained.frame (y.output ++ more) [] = { y with output := y.output ++ more } := by
  simp [drained, frame]

end Yard

namespace Postfix

theorem ofTokens_append {xs : List Token} {y : Yard} (h : xs.foldlM Yard.step {} = .ok y)
    (ys : List Token) : ofTokens (xs ++ ys) = y.convert ys := by
  unfold ofTokens Yard.convert
  rw [run_append_of_ok h]

theorem ofTokens_append_group {xs g : List Token} {y : Yard} {p : Postfix}
    (h : xs.foldlM Yard.step {} = .ok y) (hg : ofTokens g = .ok p) (ys : List Token) :
    ofTokens (xs ++ .leftGroup :: (g ++ .rightGroup :: ys)) =
      (y.drained.frame (y.output ++ p.tokens.toArray) []).convert ys := by
  rw [ofTokens_append h, Yard.frame_drained_append, Yard.convert, Yard.run_group hg]
  rfl

theorem ofTokens_append_of_error {xs : List Token} {e : Error}
    (h : xs.foldlM Yard.step {} = .error e) (ys : List Token) :
    ofTokens (xs ++ ys) = .error e := by
  unfold ofTokens
  rw [run_append_of_error h, error_bind]

end Postfix

/-- A group is a closed scope: tokens with a group among them that converts on its own convert if
they do without it, and its postfix order stands, undivided, behind what is in the output before it.
Neither what is before it there nor what comes behind depends on it. -/
theorem ofTokens_group (xs ys : List Token) :
    ∃ after, ∀ g inner, Postfix.ofTokens g = .ok ⟨inner⟩ →
      ((∃ p, Postfix.ofTokens (xs ++ .leftGroup :: (g ++ .rightGroup :: ys)) = .ok p) ↔
        ∃ p, Postfix.ofTokens (xs ++ ys) = .ok p) ∧
      ((∃ p, Postfix.ofTokens (xs ++ ys) = .ok p) →
        Postfix.ofTokens (xs ++ ys) = .ok ⟨Yard.outputAfter xs ++ after⟩ ∧
        Postfix.ofTokens (xs ++ .leftGroup :: (g ++ .rightGroup :: ys)) =
          .ok ⟨Yard.outputAfter xs ++ inner ++ after⟩) := by
  cases hxs : xs.foldlM Yard.step {} with
  | error e =>
    refine ⟨[], fun g inner _ => ?_⟩
    simp [Postfix.ofTokens_append_of_error hxs]
  | ok y =>
    -- What comes after does not depend on what is in the output when the rest is read.
    have hplain : Postfix.ofTokens (xs ++ ys) = (y.drained.frame y.output []).convert ys := by
      rw [Yard.frame_drained, Postfix.ofTokens_append hxs]
    rw [Yard.outputAfter_of_run hxs]
    cases hys : y.drained.convert ys with
    | error e =>
      have hnone : ∀ p, y.drained.convert ys ≠ .ok p := by simp [hys]
      refine ⟨[], fun g inner hg => ?_⟩
      rw [hplain, Postfix.ofTokens_append_group hxs hg, Yard.convert_frame_ok_iff,
        Yard.convert_frame_ok_iff]
      exact ⟨Iff.rfl, fun ⟨p, hp⟩ => absurd hp (hnone p)⟩
    | ok after =>
      refine ⟨after.tokens, fun g inner hg => ?_⟩
      rw [hplain, Postfix.ofTokens_append_group hxs hg, Yard.convert_frame hys,
        Yard.convert_frame hys]
      simp

/-- The group stands inside another one, behind an operator that waits and in front of one that binds
more tightly than any in it. -/
theorem ofTokens_group_nested :
    ∃ after,
      Postfix.ofTokens [.operand 'b', .operator .alternation, .operand 'c'] =
        .ok ⟨[.operand 'b', .operand 'c', .operator .alternation]⟩ ∧
      Postfix.ofTokens [.leftGroup, .operand 'a', .operator .concatenation,
          .operator .closure, .rightGroup] =
        .ok ⟨Yard.outputAfter [.leftGroup, .operand 'a', .operator .concatenation] ++ after⟩ ∧
      Postfix.ofTokens [.leftGroup, .operand 'a', .operator .concatenation,
          .leftGroup, .operand 'b', .operator .alternation, .operand 'c', .rightGroup,
          .operator .closure, .rightGroup] =
        .ok ⟨Yard.outputAfter [.leftGroup, .operand 'a', .operator .concatenation] ++
          [.operand 'b', .operand 'c', .operator .alternation] ++ after⟩ := by
  obtain ⟨after, h⟩ := ofTokens_group [.leftGroup, .operand 'a', .operator .concatenation]
    [.operator .closure, .rightGroup]
  have hg : Postfix.ofTokens [.operand 'b', .operator .alternation, .operand 'c'] =
      .ok ⟨[.operand 'b', .operand 'c', .operator .alternation]⟩ := by decide
  exact ⟨after, hg, (h _ _ hg).2 ⟨_, rfl⟩⟩

end PatternAutomata
