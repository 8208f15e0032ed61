/-
  Reading tokens, piece by piece. The tokens of a pattern put together from two
  pieces are those of the pieces, with one concatenation in the seam when the
  first piece ends an atom and the second starts one (`ofChars_append`). All
  else that is proved about tokens of patterns goes through that equation.

  The second half counts. A list is overclosed when some prefix has more closing
  marks than opening ones, and reading keeps that: tokens that are no group
  marks do not matter (`overclosed_ofChars`).
-/
import Mathlib.Data.List.Infix
import Mathlib.Data.List.Count
import PatternAutomata.Token.Lexer

namespace PatternAutomata

namespace Token

/-! ## Pieces and seams -/

/-- The tokens of a piece of a pattern. -/
def ofChars (p : List Char) : List Token := juxtapose (p.map ofChar)

theorem tokenize_eq_ofChars (pattern : String) : tokenize pattern = ofChars pattern.toList := rfl

/-- Whether the piece starts an atom. -/
def opensAtom (p : List Char) : Bool := p.head?.any fun c => (ofChar c).startsAtom

/-- Whether the piece ends an atom. -/
def closesAtom (p : List Char) : Bool := p.getLast?.any fun c => (ofChar c).endsAtom

/-- What reading puts between two pieces. -/
def seam (p q : List Char) : List Token :=
  if closesAtom p && opensAtom q then [.operator .concatenation] else []

theorem seam_of_not_closesAtom {p : List Char} (h : closesAtom p = false) (q : List Char) :
    seam p q = [] := by
  simp [seam, h]

theorem seam_of_not_opensAtom (p : List Char) {q : List Char} (h : opensAtom q = false) :
    seam p q = [] := by
  simp [seam, h]

theorem seam_of_both {p q : List Char} (hp : closesAtom p = true) (hq : opensAtom q = true) :
    seam p q = [.operator .concatenation] := by
  simp [seam, hp, hq]

theorem opensAtom_append {p : List Char} (h : opensAtom p = true) (q : List Char) :
    opensAtom (p ++ q) = true := by
  cases p with
  | nil => cases h
  | cons c p => exact h

theorem closesAtom_append (p : List Char) {q : List Char} (h : closesAtom q = true) :
    closesAtom (p ++ q) = true := by
  have hq : q ≠ [] := by
    rintro rfl
    cases h
  rwa [closesAtom, List.getLast?_append_of_ne_nil _ hq]

theorem closesAtom_concat (p : List Char) (c : Char) :
    closesAtom (p ++ [c]) = (ofChar c).endsAtom := by
  simp [closesAtom]

/-- A symbol both starts and ends an atom. -/
theorem opensAtom_symbol {c : Char} (h : ¬ Reserved c) : opensAtom [c] = true := by
  show (ofChar c).startsAtom = true
  rw [ofChar_of_not_reserved h]
  rfl

theorem closesAtom_symbol {c : Char} (h : ¬ Reserved c) : closesAtom [c] = true := by
  show (ofChar c).endsAtom = true
  rw [ofChar_of_not_reserved h]
  rfl

theorem ofChars_nil : ofChars [] = [] := rfl

theorem ofChars_singleton (c : Char) : ofChars [c] = [ofChar c] := rfl

theorem seam_singletons (c d : Char) :
    seam [c] [d] =
      if (ofChar c).endsAtom && (ofChar d).startsAtom then [.operator .concatenation] else [] := rfl

theorem ofChars_cons_cons (c d : Char) (p : List Char) :
    ofChars (c :: d :: p) = ofChar c :: (seam [c] [d] ++ ofChars (d :: p)) := by
  simp only [ofChars, List.map_cons, juxtapose, seam_singletons]
  split
  · rfl
  · rfl

theorem closesAtom_cons_cons (c d : Char) (p : List Char) :
    closesAtom (c :: d :: p) = closesAtom (d :: p) := by
  simp [closesAtom]

theorem seam_cons_left (c d : Char) (p q : List Char) :
    seam (c :: d :: p) q = seam (d :: p) q := by
  unfold seam
  rw [closesAtom_cons_cons]

/-- Reading two pieces is reading each, with the seam between. -/
theorem ofChars_append (p q : List Char) :
    ofChars (p ++ q) = ofChars p ++ (seam p q ++ ofChars q) := by
  induction p with
  | nil => simp [seam, closesAtom, ofChars_nil]
  | cons c p ih =>
    cases p with
    | nil =>
      cases q with
      | nil => simp [seam, opensAtom, ofChars_nil]
      | cons d q =>
        rw [List.singleton_append, ofChars_cons_cons, ofChars_singleton]
        rfl
    | cons d p =>
      rw [List.cons_append] at ih
      rw [List.cons_append, List.cons_append, ofChars_cons_cons, ih, ofChars_cons_cons,
        seam_cons_left]
      simp

/-- A mark that neither ends nor starts an atom stands between two pieces read on their own. -/
theorem ofChars_around {c : Char} (hs : (ofChar c).startsAtom = false)
    (he : (ofChar c).endsAtom = false) (p q : List Char) :
    ofChars (p ++ c :: q) = ofChars p ++ ofChar c :: ofChars q := by
  have hc : ofChars (c :: q) = ofChar c :: ofChars q := by
    rw [← List.singleton_append, ofChars_append, ofChars_singleton,
      seam_of_not_closesAtom (by simpa [closesAtom] using he)]
    rfl
  rw [ofChars_append, hc, seam_of_not_opensAtom p (by simpa [opensAtom] using hs)]
  rfl

/-- A group is read as its marks around what it encloses. -/
theorem ofChars_group (p : List Char) :
    ofChars ('(' :: p ++ [')']) = leftGroup :: (ofChars p ++ [rightGroup]) := by
  rw [ofChars_append, ofChars_singleton, seam_of_not_opensAtom _ rfl, ← List.singleton_append,
    ofChars_append, seam_of_not_closesAtom rfl, ofChars_singleton]
  simp [ofChar]

/-! ## Which characters are which tokens -/

theorem ofChar_injective : Function.Injective ofChar := fun c d h => by
  rw [← char_ofChar c, ← char_ofChar d, h]

theorem isGroup_ofChar {c : Char} : (ofChar c).isGroup = true ↔ c = '(' ∨ c = ')' := by
  unfold ofChar
  split <;> simp_all [isGroup]

/-- Every character that is no group mark, operator or symbol alike. -/
theorem isGroup_ofChar_eq_false {c : Char} (hl : c ≠ '(') (hr : c ≠ ')') :
    (ofChar c).isGroup = false := by
  rw [Bool.eq_false_iff]
  exact fun h => (isGroup_ofChar.mp h).elim hl hr

theorem isGroup_of_mem_seam {p q : List Char} {t : Token} (h : t ∈ seam p q) :
    t.isGroup = false := by
  unfold seam at h
  split at h
  · rw [List.mem_singleton.mp h]
    rfl
  · simp at h

/-- The group marks of a piece are those that stand in it. -/
theorem filter_isGroup_ofChars (p : List Char) :
    (ofChars p).filter isGroup = (p.map ofChar).filter isGroup := by
  induction p with
  | nil => rfl
  | cons c p ih =>
    have hseam : (seam [c] p).filter isGroup = [] := by
      rw [List.filter_eq_nil_iff]
      intro t ht
      simp [isGroup_of_mem_seam ht]
    rw [← List.singleton_append, ofChars_append, List.filter_append, List.filter_append, hseam, ih,
      List.map_append, List.filter_append]
    rfl

end Token

/-! ## Overclosed lists -/

/-- Some prefix has more closing marks than opening ones. -/
def Overclosed {α : Type} [DecidableEq α] (opening closing : α) (xs : List α) : Prop :=
  ∃ q, q <+: xs ∧ q.count opening < q.count closing

section Overclosed

variable {α β : Type} [DecidableEq α] [DecidableEq β] {l r : α} {xs ys : List α}

theorem overclosed_map {f : α → β} (hf : Function.Injective f) :
    Overclosed (f l) (f r) (xs.map f) ↔ Overclosed l r xs := by
  constructor
  · intro ⟨q, hq, hlt⟩
    obtain ⟨p, hp, rfl⟩ := List.prefix_map_iff.mp hq
    rw [List.count_map_of_injective _ f hf, List.count_map_of_injective _ f hf] at hlt
    exact ⟨p, hp, hlt⟩
  · intro ⟨q, hq, hlt⟩
    refine ⟨q.map f, hq.map f, ?_⟩
    rwa [List.count_map_of_injective _ f hf, List.count_map_of_injective _ f hf]

/-- Only the marks matter. -/
theorem overclosed_filter (keep : α → Bool) (hl : keep l = true) (hr : keep r = true) :
    Overclosed l r (xs.filter keep) ↔ Overclosed l r xs := by
  constructor
  · intro ⟨q, ⟨rest, hq⟩, hlt⟩
    obtain ⟨us, vs, rfl, rfl, -⟩ := List.filter_eq_append_iff.mp hq.symm
    rw [List.count_filter hl, List.count_filter hr] at hlt
    exact ⟨us, List.prefix_append us vs, hlt⟩
  · intro ⟨q, hq, hlt⟩
    refine ⟨q.filter keep, hq.filter keep, ?_⟩
    rwa [List.count_filter hl, List.count_filter hr]

end Overclosed

namespace Token

/-- Reading neither makes nor mends an overclosed pattern. -/
theorem overclosed_ofChars (p : List Char) :
    Overclosed leftGroup rightGroup (ofChars p) ↔ Overclosed '(' ')' p := by
  rw [← overclosed_filter isGroup rfl rfl, filter_isGroup_ofChars,
    overclosed_filter isGroup rfl rfl]
  exact overclosed_map (l := '(') (r := ')') ofChar_injective

theorem count_ofChars (p : List Char) {c : Char} (h : (ofChar c).isGroup = true) :
    (ofChars p).count (ofChar c) = p.count c := by
  rw [← List.count_filter h, filter_isGroup_ofChars, List.count_filter h,
    List.count_map_of_injective _ _ ofChar_injective]

theorem count_leftGroup_ofChars (p : List Char) : (ofChars p).count leftGroup = p.count '(' :=
  count_ofChars p (c := '(') rfl

theorem count_rightGroup_ofChars (p : List Char) : (ofChars p).count rightGroup = p.count ')' :=
  count_ofChars p (c := ')') rfl

end Token

end PatternAutomata
