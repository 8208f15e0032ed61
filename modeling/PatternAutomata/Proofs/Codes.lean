/-
  Texts that show where they end. A code is prefix free if the text of a value can be taken off the
  front of a longer text in one way only (`PrefixFree`). Numerals are not, but a character that is no
  digit ends one (`numeral_append_inj`), and a character that begins no element ends a list
  (`PrefixFree.flatMap_append_inj`).
-/
import Mathlib.Data.List.Basic

namespace PatternAutomata

/-- A text that begins with that of a value says which value it is, and what stands behind. -/
def PrefixFree {α : Type} (f : α → List Char) : Prop :=
  ∀ ⦃a b : α⦄ ⦃x y : List Char⦄, f a ++ x = f b ++ y → a = b ∧ x = y

/-! ## Codes -/

section Codes

variable {α : Type} {f : α → List Char}

theorem PrefixFree.injective (hf : PrefixFree f) : Function.Injective f := by
  intro a b hab
  have happend : f a ++ [] = f b ++ [] := by rw [hab]
  exact (hf happend).1

/-- Where something reads the value off the front, no text begins another. -/
theorem prefixFree_of_read {read? : List Char → Option (α × List Char)}
    (h : ∀ a x, read? (f a ++ x) = some (a, x)) : PrefixFree f := by
  intro a b x y hxy
  have hread := h a x
  rw [hxy, h b y, Option.some.injEq, Prod.mk.injEq] at hread
  exact ⟨hread.1.symm, hread.2.symm⟩

/-- Elements one after the other, up to a character that begins none of them. -/
theorem PrefixFree.flatMap_append_inj (hf : PrefixFree f) {c : Char}
    (hc : ∀ a x y, f a ++ x ≠ c :: y) {as bs : List α} {x y : List Char}
    (h : as.flatMap f ++ c :: x = bs.flatMap f ++ c :: y) : as = bs ∧ x = y := by
  induction as generalizing bs with
  | nil =>
    cases bs with
    | nil => exact ⟨rfl, (List.cons.inj h).2⟩
    | cons b bs =>
      rw [List.flatMap_cons, List.append_assoc] at h
      exact absurd h.symm (hc b _ _)
  | cons a as ih =>
    cases bs with
    | nil =>
      rw [List.flatMap_cons, List.append_assoc] at h
      exact absurd h (hc a _ _)
    | cons b bs =>
      simp only [List.flatMap_cons, List.append_assoc] at h
      obtain ⟨rfl, htail⟩ := hf h
      obtain ⟨rfl, hxy⟩ := ih htail
      exact ⟨rfl, hxy⟩

end Codes

/-! ## Numerals -/

/-- What satisfies a test ends where something stands that does not, or at the end. -/
theorem append_inj_of_all {p : Char → Bool} {u v x y : List Char} (hu : ∀ c ∈ u, p c = true)
    (hv : ∀ c ∈ v, p c = true) (hx : ∀ c ∈ x.head?, p c = false) (hy : ∀ c ∈ y.head?, p c = false)
    (h : u ++ x = v ++ y) : u = v ∧ x = y := by
  have hstop : ∀ z : List Char, (∀ c ∈ z.head?, p c = false) → z.takeWhile p = [] := by
    intro z hz
    cases z with
    | nil => rfl
    | cons c z => rw [List.takeWhile_cons_of_neg (by simp [hz c rfl])]
  have htake := congrArg (List.takeWhile p) h
  rw [List.takeWhile_append_of_pos hu, List.takeWhile_append_of_pos hv, hstop x hx, hstop y hy,
    List.append_nil, List.append_nil] at htake
  subst htake
  exact ⟨rfl, List.append_cancel_left h⟩

theorem isDigit_of_mem_numeral {n : Nat} {c : Char} (h : c ∈ (toString n).toList) :
    c.isDigit = true := by
  rw [Nat.toString_eq_repr, Nat.toList_repr] at h
  exact Nat.isDigit_of_mem_toDigits (by decide) (by decide) h

theorem numeral_injective : Function.Injective fun n : Nat => (toString n).toList := by
  intro m n h
  simp only [Nat.toString_eq_repr, Nat.toList_repr] at h
  rw [← Nat.ofDigitChars_ten_toDigits (n := m), h, Nat.ofDigitChars_ten_toDigits]

/-- A number can be read off the front of a text that goes on with no digit. -/
theorem numeral_append_inj {m n : Nat} {x y : List Char} (hx : ∀ c ∈ x.head?, c.isDigit = false)
    (hy : ∀ c ∈ y.head?, c.isDigit = false)
    (h : (toString m).toList ++ x = (toString n).toList ++ y) : m = n ∧ x = y := by
  obtain ⟨hmn, hxy⟩ := append_inj_of_all (fun _ => isDigit_of_mem_numeral)
    (fun _ => isDigit_of_mem_numeral) hx hy h
  exact ⟨numeral_injective hmn, hxy⟩

/-- A digit of a number stands for something below the base. -/
theorem exists_of_mem_toDigits {b n : Nat} (hb : 1 < b) {c : Char} (h : c ∈ Nat.toDigits b n) :
    ∃ d < b, c = Nat.digitChar d := by
  induction n using Nat.strongRecOn with
  | _ n ih =>
    rw [Nat.toDigits_eq_if hb] at h
    split at h
    · exact ⟨n, ‹_›, List.mem_singleton.mp h⟩
    · rename_i hn
      rcases List.mem_append.mp h with hinit | hlast
      · exact ih (n / b) (Nat.div_lt_self (by omega) hb) hinit
      · exact ⟨n % b, Nat.mod_lt _ (by omega), List.mem_singleton.mp hlast⟩

theorem digitChar_inj : ∀ d < 16, ∀ e < 16, Nat.digitChar d = Nat.digitChar e → d = e := by
  decide

theorem hexNumeral_injective : Function.Injective (Nat.toDigits 16) := by
  intro m
  induction m using Nat.strongRecOn with
  | _ m ih =>
    intro n h
    rw [Nat.toDigits_eq_if (by decide), Nat.toDigits_eq_if (b := 16) (n := n) (by decide)] at h
    have hlength := congrArg List.length h
    split_ifs at h hlength with hm hn hn
    · exact digitChar_inj m hm n hn (List.singleton_inj.mp h)
    · simp at hlength
    · simp at hlength
    · obtain ⟨hinit, hlast⟩ := List.append_inj' h rfl
      have hdiv : m / 16 = n / 16 := ih (m / 16) (by omega) hinit
      have hmod : m % 16 = n % 16 :=
        digitChar_inj _ (Nat.mod_lt _ (by decide)) _ (Nat.mod_lt _ (by decide))
          (List.singleton_inj.mp hlast)
      omega

end PatternAutomata
