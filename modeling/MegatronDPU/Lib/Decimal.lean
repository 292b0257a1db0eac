import Mathlib.Tactic

/-!
# Numbers in names

A number is written into a name in decimal, and what follows does not start with a digit. Then the
number and the rest can be read back: `toString_append_inj`.
-/

namespace Decimal

/-- The text does not go on with a digit. -/
def Ends (s : String) : Prop := ∀ c ∈ s.toList.head?, c.isDigit = false

instance (s : String) : Decidable (Ends s) :=
  decidable_of_iff (s.toList.head?.all (!·.isDigit) = true) (by simp [Ends, Option.all_eq_true])

theorem Ends.append {s : String} (hs : Ends s) (hne : s ≠ "") (t : String) : Ends (s ++ t) := by
  have hcons : s.toList ≠ [] := fun h => hne (String.toList_eq_nil_iff.mp h)
  intro c hc
  rw [String.toList_append, List.head?_append_of_ne_nil _ hcons] at hc
  exact hs c hc

theorem takeWhile_digits (n : ℕ) {u : List Char} (hu : ∀ c ∈ u.head?, c.isDigit = false) :
    (Nat.toDigits 10 n ++ u).takeWhile Char.isDigit = Nat.toDigits 10 n := by
  have hdigits : ∀ c ∈ Nat.toDigits 10 n, c.isDigit = true := fun c hc =>
    Nat.isDigit_of_mem_toDigits (by decide) (by decide) hc
  rw [List.takeWhile_append_of_pos hdigits]
  cases u with
  | nil => simp
  | cons c u => simp [hu c rfl]

theorem toString_append_inj {m n : ℕ} {s t : String} (hs : Ends s) (ht : Ends t) :
    toString m ++ s = toString n ++ t ↔ m = n ∧ s = t := by
  refine ⟨fun h => ?_, by rintro ⟨rfl, rfl⟩; rfl⟩
  have hlist : Nat.toDigits 10 m ++ s.toList = Nat.toDigits 10 n ++ t.toList := by
    simpa using congrArg String.toList h
  have hdigits : Nat.toDigits 10 m = Nat.toDigits 10 n := by
    rw [← takeWhile_digits m hs, hlist, takeWhile_digits n ht]
  have hmn : m = n := by
    rw [← Nat.ofDigitChars_ten_toDigits (n := m), hdigits, Nat.ofDigitChars_ten_toDigits]
  refine ⟨hmn, ?_⟩
  rw [hdigits, List.append_cancel_left_eq] at hlist
  exact String.toList_inj.mp hlist

theorem toString_inj {m n : ℕ} : toString m = toString n ↔ m = n := by
  have h : Ends "" := by decide
  have hinj := toString_append_inj (m := m) (n := n) h h
  simpa using hinj

theorem toString_sep_inj {m n : ℕ} {sep s t : String} (h : Ends sep ∧ sep ≠ "") :
    toString m ++ (sep ++ s) = toString n ++ (sep ++ t) ↔ m = n ∧ s = t := by
  rw [toString_append_inj (h.1.append h.2 s) (h.1.append h.2 t), String.append_right_inj]

end Decimal
