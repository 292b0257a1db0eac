import Mathlib.Tactic

/-!
# Occurrences in a list

`before p l j` counts the entries with the property `p` before position `j`. Entries with the
property are numbered by it: the number grows from one to the next (`before_lt_before`), each
number below a count is taken (`exists_of_lt_before`), and it is the position of the entry in the
filtered list (`getElem?_filter_before`).
-/

namespace Occurrence

open List

variable {α : Type*} {p : α → Bool} {l : List α} {i j m : ℕ} {x : α}

def before (p : α → Bool) (l : List α) (j : ℕ) : ℕ := (l.take j).countP p

theorem before_succ (hx : l[j]? = some x) :
    before p l (j + 1) = before p l j + if p x then 1 else 0 := by
  obtain ⟨hj, rfl⟩ := List.getElem?_eq_some_iff.mp hx
  rw [before, take_succ_eq_append_getElem hj, countP_append, countP_singleton]
  rfl

theorem before_le : before p l j ≤ j := by
  refine countP_le_length.trans ?_
  rw [length_take]
  exact min_le_left _ _

theorem before_mono (h : i ≤ j) : before p l i ≤ before p l j := by
  obtain ⟨d, rfl⟩ := Nat.exists_eq_add_of_le h
  rw [before, before, take_add, countP_append]
  exact Nat.le_add_right _ _

theorem before_lt_before (hx : l[i]? = some x) (hp : p x = true) (h : i < j) :
    before p l i < before p l j := by
  have hsucc := before_succ (p := p) hx
  have hmono : before p l (i + 1) ≤ before p l j := before_mono h
  rw [if_pos hp] at hsucc
  omega

theorem eq_of_before_eq {y : α} (hx : l[i]? = some x) (hp : p x = true) (hy : l[j]? = some y)
    (hq : p y = true) (h : before p l i = before p l j) : i = j := by
  rcases lt_trichotomy i j with hlt | heq | hlt
  · exact absurd h (before_lt_before hx hp hlt).ne
  · exact heq
  · exact absurd h (before_lt_before hy hq hlt).ne'

theorem exists_of_lt_before (h : m < before p l j) :
    ∃ i < j, ∃ x, l[i]? = some x ∧ p x = true ∧ before p l i = m := by
  induction j with
  | zero => cases h
  | succ j ih =>
    by_cases hj : m < before p l j
    · obtain ⟨i, hi, hx⟩ := ih hj
      exact ⟨i, hi.trans (Nat.lt_succ_self j), hx⟩
    · cases hx : l[j]? with
      | none =>
        have hsame : before p l (j + 1) = before p l j := by
          rw [List.getElem?_eq_none_iff] at hx
          rw [before, before, take_of_length_le hx, take_of_length_le (by omega)]
        omega
      | some x =>
        have hsucc := before_succ (p := p) hx
        split_ifs at hsucc with hp
        · exact ⟨j, Nat.lt_succ_self j, x, hx, hp, by omega⟩
        · omega

theorem getElem?_filter_before (hx : l[j]? = some x) (hp : p x = true) :
    (l.filter p)[before p l j]? = some x := by
  obtain ⟨hj, hget⟩ := List.getElem?_eq_some_iff.mp hx
  have hsplit : l = l.take j ++ x :: l.drop (j + 1) := by
    rw [← hget, getElem_cons_drop, take_append_drop]
  have hfilter : l.filter p = (l.take j).filter p ++ x :: (l.drop (j + 1)).filter p := by
    conv_lhs => rw [hsplit]
    rw [filter_append, filter_cons_of_pos hp]
  rw [hfilter, before, countP_eq_length_filter, getElem?_append_right le_rfl, Nat.sub_self]
  rfl

end Occurrence
