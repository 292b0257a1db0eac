import Mathlib.Tactic

/-!
# Binary search among ranges

The search asks at the middle of what is left whether the wanted value is below or above the range
there. It finds a range if the value is not below the first one, not above the last one, and not in
a gap (`exists_search`); the ranges need not be sorted for that.
-/

namespace MegatronDPU.Search

variable {below above : ℕ → Bool} {n fuel left right mid : ℕ}

/-- The first middle whose range holds the value; `fuel` bounds the rounds. -/
def search (below above : ℕ → Bool) : ℕ → ℕ → ℕ → Option ℕ
  | 0, _, _ => none
  | fuel + 1, left, right =>
    if left < right then
      let mid := left + (right - left) / 2
      if below mid then search below above fuel left mid
      else if above mid then search below above fuel (mid + 1) right
      else some mid
    else none

theorem search_spec (h : search below above fuel left right = some mid) :
    mid < right ∧ below mid = false ∧ above mid = false := by
  induction fuel generalizing left right with
  | zero => cases h
  | succ fuel ih =>
    simp only [search] at h
    split_ifs at h with hlt hbelow habove
    · exact ⟨(ih h).1.trans_le (by omega), (ih h).2⟩
    · exact ih h
    · obtain rfl := Option.some.inj h
      exact ⟨by omega, Bool.eq_false_iff.mpr hbelow, Bool.eq_false_iff.mpr habove⟩

/-- The value is in no gap before, between or after the ranges. -/
structure Gapless (below above : ℕ → Bool) (n : ℕ) : Prop where
  pos : 0 < n
  first : below 0 = false
  last : above (n - 1) = false
  gap : ∀ i, i + 1 < n → above i = true → below (i + 1) = false

/-- The value is above all ranges on the left of `left` and below all from `right` on, as far as
the search has looked. -/
theorem exists_search_of_bounds (h : Gapless below above n)
    (hleft : left = 0 ∨ above (left - 1) = true) (hright : right = n ∨ below right = true)
    (hle : left ≤ right) (hn : right ≤ n) (hfuel : right - left < fuel) :
    ∃ mid, search below above fuel left right = some mid := by
  induction fuel generalizing left right with
  | zero => omega
  | succ fuel ih =>
    simp only [search]
    by_cases hlt : left < right
    · rw [if_pos hlt]
      split_ifs with hbelow habove
      · exact ih hleft (.inr hbelow) (by omega) (by omega) (by omega)
      · exact ih (.inr habove) hright (by omega) hn (by omega)
      · exact ⟨_, rfl⟩
    · -- nothing is left, which leaves the value in a gap
      obtain rfl : left = right := by omega
      exfalso
      rcases hleft with rfl | hleft <;> rcases hright with rfl | hright
      · exact absurd h.pos (lt_irrefl _)
      · exact absurd (h.first.symm.trans hright) (by decide)
      · exact absurd (h.last.symm.trans hleft) (by decide)
      · rcases Nat.eq_zero_or_pos left with rfl | hpos
        · exact absurd (h.first.symm.trans hright) (by decide)
        · rcases hn.eq_or_lt with rfl | hlt'
          · exact absurd (h.last.symm.trans hleft) (by decide)
          · have hgap := h.gap (left - 1) (by omega) hleft
            rw [Nat.sub_add_cancel hpos] at hgap
            exact absurd (hgap.symm.trans hright) (by decide)

theorem exists_search (h : Gapless below above n) :
    ∃ mid, search below above (n + 1) 0 n = some mid :=
  exists_search_of_bounds h (.inl rfl) (.inl rfl) (Nat.zero_le n) le_rfl (by omega)

end MegatronDPU.Search
