import Mathlib.Tactic

/-!
# Regions of a memory

A memory gives every cell a value. `read` takes a region of consecutive cells out of it and `write`
puts a list into one; `copy_apply` says what a copy between equal places of two memories leaves in
each cell.
-/

namespace Region

open Option

variable {α : Type*}

/-- The `n` cells from `off` on. -/
def read (m : ℕ → α) (off n : ℕ) : List α := (List.range n).map fun k => m (off + k)

/-- The memory with a list stored from `off` on. -/
def write (m : ℕ → α) (off : ℕ) (xs : List α) : ℕ → α := fun c =>
  (if off ≤ c then xs[c - off]? else none).getD (m c)

variable {m m' : ℕ → α} {off n c : ℕ} {xs : List α}

@[simp] theorem length_read : (read m off n).length = n := by
  simp [read]

theorem getElem?_read {k : ℕ} (h : k < n) : (read m off n)[k]? = some (m (off + k)) := by
  simp [read, h]

theorem write_eq {x : α} (h : off ≤ c) (hx : xs[c - off]? = some x) : write m off xs c = x := by
  unfold write
  rw [if_pos h, hx, getD_some]

theorem write_of_notMem (h : ¬(off ≤ c ∧ c < off + xs.length)) : write m off xs c = m c := by
  unfold write
  by_cases hc : off ≤ c
  · have hlen : xs.length ≤ c - off := by omega
    rw [if_pos hc, List.getElem?_eq_none hlen, getD_none]
  · rw [if_neg hc, getD_none]

theorem copy_apply : write m' off (read m off n) c =
    if off ≤ c ∧ c < off + n then m c else m' c := by
  by_cases h : off ≤ c ∧ c < off + n
  · have hk : c - off < n := by omega
    have hx : (read m off n)[c - off]? = some (m c) := by
      rw [getElem?_read hk, Nat.add_sub_cancel' h.1]
    rw [if_pos h, write_eq h.1 hx]
  · rw [if_neg h]
    apply write_of_notMem
    rwa [length_read]

end Region
