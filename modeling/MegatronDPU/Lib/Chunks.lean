import Mathlib.Tactic

/-!
# Cutting a length into chunks

A length is cut into chunks of at most `bound`: all have length `bound` but the last one, which is
the rest. `offset bound size k` is where chunk `k` starts, `len bound size k` its length and
`count bound size` the number of chunks. The lengths determine the whole (`eq_of_len_eq`).
-/

namespace Chunks

open List

variable {bound size size' k : ℕ}

/-- The number of chunks. -/
def count (bound size : ℕ) : ℕ := (size + bound - 1) / bound

/-- Where chunk `k` starts. -/
def offset (bound size k : ℕ) : ℕ := min (k * bound) size

/-- The length of chunk `k`. -/
def len (bound size k : ℕ) : ℕ := min bound (size - k * bound)

@[simp] theorem offset_zero : offset bound size 0 = 0 := by
  simp [offset]

theorem offset_le : offset bound size k ≤ size := min_le_right _ _

theorem offset_add_len : offset bound size k + len bound size k = offset bound size (k + 1) := by
  unfold offset len
  rw [Nat.succ_mul]
  omega

theorem sum_len (n : ℕ) : ((range n).map (len bound size)).sum = offset bound size n := by
  induction n with
  | zero => simp
  | succ n ih =>
    rw [range_succ, map_append, sum_append, ih, map_singleton, sum_singleton, offset_add_len]

section

variable (hb : 0 < bound)
include hb

theorem lt_count_iff : k < count bound size ↔ k * bound < size := by
  unfold count
  rw [Nat.lt_div_iff_mul_lt hb]
  omega

/-- The chunks that start within the size are those counted. -/
theorem offset_lt_iff : offset bound size k < size ↔ k < count bound size := by
  rw [lt_count_iff hb, offset]
  omega

/-- The chunks cover the whole size. -/
theorem offset_count : offset bound size (count bound size) = size := by
  refine le_antisymm offset_le (not_lt.mp fun h => ?_)
  rw [offset_lt_iff hb] at h
  exact lt_irrefl _ h

theorem len_eq_ite (hk : k < count bound size) :
    (if size - offset bound size k > bound then bound else size - offset bound size k) =
      len bound size k := by
  rw [lt_count_iff hb] at hk
  unfold offset len
  split_ifs <;> omega

theorem len_pos (hk : k < count bound size) : 0 < len bound size k := by
  rw [lt_count_iff hb] at hk
  unfold len
  omega

theorem count_pos (hs : 0 < size) : 0 < count bound size := by
  rw [lt_count_iff hb]
  omega

theorem count_le : count bound size ≤ size := by
  refine not_lt.mp fun h => ?_
  rw [lt_count_iff hb] at h
  exact absurd (Nat.le_mul_of_pos_right size hb) (not_le.mpr h)

theorem flatten_chunks {α : Type*} (data : List α) :
    ((range (count bound data.length)).map fun k =>
      (data.drop (offset bound data.length k)).take (len bound data.length k)).flatten = data := by
  have hfirst : ∀ n, ((range n).map fun k =>
      (data.drop (offset bound data.length k)).take (len bound data.length k)).flatten =
      data.take (offset bound data.length n) := by
    intro n
    induction n with
    | zero => simp
    | succ n ih =>
      rw [range_succ, map_append, flatten_append, ih, map_singleton,
        flatten_singleton, ← offset_add_len, take_add]
  rw [hfirst, offset_count hb, take_length]

theorem eq_of_len_eq (hc : count bound size = count bound size')
    (hl : ∀ i < count bound size, len bound size i = len bound size' i) : size = size' := by
  have hmap : (range (count bound size)).map (len bound size) =
      (range (count bound size)).map (len bound size') :=
    map_congr_left fun i hi => hl i (mem_range.mp hi)
  calc size = offset bound size (count bound size) := (offset_count hb).symm
    _ = offset bound size' (count bound size) := by rw [← sum_len, hmap, sum_len]
    _ = size' := by rw [hc, offset_count hb]

end

end Chunks
