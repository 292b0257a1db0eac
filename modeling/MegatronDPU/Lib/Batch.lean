import MegatronDPU.Lib.Move

/-!
# Strides and batches

`every step start x` is the slice `x[start::step]`. `batches size x` collects the entries of `x` in
a loop and gives them out `size` at a time; entries that do not fill a batch are dropped. Both
commute with dropping from the left: `every_drop` and `drop_batches`.
-/

namespace Batch

open Move List

variable {α : Type*} {x : List α} {step start size i k : ℕ}

/-! ## Strides -/

/-- `x[start::step]`. -/
def every (step start : ℕ) (x : List α) : List α :=
  gather x ((List.range ((x.length - start + step - 1) / step)).map fun i => start + i * step)

section

variable (hstep : 0 < step)
include hstep

theorem index_lt_iff : i < (x.length - start + step - 1) / step ↔ start + i * step < x.length := by
  rw [Nat.lt_iff_add_one_le, Nat.le_div_iff_mul_le hstep, Nat.succ_mul]
  omega

theorem index_lt :
    ∀ n ∈ (List.range ((x.length - start + step - 1) / step)).map fun i => start + i * step,
      n < x.length := by
  intro n hn
  obtain ⟨i, hi, rfl⟩ := mem_map.mp hn
  exact (index_lt_iff hstep).mp (mem_range.mp hi)

theorem length_every : (every step start x).length = (x.length - start + step - 1) / step := by
  rw [every, length_gather (index_lt hstep), length_map, length_range]

theorem getElem?_every : (every step start x)[i]? = x[start + i * step]? := by
  rw [every, getElem?_gather (index_lt hstep), getElem?_map]
  by_cases hi : i < (x.length - start + step - 1) / step
  · rw [getElem?_range hi]
    rfl
  · have hge : x.length ≤ start + i * step := not_lt.mp fun h => hi ((index_lt_iff hstep).mpr h)
    rw [getElem?_eq_none (by rw [length_range]; omega), getElem?_eq_none hge]
    rfl

theorem every_drop : every step start (x.drop (k * step)) = (every step start x).drop k := by
  refine ext_getElem? fun i => ?_
  rw [getElem?_drop, getElem?_every hstep, getElem?_every hstep, getElem?_drop]
  congr 1
  ring

theorem nodup_every (hx : x.Nodup) : (every step start x).Nodup := by
  refine nodup_iff_getElem?_ne_getElem?.mpr fun i j hij hj => ?_
  rw [length_every hstep, index_lt_iff hstep] at hj
  rw [getElem?_every hstep, getElem?_every hstep]
  have hmul : i * step < j * step := Nat.mul_lt_mul_of_pos_right hij hstep
  exact nodup_iff_getElem?_ne_getElem?.mp hx _ _ (by omega) hj

end

theorem every_disjoint (hx : x.Nodup) {first second : ℕ} (hfirst : first < step)
    (hsecond : second < step) (hne : first ≠ second) :
    List.Disjoint (every step first x) (every step second x) := by
  have hstep : 0 < step := Nat.zero_lt_of_lt hfirst
  intro a ha ha'
  obtain ⟨i, hi⟩ := mem_iff_getElem?.mp ha
  obtain ⟨j, hj⟩ := mem_iff_getElem?.mp ha'
  rw [getElem?_every hstep] at hi hj
  have heq : first + i * step = second + j * step :=
    (getElem?_inj (List.getElem?_eq_some_iff.mp hi).1 hx).mp (hi.trans hj.symm)
  have hmod := congrArg (· % step) heq
  simp only [Nat.add_mul_mod_self_right, Nat.mod_eq_of_lt hfirst, Nat.mod_eq_of_lt hsecond] at hmod
  exact hne hmod

/-! ## Batches -/

/-- The loop that fills a batch and yields it when it is full. -/
def batchLoop (size : ℕ) : List α → List α → List (List α)
  | _, [] => []
  | batch, a :: rest =>
    let batch := batch ++ [a]
    if batch.length = size then batch :: batchLoop size [] rest else batchLoop size batch rest

/-- The full batches of a list. -/
def batches (size : ℕ) (x : List α) : List (List α) := batchLoop size [] x

theorem batchLoop_of_lt {batch : List α} (h : batch.length + x.length < size) :
    batchLoop size batch x = [] := by
  induction x generalizing batch with
  | nil => rfl
  | cons a x ih =>
    rw [length_cons] at h
    rw [batchLoop, if_neg (by rw [length_append, length_singleton]; omega)]
    exact ih (by rw [length_append, length_singleton]; omega)

theorem batchLoop_of_le {batch : List α} (hlt : batch.length < size)
    (h : size ≤ batch.length + x.length) :
    batchLoop size batch x = (batch ++ x).take size :: batches size ((batch ++ x).drop size) := by
  induction x generalizing batch with
  | nil =>
    rw [length_nil] at h
    omega
  | cons a x ih =>
    rw [length_cons] at h
    have hcons : batch ++ a :: x = batch ++ [a] ++ x := by rw [append_assoc, singleton_append]
    have hlen : (batch ++ [a]).length = batch.length + 1 := by
      rw [length_append, length_singleton]
    rw [batchLoop, hcons]
    by_cases hfull : (batch ++ [a]).length = size
    · rw [if_pos hfull, take_left' hfull, drop_left' hfull]
      rfl
    · rw [if_neg hfull]
      exact ih (by omega) (by omega)

theorem batches_of_lt (h : x.length < size) : batches size x = [] :=
  batchLoop_of_lt (by rwa [length_nil, zero_add])

section

variable (hsize : 0 < size)
include hsize

theorem batches_of_le (h : size ≤ x.length) :
    batches size x = x.take size :: batches size (x.drop size) :=
  batchLoop_of_le hsize (by rwa [length_nil, zero_add])

theorem drop_batches (k : ℕ) (x : List α) :
    (batches size x).drop k = batches size (x.drop (k * size)) := by
  induction k generalizing x with
  | zero => rw [drop_zero, zero_mul, drop_zero]
  | succ k ih =>
    by_cases h : size ≤ x.length
    · rw [batches_of_le hsize h, drop_succ_cons, ih, drop_drop]
      congr 2
      ring
    · have hmul : size ≤ (k + 1) * size := Nat.le_mul_of_pos_left size (Nat.succ_pos k)
      rw [batches_of_lt (by omega), drop_nil, batches_of_lt]
      rw [length_drop]
      omega

theorem length_batches (x : List α) : (batches size x).length = x.length / size := by
  induction hn : x.length using Nat.strongRecOn generalizing x with
  | ind n ih =>
    subst hn
    by_cases h : size ≤ x.length
    · have hlen : (x.drop size).length = x.length - size := length_drop
      rw [batches_of_le hsize h, length_cons, ih _ (by omega) _ hlen, Nat.div_eq_sub_div hsize h]
    · rw [batches_of_lt (by omega), length_nil, Nat.div_eq_of_lt (by omega)]

theorem flatten_batches (x : List α) : (batches size x).flatten <+: x := by
  induction hn : x.length using Nat.strongRecOn generalizing x with
  | ind n ih =>
    by_cases h : size ≤ x.length
    · have hlen : (x.drop size).length = x.length - size := length_drop
      rw [batches_of_le hsize h, flatten_cons]
      conv_rhs => rw [← take_append_drop size x]
      exact (prefix_append_right_inj _).mpr (ih _ (by omega) _ hlen)
    · rw [batches_of_lt (by omega)]
      exact nil_prefix

theorem length_of_mem_batches {batch : List α} (h : batch ∈ batches size x) :
    batch.length = size := by
  induction hn : x.length using Nat.strongRecOn generalizing x with
  | ind n ih =>
    by_cases hle : size ≤ x.length
    · have hlen : (x.drop size).length = x.length - size := length_drop
      rw [batches_of_le hsize hle] at h
      rcases mem_cons.mp h with rfl | h
      · rw [length_take, Nat.min_eq_left hle]
      · exact ih _ (by omega) h hlen
    · rw [batches_of_lt (by omega)] at h
      cases h

end

end Batch
