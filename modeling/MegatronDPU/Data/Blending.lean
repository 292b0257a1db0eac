import MegatronDPU.Lib.While

/-!
# Blended datasets

Both builders take the next sample from the dataset that is furthest behind its share, over exact
rationals. `build_exhaustive_blending_indices` drops a dataset when its count reaches its size, so a
dataset without samples is never dropped. The number of a dataset is stored as an `int16_t`.
-/

namespace MegatronDPU.Data

open Function List

/-- The samples taken from each dataset, and the rows of `dataset_index` and
`dataset_sample_index`. -/
structure Blend where
  counts : ℕ → ℕ := fun _ => 0
  rows : List (ℤ × ℕ) := []

namespace Blend

variable {s t : Blend} {n i : ℕ} {w : ℕ → ℚ} {sizes : ℕ → ℕ}

/-- `static_cast<int16_t>`. -/
def int16 (i : ℕ) : ℤ := (i : ℤ).bmod (2 ^ 16)

/-- By how much a dataset lags behind its weight. -/
def error (w : ℕ → ℚ) (s : Blend) (i : ℕ) : ℚ := w i * max (s.rows.length : ℚ) 1 - s.counts i

/-- Takes the next sample of a dataset. -/
def take (s : Blend) (i : ℕ) : Blend :=
  ⟨update s.counts i (s.counts i + 1), s.rows ++ [(int16 i, s.counts i)]⟩

/-- The samples of a dataset among the rows. -/
def samples (rows : List (ℤ × ℕ)) (i : ℕ) : List ℕ := (rows.filter fun r => (i : ℤ) = r.1).map (·.2)

/-- `build_blending_indices`, for `n` datasets. -/
def buildBlendingIndices (w : ℕ → ℚ) (n : ℕ) : ℕ → Option Blend
  | 0 => some {}
  | size + 1 => do
    let s ← buildBlendingIndices w n size
    let maxErrorIndex ← (range n).argmax (s.error w)
    some (s.take maxErrorIndex)

/-- A round of the exhaustive builder, on the unspent datasets and the rows so far. Without any
sample the weights are `0 / 0`, and no error is above `error_max`. -/
def exhaustNext (sizes : ℕ → ℕ) (n : ℕ) (s : List ℕ × Blend) : Option (List ℕ × Blend) :=
  let totalSize := ∑ i ∈ Finset.range n, sizes i
  if totalSize = 0 then none
  else (s.1.argmax (s.2.error fun i => sizes i / totalSize)).map fun errorArgmax =>
    let t := s.2.take errorArgmax
    (if sizes errorArgmax = t.counts errorArgmax then s.1.erase errorArgmax else s.1, t)

/-- `build_exhaustive_blending_indices`, in at most `fuel` rounds. -/
def buildExhaustiveBlendingIndices (sizes : ℕ → ℕ) (n fuel : ℕ) : Option Blend :=
  (Loop.run (fun s => decide (s.1 ≠ [])) (exhaustNext sizes n) fuel (range n, {})).map (·.2)

/-! ## Rows and counts -/

/-- The rows have the first samples of each dataset, as many as are counted. -/
structure InOrder (n : ℕ) (s : Blend) : Prop where
  samples : ∀ i < n, samples s.rows i = range (s.counts i)
  total : ∑ i ∈ Finset.range n, s.counts i = s.rows.length

theorem InOrder.empty (n : ℕ) : InOrder n {} := ⟨fun _ _ => rfl, by simp⟩

theorem int16_eq (hn : n ≤ 2 ^ 15) (hi : i < n) : int16 i = i :=
  Int.bmod_eq_of_le (by omega) (by omega)

theorem counts_take (s : Blend) (i j : ℕ) :
    (s.take i).counts j = s.counts j + if j = i then 1 else 0 := by
  rw [take]
  dsimp only
  rw [update_apply]
  split_ifs with h
  · rw [h]
  · rfl

theorem length_take (s : Blend) (i : ℕ) : (s.take i).rows.length = s.rows.length + 1 :=
  length_append

/-- The next sample of a dataset keeps the rows in order. -/
theorem InOrder.take (hn : n ≤ 2 ^ 15) (h : InOrder n s) (hi : i < n) : InOrder n (s.take i) where
  samples j hj := by
    rw [Blend.samples, Blend.take, filter_append, map_append, int16_eq hn hi]
    change Blend.samples s.rows j ++ _ = range ((s.take i).counts j)
    rw [h.samples j hj, counts_take]
    by_cases hji : j = i <;> simp [hji, range_succ]
  total := by
    simp only [counts_take, length_take, Finset.sum_add_distrib, h.total, Finset.sum_ite_eq',
      Finset.mem_range, hi, if_true]

/-! ## Shares -/

/-- In every prefix a dataset is less than one sample ahead of its share. -/
def InShare (w : ℕ → ℚ) (n : ℕ) (rows : List (ℤ × ℕ)) : Prop :=
  ∀ i < n, ∀ m, 1 ≤ m → m ≤ rows.length →
    ((samples (rows.take m) i).length : ℚ) ≤ w i * (m - 1) + 1

/-- The errors add up to zero, or to one before the first sample, so the largest is not negative. -/
theorem error_nonneg (hw : ∑ i ∈ Finset.range n, w i = 1) (h : InOrder n s)
    (hi : (range n).argmax (s.error w) = some i) : 0 ≤ s.error w i := by
  have hmem := argmax_mem hi
  by_contra hneg
  have hsum : ∑ j ∈ Finset.range n, s.error w j < 0 := by
    refine Finset.sum_neg (fun j hj => ?_) ⟨i, Finset.mem_range.mpr (mem_range.mp hmem)⟩
    exact (le_of_mem_argmax (mem_range.mpr (Finset.mem_range.mp hj)) hi).trans_lt (not_le.mp hneg)
  have htotal : (∑ j ∈ Finset.range n, (s.counts j : ℚ)) = s.rows.length := by
    rw [← h.total, Nat.cast_sum]
  simp only [error, Finset.sum_sub_distrib, ← Finset.sum_mul, hw, htotal] at hsum
  have hmax := le_max_left (s.rows.length : ℚ) 1
  linarith

section

variable (hn : n ≤ 2 ^ 15) (hpos : ∀ i < n, 0 < w i) (hw : ∑ i ∈ Finset.range n, w i = 1)
include hn hpos hw

/-- The greedy choice keeps every dataset less than one sample ahead of its share. -/
theorem InShare.take (h : InOrder n s) (hs : InShare w n s.rows)
    (hi : (range n).argmax (s.error w) = some i) : InShare w n (s.take i).rows := by
  intro j hj m hm hle
  rw [length_take] at hle
  rcases Nat.le_succ_iff_eq_or_le.mp hle with rfl | hle
  · rw [Nat.succ_eq_add_one, take_of_length_le (length_take s i).le,
      (h.take hn (mem_range.mp (argmax_mem hi))).samples j hj, length_range, counts_take]
    push_cast
    rw [add_sub_cancel_right]
    rcases Nat.eq_zero_or_pos s.rows.length with hzero | hlen
    · have hcount := Finset.sum_eq_zero_iff.mp (h.total.trans hzero) j (Finset.mem_range.mpr hj)
      split_ifs <;> simp [hcount, hzero]
    · split_ifs with hji
      · have herror := error_nonneg hw h hi
        rw [error, max_eq_left (by exact_mod_cast hlen), ← hji] at herror
        linarith
      · have hold := hs j hj s.rows.length hlen le_rfl
        rw [List.take_length, h.samples j hj, length_range] at hold
        linarith [hpos j hj]
  · rw [Blend.take, take_append_of_le_length hle]
    exact hs j hj m hm hle

theorem exists_buildBlendingIndices (size : ℕ) :
    ∃ s, buildBlendingIndices w n size = some s ∧ s.rows.length = size ∧ InOrder n s ∧
      InShare w n s.rows := by
  induction size with
  | zero => exact ⟨{}, rfl, rfl, .empty n, fun _ _ m hm hle => absurd hle (by simp; omega)⟩
  | succ size ih =>
    obtain ⟨s, hs, hlen, h, hshare⟩ := ih
    cases hi : (range n).argmax (s.error w) with
    | none =>
      rw [argmax_eq_none, range_eq_nil] at hi
      simp [hi] at hw
    | some i =>
      refine ⟨s.take i, ?_, ?_, h.take hn (mem_range.mp (argmax_mem hi)),
        hshare.take hn hpos hw h hi⟩
      · rw [buildBlendingIndices, hs, Option.bind_eq_bind, Option.bind_some, hi]
        rfl
      · rw [length_take, hlen]

end

/-! ## The exhaustive builder -/

/-- The datasets listed are those with samples left. -/
structure Unspent (sizes : ℕ → ℕ) (n : ℕ) (s : List ℕ × Blend) : Prop where
  order : InOrder n s.2
  nodup : s.1.Nodup
  mem : ∀ i, i ∈ s.1 ↔ i < n ∧ s.2.counts i < sizes i
  le : ∀ i < n, s.2.counts i ≤ sizes i

/-- While a dataset has samples left, a turn takes one. -/
theorem Unspent.next {s : List ℕ × Blend} (hn : n ≤ 2 ^ 15) (h : Unspent sizes n s)
    (hne : s.1 ≠ []) : ∃ t, exhaustNext sizes n s = some t ∧ Unspent sizes n t ∧
      (∑ i ∈ Finset.range n, sizes i) - t.2.rows.length <
        (∑ i ∈ Finset.range n, sizes i) - s.2.rows.length := by
  have hlt : s.2.rows.length < ∑ i ∈ Finset.range n, sizes i := by
    obtain ⟨i, hi⟩ := exists_mem_of_ne_nil _ hne
    obtain ⟨hin, hcount⟩ := (h.mem i).mp hi
    rw [← h.order.total]
    exact Finset.sum_lt_sum (fun j hj => h.le j (Finset.mem_range.mp hj))
      ⟨i, Finset.mem_range.mpr hin, hcount⟩
  unfold exhaustNext
  rw [if_neg (by omega)]
  cases hi : s.1.argmax (s.2.error fun i => sizes i / ∑ i ∈ Finset.range n, sizes i) with
  | none => exact absurd (argmax_eq_none.mp hi) hne
  | some i =>
    obtain ⟨hin, hcount⟩ := (h.mem i).mp (argmax_mem hi)
    refine ⟨_, rfl, ⟨h.order.take hn hin, ?_, fun j => ?_, fun j hj => ?_⟩, ?_⟩
    · dsimp only
      split_ifs
      · exact h.nodup.erase _
      · exact h.nodup
    · dsimp only
      rw [counts_take, counts_take, if_pos rfl]
      split_ifs with hfull hji hji
      · simp [hji, h.nodup.mem_erase_iff, hfull]
      · rw [h.nodup.mem_erase_iff, h.mem]
        simp [hji]
      · rw [h.mem, hji]
        omega
      · rw [h.mem, add_zero]
    · dsimp only
      rw [counts_take]
      have hle := h.le j hj
      split_ifs with hji
      · rw [hji]
        omega
      · exact hle
    · dsimp only
      rw [length_take]
      omega

theorem exists_exhausted (hn : n ≤ 2 ^ 15) (hpos : ∀ i < n, 0 < sizes i) :
    ∃ fuel s, buildExhaustiveBlendingIndices sizes n fuel = some s ∧
      ∀ i < n, samples s.rows i = range (sizes i) := by
  have hstart : Unspent sizes n (range n, {}) :=
    ⟨.empty n, nodup_range, fun i => by simpa using hpos i, fun i _ => Nat.zero_le _⟩
  obtain ⟨t, ht⟩ := Loop.exists_run (Unspent sizes n) _
    (fun s hs hc => hs.next hn (of_decide_eq_true hc)) hstart le_rfl
  obtain ⟨h, hend⟩ := Loop.run_invariant (Unspent sizes n) (fun s u hs hc hu => by
    obtain ⟨u', hu', h, -⟩ := hs.next hn (of_decide_eq_true hc)
    exact Option.some.inj (hu.symm.trans hu') ▸ h) hstart ht
  refine ⟨_, t.2, by rw [buildExhaustiveBlendingIndices, ht]; rfl, fun i hi => ?_⟩
  have hspent : i ∉ t.1 := by simp [not_not.mp (of_decide_eq_false hend)]
  rw [h.order.samples i hi,
    (h.le i hi).antisymm (not_lt.mp fun hlt => hspent ((h.mem i).mpr ⟨hi, hlt⟩))]

theorem exhaustNext_cases {s t : List ℕ × Blend} (h : exhaustNext sizes n s = some t) :
    ∃ i, t.2 = s.2.take i ∧
      (t.1 = s.1 ∨ sizes i = s.2.counts i + 1 ∧ t.1 = s.1.erase i) := by
  unfold exhaustNext at h
  dsimp only at h
  split_ifs at h
  obtain ⟨i, -, rfl⟩ := Option.map_eq_some_iff.mp h
  refine ⟨i, rfl, ?_⟩
  simp only [Blend.take, update_self]
  split_ifs with hfull
  · exact .inr ⟨hfull, rfl⟩
  · exact .inl rfl

/-- A dataset without samples is never dropped, so the loop does not end. -/
theorem buildExhaustive_eq_none (hi : i < n) (hzero : sizes i = 0) (fuel : ℕ) :
    buildExhaustiveBlendingIndices sizes n fuel = none := by
  rw [buildExhaustiveBlendingIndices, Loop.run_eq_none (fun s => i ∈ s.1) _ _ _ (mem_range.mpr hi)]
  · rfl
  · exact fun s hs => decide_eq_true (ne_nil_of_mem hs)
  · intro s t hs ht
    obtain ⟨j, -, heq | ⟨hfull, heq⟩⟩ := exhaustNext_cases ht
    · rwa [heq]
    · rw [heq, mem_erase_of_ne]
      · exact hs
      · rintro rfl
        omega

/-- The rows of a dataset from `2 ^ 15` on have a negative number. -/
theorem samples_eq_nil {fuel : ℕ} (h : buildExhaustiveBlendingIndices sizes n fuel = some s)
    (hi : 2 ^ 15 ≤ i) : samples s.rows i = [] := by
  obtain ⟨t, ht, rfl⟩ := Option.map_eq_some_iff.mp h
  refine (Loop.run_invariant (fun s => samples s.2.rows i = []) ?_ rfl ht).1
  intro s t hs _ ht
  obtain ⟨j, heq, -⟩ := exhaustNext_cases ht
  have hlt : int16 j < 2 ^ 15 := Int.bmod_lt (by decide)
  rw [heq, samples, Blend.take, filter_append, map_append]
  change samples s.2.rows i ++ _ = _
  rw [hs, filter_cons_of_neg (by simp; omega)]
  rfl

/-- For at most `2 ^ 15` datasets, every prefix of the blending indices is in proportion to the
weights and takes the samples of a dataset in order. The exhaustive builder ends and takes each
dataset's samples once and in order iff no dataset is empty and there are at most `2 ^ 15`. -/
theorem blending_in_order (n : ℕ) :
    (n ≤ 2 ^ 15 → ∀ w : ℕ → ℚ, (∀ i < n, 0 < w i) → ∑ i ∈ Finset.range n, w i = 1 → ∀ size,
      ∃ s, buildBlendingIndices w n size = some s ∧ s.rows.length = size ∧ InShare w n s.rows ∧
        ∀ i < n, samples s.rows i = range (samples s.rows i).length) ∧
    ∀ sizes : ℕ → ℕ,
      (∃ fuel s, buildExhaustiveBlendingIndices sizes n fuel = some s ∧
        ∀ i < n, samples s.rows i = range (sizes i)) ↔ (∀ i < n, 0 < sizes i) ∧ n ≤ 2 ^ 15 := by
  refine ⟨fun hn w hpos hw size => ?_, fun sizes => ⟨?_, fun h => exists_exhausted h.2 h.1⟩⟩
  · obtain ⟨s, hs, hlen, horder, hshare⟩ := exists_buildBlendingIndices hn hpos hw size
    refine ⟨s, hs, hlen, hshare, fun i hi => ?_⟩
    rw [horder.samples i hi, length_range]
  · rintro ⟨fuel, s, hs, hall⟩
    have hpos : ∀ i < n, 0 < sizes i := by
      intro i hi
      refine pos_of_ne_zero fun hzero => ?_
      rw [buildExhaustive_eq_none hi hzero] at hs
      cases hs
    refine ⟨hpos, not_lt.mp fun hn => ?_⟩
    have hnil := (hall _ hn).symm.trans (samples_eq_nil hs le_rfl)
    exact (hpos _ hn).ne' (range_eq_nil.mp hnil)

/-- With an empty dataset the loop does not end. -/
theorem empty_dataset_loops : ¬ ∃ fuel s,
    buildExhaustiveBlendingIndices (fun i => if i = 1 then 0 else 3) 2 fuel = some s := by
  rintro ⟨fuel, s, hs⟩
  rw [buildExhaustive_eq_none Nat.one_lt_two rfl] at hs
  cases hs

end Blend

end MegatronDPU.Data
