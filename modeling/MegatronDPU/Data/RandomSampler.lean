import MegatronDPU.Lib.Batch
import MegatronDPU.Lib.Raise

/-!
# `MegatronPretrainingRandomSampler`

A pass of the sampler permutes the samples of an epoch and gives every data-parallel rank its part in
batches. With data sharding a rank permutes its own bucket. Without it the ranks take turns in one
permutation, which is rounded to the micro batch size but not to the global batch.

The permutation of an epoch is a parameter.
-/

namespace MegatronDPU.Data

open Batch Raise List

/-- `MegatronPretrainingRandomSampler`. -/
structure RandomSampler where
  totalSamples : ℕ
  consumedSamples : ℕ
  microBatchSize : ℕ
  dataParallelRank : ℕ
  dataParallelSize : ℕ
  dataSharding : Bool

namespace RandomSampler

variable (s : RandomSampler) (randperm : ℕ → ℕ → List ℕ)

def microBatchTimesDataParallelSize : ℕ := s.microBatchSize * s.dataParallelSize

def lastBatchSize : ℕ := s.totalSamples % s.microBatchTimesDataParallelSize

/-- `__init__`, where `last_batch_size` is computed before the checks. -/
def check : Except PyError Unit := do
  require (s.microBatchTimesDataParallelSize ≠ 0) .zeroDivisionError
  require (0 < s.totalSamples) (.assertionError ("no sample to consume: " ++ toString s.totalSamples))
  require (0 < s.microBatchSize) .assertionError
  require (0 < s.dataParallelSize) .assertionError
  require (s.dataParallelRank < s.dataParallelSize) (.assertionError
    ("data_parallel_rank should be smaller than data size: " ++ toString s.dataParallelRank ++ ", " ++
      toString s.dataParallelSize))

def activeTotalSamples : ℕ := s.totalSamples - s.lastBatchSize

def epoch : ℕ := s.consumedSamples / s.activeTotalSamples

def currentEpochSamples : ℕ := s.consumedSamples % s.activeTotalSamples

/-- The samples of the rank that are left in the epoch, in their random order. -/
def idxRange : List ℕ :=
  if s.dataSharding then
    let bucketSize := s.totalSamples / s.microBatchTimesDataParallelSize * s.microBatchSize
    let bucketOffset := s.currentEpochSamples / s.dataParallelSize
    let startIdx := s.dataParallelRank * bucketSize
    ((randperm s.epoch bucketSize).drop bucketOffset).map (startIdx + ·)
  else
    let fullBucketSize := s.totalSamples / s.microBatchSize * s.microBatchSize
    let fullBucketOffset := s.currentEpochSamples
    every s.dataParallelSize s.dataParallelRank
      ((randperm s.epoch fullBucketSize).drop fullBucketOffset)

/-- `__iter__` to its end: the batches, and `consumed_samples` after them. -/
def iter : Except PyError (List (List ℕ) × ℕ) := do
  s.check
  require (s.activeTotalSamples ≠ 0) .zeroDivisionError
  require (s.currentEpochSamples % s.microBatchTimesDataParallelSize = 0) .assertionError
  let yielded := batches s.microBatchSize (s.idxRange randperm)
  return (yielded, s.consumedSamples + yielded.length * s.microBatchTimesDataParallelSize)

/-! ## A pass -/

section Pass

variable {randperm : ℕ → ℕ → List ℕ} {total consumed mbs rank dp k : ℕ} {sharding : Bool}

/-- The number of global batches of an epoch, and of those before the position in the epoch. -/
def epochBatches (s : RandomSampler) : ℕ := s.totalSamples / s.microBatchTimesDataParallelSize

/-- The global batches consumed in the current epoch. -/
def consumedBatches (s : RandomSampler) : ℕ :=
  s.currentEpochSamples / s.microBatchTimesDataParallelSize

variable {s : RandomSampler}

theorem activeTotalSamples_eq :
    s.activeTotalSamples = s.microBatchTimesDataParallelSize * s.epochBatches := by
  have h := Nat.div_add_mod s.totalSamples s.microBatchTimesDataParallelSize
  unfold activeTotalSamples lastBatchSize epochBatches
  omega

/-- A sampler that was constructed. -/
structure Started (s : RandomSampler) : Prop where
  micro_pos : 0 < s.microBatchSize
  size_pos : 0 < s.dataParallelSize
  rank_lt : s.dataParallelRank < s.dataParallelSize
  enough : s.microBatchTimesDataParallelSize ≤ s.totalSamples
  aligned : s.microBatchTimesDataParallelSize ∣ s.consumedSamples

namespace Started

variable (h : s.Started)

include h

theorem global_pos : 0 < s.microBatchTimesDataParallelSize := mul_pos h.micro_pos h.size_pos

theorem epochBatches_pos : 0 < s.epochBatches := Nat.div_pos h.enough h.global_pos

theorem active_pos : 0 < s.activeTotalSamples := by
  rw [activeTotalSamples_eq]
  exact mul_pos h.global_pos h.epochBatches_pos

theorem current_eq :
    s.currentEpochSamples = s.microBatchTimesDataParallelSize * s.consumedBatches := by
  have hdvd : s.microBatchTimesDataParallelSize ∣ s.currentEpochSamples := by
    refine (Nat.dvd_mod_iff ?_).mpr h.aligned
    rw [activeTotalSamples_eq]
    exact dvd_mul_right _ _
  exact (Nat.mul_div_cancel' hdvd).symm

theorem consumedBatches_lt : s.consumedBatches < s.epochBatches := by
  have hlt : s.currentEpochSamples < s.activeTotalSamples := Nat.mod_lt _ h.active_pos
  rw [h.current_eq, activeTotalSamples_eq] at hlt
  exact Nat.lt_of_mul_lt_mul_left hlt

theorem iter_eq : s.iter randperm =
    .ok (batches s.microBatchSize (s.idxRange randperm), s.consumedSamples +
      (batches s.microBatchSize (s.idxRange randperm)).length * s.microBatchTimesDataParallelSize) := by
  have htotal : 0 < s.totalSamples := h.global_pos.trans_le h.enough
  have hmod : s.currentEpochSamples % s.microBatchTimesDataParallelSize = 0 := by
    rw [h.current_eq, Nat.mul_mod_right]
  have hcheck : s.check = .ok () := by
    unfold check
    rw [require_bind h.global_pos.ne', require_bind htotal, require_bind h.micro_pos,
      require_bind h.size_pos, require,
      if_pos h.rank_lt]
  unfold iter
  rw [hcheck]
  rw [require_bind h.active_pos.ne', require_bind hmod]
  rfl

variable (randperm) in
theorem exists_iter :
    ∃ c, s.iter randperm = .ok (batches s.microBatchSize (s.idxRange randperm), c) := ⟨_, h.iter_eq⟩

theorem length_sharded (hperm : ∀ e n, (randperm e n).Perm (range n))
    (hshard : s.dataSharding = true) :
    (batches s.microBatchSize (s.idxRange randperm)).length =
      s.epochBatches - s.consumedBatches := by
  have hoffset : s.currentEpochSamples / s.dataParallelSize =
      s.consumedBatches * s.microBatchSize := by
    rw [h.current_eq, microBatchTimesDataParallelSize, mul_right_comm,
      Nat.mul_div_cancel _ h.size_pos, mul_comm]
  rw [length_batches h.micro_pos, idxRange, if_pos hshard]
  simp only [length_map, length_drop, (hperm _ _).length_eq, length_range, hoffset]
  rw [← Nat.sub_mul, Nat.mul_div_cancel _ h.micro_pos]
  rfl

theorem length_unsharded (hperm : ∀ e n, (randperm e n).Perm (range n))
    (hshard : s.dataSharding = false) :
    (batches s.microBatchSize (s.idxRange randperm)).length =
      s.epochBatches - s.consumedBatches +
        (s.totalSamples / s.microBatchSize % s.dataParallelSize * s.microBatchSize +
          (s.dataParallelSize - 1 - s.dataParallelRank)) / s.microBatchTimesDataParallelSize := by
  have hlt := h.consumedBatches_lt
  have hrank := h.rank_lt
  -- the size of the permuted range
  have hfull : s.totalSamples / s.microBatchSize * s.microBatchSize =
      s.microBatchTimesDataParallelSize * s.epochBatches +
        s.totalSamples / s.microBatchSize % s.dataParallelSize * s.microBatchSize := by
    have hdiv := Nat.div_add_mod (s.totalSamples / s.microBatchSize) s.dataParallelSize
    rw [Nat.div_div_eq_div_mul] at hdiv
    conv_lhs => rw [← hdiv]
    rw [microBatchTimesDataParallelSize, epochBatches, microBatchTimesDataParallelSize]
    ring
  have hle : s.microBatchTimesDataParallelSize * s.consumedBatches ≤
      s.microBatchTimesDataParallelSize * s.epochBatches := Nat.mul_le_mul_left _ hlt.le
  have hsub : s.microBatchTimesDataParallelSize * (s.epochBatches - s.consumedBatches) =
      s.microBatchTimesDataParallelSize * s.epochBatches -
        s.microBatchTimesDataParallelSize * s.consumedBatches := Nat.mul_sub _ _ _
  have hone : s.microBatchTimesDataParallelSize ≤
      s.microBatchTimesDataParallelSize * (s.epochBatches - s.consumedBatches) :=
    Nat.le_mul_of_pos_right _ (by omega)
  have hsize : s.dataParallelSize ≤ s.microBatchTimesDataParallelSize :=
    Nat.le_mul_of_pos_left _ h.micro_pos
  rw [length_batches h.micro_pos, idxRange, if_neg (by rw [hshard]; decide)]
  rw [length_every h.size_pos, Nat.div_div_eq_div_mul, mul_comm s.dataParallelSize]
  simp only [length_drop, (hperm _ _).length_eq, length_range, hfull, h.current_eq]
  rw [← Nat.mul_add_div h.global_pos]
  rw [← microBatchTimesDataParallelSize]
  congr 1
  omega

omit h in
theorem consumed_after (h : s.Started) (hk : k < s.epochBatches - s.consumedBatches) :
    (s.consumedSamples + k * s.microBatchTimesDataParallelSize) / s.activeTotalSamples = s.epoch ∧
      (s.consumedSamples + k * s.microBatchTimesDataParallelSize) % s.activeTotalSamples =
        s.currentEpochSamples + k * s.microBatchTimesDataParallelSize := by
  have hlt : s.currentEpochSamples + k * s.microBatchTimesDataParallelSize <
      s.activeTotalSamples := by
    rw [h.current_eq, activeTotalSamples_eq, mul_comm k, ← mul_add]
    exact Nat.mul_lt_mul_of_pos_left (by omega) h.global_pos
  have hsplit : s.consumedSamples + k * s.microBatchTimesDataParallelSize =
      s.currentEpochSamples + k * s.microBatchTimesDataParallelSize +
        s.activeTotalSamples * s.epoch := by
    have hdiv := Nat.div_add_mod s.consumedSamples s.activeTotalSamples
    unfold currentEpochSamples epoch
    omega
  rw [hsplit, Nat.add_mul_div_left _ _ h.active_pos, Nat.add_mul_mod_self_left,
    Nat.div_eq_of_lt hlt, Nat.mod_eq_of_lt hlt, zero_add]
  exact ⟨rfl, rfl⟩

variable (randperm) in
theorem batches_after (hk : k < s.epochBatches - s.consumedBatches) :
    batches s.microBatchSize (idxRange { s with
        consumedSamples := s.consumedSamples + k * s.microBatchTimesDataParallelSize } randperm) =
      (batches s.microBatchSize (s.idxRange randperm)).drop k := by
  obtain ⟨hepoch, hcurrent⟩ := h.consumed_after hk
  have hepoch' : epoch { s with
      consumedSamples := s.consumedSamples + k * s.microBatchTimesDataParallelSize } = s.epoch :=
    hepoch
  have hcurrent' : currentEpochSamples { s with
      consumedSamples := s.consumedSamples + k * s.microBatchTimesDataParallelSize } =
      s.currentEpochSamples + k * s.microBatchTimesDataParallelSize := hcurrent
  have hglobal : microBatchTimesDataParallelSize { s with
      consumedSamples := s.consumedSamples + k * s.microBatchTimesDataParallelSize } =
      s.microBatchTimesDataParallelSize := rfl
  rw [drop_batches h.micro_pos]
  congr 1
  unfold idxRange
  simp only [hepoch', hcurrent', hglobal]
  cases s.dataSharding with
  | true =>
    simp only [if_true]
    have hdiv : (s.currentEpochSamples + k * s.microBatchTimesDataParallelSize) /
        s.dataParallelSize = s.currentEpochSamples / s.dataParallelSize + k * s.microBatchSize := by
      rw [microBatchTimesDataParallelSize, ← mul_assoc, Nat.add_mul_div_right _ _ h.size_pos]
    rw [hdiv, ← map_drop, drop_drop]
  | false =>
    simp only [Bool.false_eq_true, if_false]
    rw [← every_drop h.size_pos, drop_drop, microBatchTimesDataParallelSize, mul_assoc]

theorem idxRange_spec (hperm : ∀ e n, (randperm e n).Perm (range n)) :
    (s.idxRange randperm).Nodup ∧ ∀ x ∈ s.idxRange randperm, x < s.totalSamples := by
  have hnd : ∀ e n, (randperm e n).Nodup := fun e n => (hperm e n).nodup_iff.mpr nodup_range
  have hlt : ∀ {e n x : ℕ}, x ∈ randperm e n → x < n := fun hx =>
    mem_range.mp ((hperm _ _).mem_iff.mp hx)
  unfold idxRange
  cases s.dataSharding with
  | true =>
    simp only [if_true]
    refine ⟨((hnd _ _).sublist (drop_sublist _ _)).map (add_right_injective _), ?_⟩
    intro x hx
    obtain ⟨y, hy, rfl⟩ := mem_map.mp hx
    have hy' := hlt (mem_of_mem_drop hy)
    calc s.dataParallelRank * (s.totalSamples / s.microBatchTimesDataParallelSize *
          s.microBatchSize) + y
      _ < s.dataParallelRank * (s.totalSamples / s.microBatchTimesDataParallelSize *
          s.microBatchSize) + s.totalSamples / s.microBatchTimesDataParallelSize *
          s.microBatchSize := Nat.add_lt_add_left hy' _
      _ = (s.dataParallelRank + 1) * (s.totalSamples / s.microBatchTimesDataParallelSize *
          s.microBatchSize) := (Nat.succ_mul _ _).symm
      _ ≤ s.dataParallelSize * (s.totalSamples / s.microBatchTimesDataParallelSize *
          s.microBatchSize) := Nat.mul_le_mul_right _ h.rank_lt
      _ = s.totalSamples / s.microBatchTimesDataParallelSize *
          s.microBatchTimesDataParallelSize := by
        rw [microBatchTimesDataParallelSize]
        ring
      _ ≤ s.totalSamples := Nat.div_mul_le_self _ _
  | false =>
    simp only [Bool.false_eq_true, if_false]
    refine ⟨nodup_every h.size_pos ((hnd _ _).sublist (drop_sublist _ _)), fun x hx => ?_⟩
    exact (hlt (mem_of_mem_drop (Move.mem_of_mem_gather hx))).trans_le (Nat.div_mul_le_self _ _)

end Started

theorem idxRange_disjoint (hperm : ∀ e n, (randperm e n).Perm (range n)) {rank' : ℕ}
    (hrank : rank < dp) (hrank' : rank' < dp) (hne : rank ≠ rank') :
    Disjoint (idxRange ⟨total, consumed, mbs, rank, dp, sharding⟩ randperm)
      (idxRange ⟨total, consumed, mbs, rank', dp, sharding⟩ randperm) := by
  cases sharding with
  | true =>
    intro x hx hx'
    obtain ⟨y, hy, rfl⟩ := mem_map.mp hx
    obtain ⟨z, hz, heq⟩ := mem_map.mp hx'
    -- both samples would lie in the buckets of both ranks
    have hylt := mem_range.mp ((hperm _ _).mem_iff.mp (mem_of_mem_drop hy))
    have hzlt := mem_range.mp ((hperm _ _).mem_iff.mp (mem_of_mem_drop hz))
    have hbucket : 0 < total / (mbs * dp) * mbs := Nat.zero_lt_of_lt hylt
    have hdiv := congrArg (· / (total / (mbs * dp) * mbs)) heq
    simp only [microBatchTimesDataParallelSize] at hdiv hylt hzlt
    rw [mul_comm rank, mul_comm rank', Nat.mul_add_div hbucket, Nat.mul_add_div hbucket,
      Nat.div_eq_of_lt hylt, Nat.div_eq_of_lt hzlt] at hdiv
    exact hne hdiv.symm
  | false =>
    refine every_disjoint (List.Nodup.sublist (drop_sublist _ _) ?_) hrank hrank' hne
    exact (hperm _ _).nodup_iff.mpr nodup_range

theorem leftover_div (total : ℕ) (hmbs : 0 < mbs) (hdp : 0 < dp) :
    (total / mbs % dp * mbs ≤ (mbs - 1) * dp → ∀ r,
      (total / mbs % dp * mbs + (dp - 1 - r)) / (mbs * dp) = 0) ∧
    (¬ total / mbs % dp * mbs ≤ (mbs - 1) * dp →
      0 < (total / mbs % dp * mbs + (dp - 1 - 0)) / (mbs * dp)) ∧
    (total / mbs % dp * mbs + (dp - 1 - (dp - 1))) / (mbs * dp) = 0 := by
  have hmul : mbs * dp = (mbs - 1) * dp + dp := by
    rw [← Nat.succ_mul, Nat.succ_eq_add_one, Nat.sub_add_cancel hmbs]
  refine ⟨fun hle r => Nat.div_eq_of_lt (by omega), fun hgt => Nat.div_pos (by omega) (by omega), ?_⟩
  have hlt : total / mbs % dp * mbs < dp * mbs :=
    Nat.mul_lt_mul_of_pos_right (Nat.mod_lt _ hdp) hmbs
  rw [Nat.sub_self, add_zero, mul_comm mbs]
  exact Nat.div_eq_of_lt hlt

/-- In every configuration and from every global batch on: the ranks have passes of equal length, of
different samples of the data, and a fresh sampler at a later global batch of the pass gives what is
left of it, iff the samples are sharded or those left over make no batch. -/
theorem pass_agrees_iff (hperm : ∀ e n, (randperm e n).Perm (range n)) (hmbs : 0 < mbs)
    (hdp : 0 < dp) (htotal : mbs * dp ≤ total) (hconsumed : mbs * dp ∣ consumed) :
    (∃ pass : ℕ → List (List ℕ),
      (∀ r < dp, ∃ c, iter ⟨total, consumed, mbs, r, dp, sharding⟩ randperm = .ok (pass r, c)) ∧
      (∀ r < dp, ∀ r' < dp, (pass r).length = (pass r').length) ∧
      ((range dp).flatMap fun r => (pass r).flatten).Nodup ∧
      (∀ r < dp, ∀ batch ∈ pass r, batch.length = mbs ∧ ∀ x ∈ batch, x < total) ∧
      ∀ r < dp, ∀ k < (pass r).length, ∃ c,
        iter ⟨total, consumed + k * (mbs * dp), mbs, r, dp, sharding⟩ randperm =
          .ok ((pass r).drop k, c)) ↔
    sharding = true ∨ total / mbs % dp * mbs ≤ (mbs - 1) * dp := by
  have hstart : ∀ r < dp, ∀ k, Started ⟨total, consumed + k * (mbs * dp), mbs, r, dp, sharding⟩ :=
    fun r hr k => ⟨hmbs, hdp, hr, htotal, hconsumed.add (dvd_mul_left _ _)⟩
  have hstarted : ∀ r < dp, Started ⟨total, consumed, mbs, r, dp, sharding⟩ :=
    fun r hr => ⟨hmbs, hdp, hr, htotal, hconsumed⟩
  obtain ⟨hnone, hfirst, hlast⟩ := leftover_div total hmbs hdp
  constructor
  · rintro ⟨pass, hpass, hlen, -⟩
    by_contra hcond
    rw [not_or, Bool.not_eq_true] at hcond
    have hlength : ∀ r < dp, (pass r).length =
        (batches mbs (idxRange ⟨total, consumed, mbs, r, dp, sharding⟩ randperm)).length := by
      intro r hr
      obtain ⟨c, hc⟩ := hpass r hr
      rw [(hstarted r hr).iter_eq] at hc
      rw [← (Prod.mk.inj (Except.ok.inj hc)).1]
    -- the first rank has a batch more than the last one
    have hzero := (hstarted 0 hdp).length_unsharded hperm hcond.1
    have hend := (hstarted (dp - 1) (by omega)).length_unsharded hperm hcond.1
    have heq := hlen 0 hdp (dp - 1) (by omega)
    rw [hlength 0 hdp, hlength (dp - 1) (by omega)] at heq
    have hpos := hfirst hcond.2
    change _ = epochBatches _ - consumedBatches _ +
      (total / mbs % dp * mbs + (dp - 1 - 0)) / (mbs * dp) at hzero
    change _ = epochBatches ⟨total, consumed, mbs, 0, dp, sharding⟩ -
      consumedBatches ⟨total, consumed, mbs, 0, dp, sharding⟩ +
      (total / mbs % dp * mbs + (dp - 1 - (dp - 1))) / (mbs * dp) at hend
    rw [hzero, hend, hlast] at heq
    exact hpos.ne' (add_left_cancel heq)
  · intro hcond
    have hlength : ∀ r (hr : r < dp),
        (batches mbs (idxRange ⟨total, consumed, mbs, r, dp, sharding⟩ randperm)).length =
          epochBatches ⟨total, consumed, mbs, r, dp, sharding⟩ -
            consumedBatches ⟨total, consumed, mbs, r, dp, sharding⟩ := by
      intro r hr
      cases hshard : sharding with
      | true => exact hshard ▸ (hstarted r hr).length_sharded hperm hshard
      | false =>
        have hle := hcond.resolve_left (by rw [hshard]; decide)
        have hl := (hstarted r hr).length_unsharded hperm hshard
        change _ = _ + (total / mbs % dp * mbs + (dp - 1 - r)) / (mbs * dp) at hl
        rw [hnone hle r, add_zero, hshard] at hl
        exact hl
    refine ⟨fun r => batches mbs (idxRange ⟨total, consumed, mbs, r, dp, sharding⟩ randperm),
      fun r hr => (hstarted r hr).exists_iter randperm, fun r hr r' hr' => ?_, ?_,
      fun r hr batch hb => ?_,
      fun r hr k hk => ?_⟩
    · exact (hlength r hr).trans (hlength r' hr').symm
    · refine nodup_flatMap.mpr ⟨fun r hr => ?_, ?_⟩
      · exact ((hstarted r (mem_range.mp hr)).idxRange_spec hperm).1.sublist
          (flatten_batches hmbs _).sublist
      · refine nodup_range.imp_of_mem fun {r r'} hr hr' hne x hx hx' => ?_
        exact idxRange_disjoint hperm (mem_range.mp hr) (mem_range.mp hr') hne
          ((flatten_batches hmbs _).subset hx) ((flatten_batches hmbs _).subset hx')
    · refine ⟨length_of_mem_batches hmbs hb, fun x hx => ?_⟩
      exact ((hstarted r hr).idxRange_spec hperm).2 x
        ((flatten_batches hmbs _).subset (mem_flatten.mpr ⟨batch, hb, hx⟩))
    · obtain ⟨c, hc⟩ := (hstart r hr k).exists_iter randperm
      have hafter : batches mbs (idxRange ⟨total, consumed + k * (mbs * dp), mbs, r, dp, sharding⟩
          randperm) = _ :=
        (hstarted r hr).batches_after randperm (by rw [← hlength r hr]; exact hk)
      refine ⟨c, hc.trans ?_⟩
      rw [hafter]

/-- Three global batches of two ranks, the first of them consumed. -/
theorem pass_agrees_iff_sharded : ∃ pass : ℕ → List (List ℕ), (∀ r < 2, ∃ c,
      iter ⟨13, 4, 2, r, 2, true⟩ (fun _ n => range n) = .ok (pass r, c)) ∧
      (∀ r < 2, ∀ r' < 2, (pass r).length = (pass r').length) ∧
      ((range 2).flatMap fun r => (pass r).flatten).Nodup ∧
      (∀ r < 2, ∀ batch ∈ pass r, batch.length = 2 ∧ ∀ x ∈ batch, x < 13) ∧
      ∀ r < 2, ∀ k < (pass r).length, ∃ c,
        iter ⟨13, 4 + k * (2 * 2), 2, r, 2, true⟩ (fun _ n => range n) =
          .ok ((pass r).drop k, c) :=
  (pass_agrees_iff (fun _ _ => .refl _) (by decide) (by decide) (by decide) (by decide)).mpr
    (.inl rfl)

/-- Three samples for two ranks without sharding: the first rank gets two batches, the second
one. -/
theorem first_rank_gets_more :
    (iter ⟨3, 0, 1, 0, 2, false⟩ fun _ n => range n).toOption = some ([[0], [2]], 4) ∧
      (iter ⟨3, 0, 1, 1, 2, false⟩ fun _ n => range n).toOption = some ([[1]], 2) :=
  ⟨rfl, rfl⟩

end Pass

end RandomSampler

end MegatronDPU.Data
