import MegatronDPU.Lib.Raise

/-!
# Ramp-up of the batch size

`RampupBatchsizeNumMicroBatchesCalculator` raises the global batch size in equal steps from its
start to its target. Division is exact here.
-/

namespace MegatronDPU.Data

open Raise

/-- `RampupBatchsizeNumMicroBatchesCalculator`, as it is called. -/
structure RampUp where
  globalBatchSize : ℤ
  microBatchSize : ℤ
  dataParallelSize : ℤ
  decreaseBatchSizeIfNeeded : Bool
  startGlobalBatchSize : ℤ
  batchSizeIncrement : ℤ
  ramupSamples : ℤ

/-- What `update` sets. -/
structure Batches where
  currentGlobalBatchSize : ℤ
  currentRunningGlobalBatchSize : ℤ
  numMicroBatches : ℤ

/-- `a / b`. -/
def trueDiv (a b : ℚ) : Except PyError ℚ := do
  require (b ≠ 0) .zeroDivisionError
  return a / b

namespace RampUp

variable (c : RampUp)

def microBatchTimesDataParallelSize : ℤ := c.microBatchSize * c.dataParallelSize

def diffBatchSize : ℤ := c.globalBatchSize - c.startGlobalBatchSize

/-- The assertions of `__init__`. -/
def check : Except PyError Unit := do
  require (0 < c.globalBatchSize)
    (.assertionError s!"global batch size should be positive, got {c.globalBatchSize}.")
  require (0 < c.startGlobalBatchSize)
    (.assertionError s!"start batch size should be positive, got {c.startGlobalBatchSize}.")
  require (0 < c.batchSizeIncrement)
    (.assertionError s!"batch size increment should be positive, got {c.batchSizeIncrement}.")
  require (0 ≤ c.ramupSamples)
    (.assertionError s!"ramp-up samples should be non-negative, got {c.ramupSamples}.")
  require (0 < c.microBatchTimesDataParallelSize) .assertionError
  require (0 ≤ c.diffBatchSize)
    (.assertionError (s!"expected global batch size to be greater than or equal to start batch size, got {c.globalBatchSize}" ++
      s!" and {c.startGlobalBatchSize}"))
  require (c.diffBatchSize % c.batchSizeIncrement = 0)
    (.assertionError (s!"expected global batch size interval ({c.diffBatchSize}) to be " ++
      s!"divisible by global batch size increment ({c.batchSizeIncrement})"))

def numIncrements : ℤ := c.diffBatchSize / c.batchSizeIncrement

/-- The first part of `update`. The ratio is not negative, so `int` takes its floor. -/
def current (rampupSamplesPerIncrement : ℚ) (consumedSamples : ℕ) : Except PyError ℤ :=
  if c.ramupSamples < consumedSamples then .ok c.globalBatchSize
  else do
    let steps ← trueDiv consumedSamples rampupSamplesPerIncrement
    let current := c.startGlobalBatchSize + ⌊steps⌋ * c.batchSizeIncrement
    require (current ≤ c.globalBatchSize) .assertionError
    return current

/-- `_round`. -/
def round (batchSize divisor : ℤ) : ℤ := batchSize / divisor * divisor

/-- The last part of `update`. -/
def running (current : ℤ) : Except PyError ℤ :=
  if c.decreaseBatchSizeIfNeeded ∧ current % c.microBatchTimesDataParallelSize ≠ 0 then do
    let running := round current c.microBatchTimesDataParallelSize
    require (running % c.microBatchTimesDataParallelSize = 0) .assertionError
    return running
  else .ok current

/-- `update`. -/
def update (rampupSamplesPerIncrement : ℚ) (consumedSamples : ℕ) (consistencyCheck : Bool) :
    Except PyError Batches := do
  let current ← c.current rampupSamplesPerIncrement consumedSamples
  require (consistencyCheck → !c.decreaseBatchSizeIfNeeded →
      current % c.microBatchTimesDataParallelSize = 0)
    (.assertionError (s!"current global batch size ({current}) is not divisible by " ++
      s!"micro-batch-size ({c.microBatchSize}) timesdata parallel size ({c.dataParallelSize})"))
  let running ← c.running current
  return ⟨current, running, running / c.microBatchTimesDataParallelSize⟩

/-- `__init__`, and a call of `update` for each number of consumed samples. -/
def run (consumed : List ℕ) : Except PyError (List Batches) := do
  c.check
  let rampupSamplesPerIncrement ← trueDiv c.ramupSamples c.numIncrements
  (0 :: consumed).mapM (c.update rampupSamplesPerIncrement · false)

/-- No call raises, the batch size grows up to its target, and there are batches to run. -/
def Ramps : Prop :=
  ∀ consumed : List ℕ, consumed.Pairwise (· ≤ ·) → ∃ sizes, c.run consumed = .ok sizes ∧
    sizes.Pairwise (·.currentGlobalBatchSize ≤ ·.currentGlobalBatchSize) ∧
    ∀ b ∈ sizes, b.currentGlobalBatchSize ≤ c.globalBatchSize ∧ 1 ≤ b.numMicroBatches

variable {c}

theorem exists_running (hM : 0 < c.microBatchTimesDataParallelSize) (x : ℤ) :
    ∃ r, c.running x = .ok r ∧
      r / c.microBatchTimesDataParallelSize = x / c.microBatchTimesDataParallelSize := by
  unfold running
  split_ifs
  · exact ⟨_, require_bind (Int.mul_emod_left _ _), Int.mul_ediv_cancel _ hM.ne'⟩
  · exact ⟨x, rfl, rfl⟩

/-- `rampup_samples_per_increment`. -/
def perIncrement (c : RampUp) : ℚ := c.ramupSamples / c.numIncrements

/-- The batch size after `k` samples. -/
def batchSize (c : RampUp) (k : ℕ) : ℤ :=
  if c.ramupSamples < k then c.globalBatchSize
  else c.startGlobalBatchSize + ⌊k / c.perIncrement⌋ * c.batchSizeIncrement

theorem batchSize_zero (h : 0 ≤ c.ramupSamples) : c.batchSize 0 = c.startGlobalBatchSize := by
  rw [batchSize, if_neg (by simpa using h)]
  simp

/-- There is something to ramp up. -/
structure Growing (c : RampUp) : Prop where
  increment : 0 < c.batchSizeIncrement
  samples : 0 < c.ramupSamples
  steps : 0 < c.numIncrements
  target : c.startGlobalBatchSize + c.numIncrements * c.batchSizeIncrement = c.globalBatchSize

namespace Growing

variable (h : c.Growing) {j k : ℕ}
include h

theorem perIncrement_pos : 0 < c.perIncrement :=
  div_pos (Int.cast_pos.mpr h.samples) (Int.cast_pos.mpr h.steps)

theorem floor_le (hk : ¬ c.ramupSamples < k) : ⌊k / c.perIncrement⌋ ≤ c.numIncrements := by
  have hk' : (k : ℚ) ≤ c.ramupSamples := by exact_mod_cast not_lt.mp hk
  have hle : k / c.perIncrement ≤ c.numIncrements := by
    rwa [div_le_iff₀ h.perIncrement_pos, perIncrement,
      mul_div_cancel₀ _ (Int.cast_ne_zero.mpr h.steps.ne')]
  exact Int.cast_le.mp ((Int.floor_le _).trans hle)

theorem batchSize_le (k : ℕ) : c.batchSize k ≤ c.globalBatchSize := by
  unfold batchSize
  split_ifs with hk
  · exact le_rfl
  · rw [← h.target]
    exact Int.add_le_add_left (Int.mul_le_mul_of_nonneg_right (h.floor_le hk) h.increment.le) _

theorem batchSize_mono (hjk : j ≤ k) : c.batchSize j ≤ c.batchSize k := by
  by_cases hk : c.ramupSamples < k
  · exact (h.batchSize_le j).trans_eq (if_pos hk).symm
  · have hper := h.perIncrement_pos
    have hinc := h.increment
    rw [batchSize, batchSize, if_neg (by omega), if_neg hk]
    gcongr

theorem current_eq (k : ℕ) : c.current c.perIncrement k = .ok (c.batchSize k) := by
  have hle := h.batchSize_le k
  unfold current batchSize at *
  split_ifs at hle ⊢
  · rfl
  · exact bind_eq_ok.mpr ⟨_, require_bind h.perIncrement_pos.ne', require_bind hle⟩

end Growing

/-- For a configuration that is accepted, the calculator works iff the batch size is to grow, over
some samples, and its start is enough for one microbatch on each data-parallel rank. -/
theorem ramps_iff (h : c.check = .ok ()) : c.Ramps ↔
    c.startGlobalBatchSize < c.globalBatchSize ∧ 0 < c.ramupSamples ∧
      c.microBatchTimesDataParallelSize ≤ c.startGlobalBatchSize := by
  have hcheck := h
  simp only [check, require_bind_eq_ok, require_eq_ok] at hcheck
  obtain ⟨-, -, hinc, hR, hM, hdiff, hdvd⟩ := hcheck
  choose running hrunning hnum using exists_running hM
  constructor
  · -- what the construction needs
    intro hramps
    obtain ⟨sizes, hrun, -, hsizes⟩ := hramps [] .nil
    obtain ⟨-, -, hrun⟩ := bind_eq_ok.mp hrun
    obtain ⟨per, hper, hrun⟩ := bind_eq_ok.mp hrun
    obtain ⟨hn, ⟨⟩⟩ := require_bind_eq_ok.mp hper
    obtain ⟨b, _, hb, _, rfl⟩ := List.forall₂_cons_left_iff.mp (mapM_eq_ok_iff.mp hrun)
    obtain ⟨x, hx, hb⟩ := bind_eq_ok.mp hb
    obtain ⟨-, hb⟩ := require_bind_eq_ok.mp hb
    rw [hrunning] at hb
    obtain ⟨⟩ := hb
    rw [current, if_neg (by simpa using hR)] at hx
    obtain ⟨q, hq, hx⟩ := bind_eq_ok.mp hx
    obtain ⟨hper, ⟨⟩⟩ := require_bind_eq_ok.mp hq
    obtain ⟨-, ⟨⟩⟩ := require_bind_eq_ok.mp hx
    have hle := (hsizes _ List.mem_cons_self).2
    rw [hnum, Int.le_ediv_iff_mul_le hM] at hle
    refine ⟨?_, ?_, by simpa using hle⟩
    · refine sub_pos.mp (hdiff.lt_of_ne' fun h0 => hn ?_)
      rw [numIncrements, h0, Int.zero_ediv, Int.cast_zero]
    · refine hR.lt_of_ne' fun h0 => hper ?_
      rw [h0, Int.cast_zero, zero_div]
  · rintro ⟨hlt, hR, hle⟩ consumed hconsumed
    have hmul : c.numIncrements * c.batchSizeIncrement = c.diffBatchSize :=
      Int.ediv_mul_cancel (Int.dvd_of_emod_eq_zero hdvd)
    have hn : 0 < c.numIncrements :=
      pos_of_mul_pos_left (hmul ▸ sub_pos.mpr hlt) hinc.le
    have hgrow : c.Growing := ⟨hinc, hR, hn, by rw [hmul, diffBatchSize, add_sub_cancel]⟩
    let b (k : ℕ) : Batches := ⟨c.batchSize k, running (c.batchSize k),
      running (c.batchSize k) / c.microBatchTimesDataParallelSize⟩
    have hupdate (k : ℕ) : c.update c.perIncrement k false = .ok (b k) :=
      bind_eq_ok.mpr ⟨_, hgrow.current_eq k,
        require_bind_eq_ok.mpr ⟨nofun, bind_eq_ok.mpr ⟨_, hrunning _, rfl⟩⟩⟩
    have hrun : c.run consumed = .ok ((0 :: consumed).map b) := by
      refine bind_eq_ok.mpr ⟨(), h, bind_eq_ok.mpr ⟨c.perIncrement,
        require_bind (Int.cast_ne_zero.mpr hn.ne'), mapM_eq_ok_iff.mpr ?_⟩⟩
      exact List.forall₂_map_right_iff.mpr (List.forall₂_same.mpr fun k _ => hupdate k)
    refine ⟨_, hrun, ?_, ?_⟩
    · refine List.pairwise_map.mpr (List.Pairwise.imp hgrow.batchSize_mono ?_)
      exact .cons (fun _ _ => Nat.zero_le _) hconsumed
    · intro x hx
      obtain ⟨k, -, rfl⟩ := List.mem_map.mp hx
      refine ⟨hgrow.batchSize_le k, ?_⟩
      have hk := batchSize_zero hR.le ▸ hgrow.batchSize_mono k.zero_le
      refine (Int.le_ediv_of_mul_le hM ?_).trans_eq (hnum _).symm
      rw [one_mul]
      exact hle.trans hk

/-- From 4 to 8 in two steps over 100 samples. -/
theorem ramps_four_to_eight : (⟨8, 2, 2, false, 4, 2, 100⟩ : RampUp).check = .ok () ∧
      (⟨8, 2, 2, false, 4, 2, 100⟩ : RampUp).Ramps :=
  ⟨rfl, (ramps_iff rfl).mpr (by decide)⟩

/-- A start at the target is accepted, and then divides by zero. -/
theorem fixed_size_raises :
    let fixed : RampUp := ⟨8, 1, 1, false, 8, 1, 100⟩
    fixed.check = .ok () ∧ fixed.run [] = .error .zeroDivisionError :=
  ⟨rfl, rfl⟩

end RampUp

end MegatronDPU.Data
