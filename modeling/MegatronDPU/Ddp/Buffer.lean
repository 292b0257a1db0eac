import MegatronDPU.Lib.Dict
import MegatronDPU.Lib.Raise

/-!
# Parameter and gradient buffers

`_ParamAndGradBuffer` lays the parameters of one type out in one buffer and cuts it into buckets.
It walks over the parameters twice: the first pass fixes the positions and the bucket of each
parameter, the second makes the buckets and asserts that it finds the positions of the first.
`layout_foldl` and `closeRemaining_spec` say what the first pass leaves.
-/

namespace MegatronDPU.Ddp

open Raise List

/-- `torch.dtype`. -/
inductive Dtype
  | float32
  | float16
  | bfloat16
  | uint8
  | other (name : String)
  deriving DecidableEq

/-- `torch.nn.Parameter`; `id` is the identity of the object. -/
structure Param where
  id : ℕ
  numel : ℕ
  dtype : Dtype := .bfloat16
  isFloat8tensor : Bool := false
  requiresGrad : Bool := true
  allreduce : Bool := true
  sharedEmbedding : Bool := false
  deriving DecidableEq

/-- What `DistributedDataParallel` reads of the `TransformerConfig` of the model. -/
structure TransformerConfig where
  calculatePerTokenLoss : Bool := false

/-- `DistributedDataParallelConfig`, with the config that `DistributedDataParallel` is given
beside it. -/
structure DdpConfig extends TransformerConfig where
  averageInCollective : Bool := false
  useDpuReduce : Bool := false
  overlapGradReduce : Bool := false
  useDistributedOptimizer : Bool := false
  gradReduceInFp32 : Bool := false
  bucketSize : Option ℕ := none
  padBucketsForHighNcclBusbw : Bool := false

/-- Gradients are averaged by BytePS. -/
def DdpConfig.byteps : DdpConfig := { averageInCollective := true, useDpuReduce := true }

/-- `_ParamAndGradBucket`; `numel` is the length of its view. -/
structure Bucket where
  params : List Param
  offset : ℕ
  numel : ℕ
  numelUnpadded : ℕ
  gradientScalingFactor : ℚ
  bucketId : ℕ
  deriving DecidableEq

/-- An entry of `param_index_map`. -/
structure Slot where
  paramStartIndex : ℕ
  paramEndIndex : ℕ
  bucketId : ℕ

/-! ## Padding -/

/-- `int(math.ceil(n / divisor) * divisor)`, exact for all sizes below `2 ^ 53`. -/
def pad (numberToBePadded divisor : ℕ) : ℕ :=
  (numberToBePadded + divisor - 1) / divisor * divisor

/-- What the end of a bucket is padded to. -/
def bucketSizeDivisor (cfg : DdpConfig) (dpSize : ℕ) : ℕ :=
  if cfg.padBucketsForHighNcclBusbw then (dpSize.lcm 128).lcm (2 ^ 16) else dpSize.lcm 128

/-- `_pad_end_of_bucket_if_needed`. -/
def padEndOfBucketIfNeeded (cfg : DdpConfig) (dpSize bucketEndIndex : ℕ) : ℕ :=
  if cfg.useDistributedOptimizer then pad bucketEndIndex (bucketSizeDivisor cfg dpSize)
  else bucketEndIndex

/-- `_pad_start_of_param_if_needed`. -/
def padStartOfParamIfNeeded (cfg : DdpConfig) (paramStartIndex : ℕ) : ℕ :=
  if cfg.useDistributedOptimizer then pad paramStartIndex 64 else paramStartIndex

theorem le_pad {d : ℕ} (hd : 0 < d) (n : ℕ) : n ≤ pad n d := by
  have h := Nat.div_add_mod (n + d - 1) d
  have hlt := Nat.mod_lt (n + d - 1) hd
  unfold pad
  rw [mul_comm]
  omega

theorem dvd_pad (n d : ℕ) : d ∣ pad n d := dvd_mul_left _ _

theorem pad_of_dvd {n d : ℕ} (hd : 0 < d) (h : d ∣ n) : pad n d = n := by
  obtain ⟨k, rfl⟩ := h
  have hk : (d * k + d - 1) / d = k := by
    rw [Nat.add_sub_assoc hd, Nat.mul_add_div hd, Nat.div_eq_of_lt (by omega), add_zero]
  rw [pad, hk, mul_comm]

section Padding

variable {cfg : DdpConfig} {dpSize : ℕ} (hdp : 0 < dpSize) (n : ℕ)

include hdp

theorem bucketSizeDivisor_pos : 0 < bucketSizeDivisor cfg dpSize := by
  have h := Nat.lcm_pos hdp (show 0 < 128 by decide)
  unfold bucketSizeDivisor
  split_ifs
  · exact Nat.lcm_pos h (by decide)
  · exact h

omit hdp in
theorem lcm_dvd_bucketSizeDivisor : dpSize.lcm 128 ∣ bucketSizeDivisor cfg dpSize := by
  unfold bucketSizeDivisor
  split_ifs
  · exact Nat.dvd_lcm_left _ _
  · exact dvd_rfl

omit hdp in
theorem dvd_padEnd (h : cfg.useDistributedOptimizer = true) {d : ℕ}
    (hd : d ∣ bucketSizeDivisor cfg dpSize) : d ∣ padEndOfBucketIfNeeded cfg dpSize n := by
  rw [padEndOfBucketIfNeeded, if_pos h]
  exact hd.trans (dvd_pad _ _)

theorem le_padEnd : n ≤ padEndOfBucketIfNeeded cfg dpSize n := by
  unfold padEndOfBucketIfNeeded
  split_ifs
  · exact le_pad (bucketSizeDivisor_pos hdp) n
  · exact le_rfl

theorem padEnd_padEnd : padEndOfBucketIfNeeded cfg dpSize (padEndOfBucketIfNeeded cfg dpSize n) =
    padEndOfBucketIfNeeded cfg dpSize n := by
  by_cases h : cfg.useDistributedOptimizer = true
  · have hd := dvd_padEnd n h (dvd_refl (bucketSizeDivisor cfg dpSize))
    rw [padEndOfBucketIfNeeded, if_pos h, pad_of_dvd (bucketSizeDivisor_pos hdp) hd]
  · rw [padEndOfBucketIfNeeded, if_neg h]

omit hdp in
theorem le_padStart : n ≤ padStartOfParamIfNeeded cfg n := by
  unfold padStartOfParamIfNeeded
  split_ifs
  · exact le_pad (by decide) n
  · exact le_rfl

omit hdp in
/-- The end of a bucket is a start of a parameter: `64` divides `128`. -/
theorem padStart_padEnd : padStartOfParamIfNeeded cfg (padEndOfBucketIfNeeded cfg dpSize n) =
    padEndOfBucketIfNeeded cfg dpSize n := by
  by_cases h : cfg.useDistributedOptimizer = true
  · have h64 : 64 ∣ bucketSizeDivisor cfg dpSize :=
      (show 64 ∣ 128 by decide).trans
        ((Nat.dvd_lcm_right dpSize 128).trans lcm_dvd_bucketSizeDivisor)
    rw [padStartOfParamIfNeeded, if_pos h, pad_of_dvd (by decide) (dvd_padEnd n h h64)]
  · rw [padStartOfParamIfNeeded, if_neg h]

end Padding

/-! ## The first pass -/

/-- The variables of the first loop of the constructor. -/
structure Layout where
  paramStartIndex : ℕ := 0
  paramEndIndex : ℕ := 0
  bucketStartIndex : ℕ := 0
  bucketEndIndex : Option ℕ := none
  bucketParams : List Param := []
  bucketIndices : List (ℕ × ℕ) := []
  perBucketNumelUnpadded : List ℕ := []
  bucketId : ℕ := 0
  paramIndexMap : Dict Param Slot := .empty

/-- `_update_bucket_metadata`. The index it returns is the new `bucketStartIndex`. -/
def updateBucketMetadata (cfg : DdpConfig) (dpSize : ℕ) (s : Layout) (paramEndIndex : ℕ) : Layout :=
  let bucketEndIndex := padEndOfBucketIfNeeded cfg dpSize paramEndIndex
  { s with
    perBucketNumelUnpadded := s.perBucketNumelUnpadded ++ [paramEndIndex - s.bucketStartIndex]
    bucketIndices := s.bucketIndices ++ [(s.bucketStartIndex, bucketEndIndex)]
    bucketStartIndex := bucketEndIndex
    bucketParams := []
    bucketId := s.bucketId + 1 }

/-- `_does_param_require_new_bucket`. -/
def doesParamRequireNewBucket (cfg : DdpConfig) (p : Param) : Bool :=
  p.sharedEmbedding && cfg.useDistributedOptimizer

/-- The start of the parameter; a parameter that needs its own bucket ends the one before. -/
def startParam (cfg : DdpConfig) (dpSize : ℕ) (s : Layout) (p : Param) : Layout :=
  let s := { s with paramStartIndex := padStartOfParamIfNeeded cfg s.paramStartIndex }
  if doesParamRequireNewBucket cfg p = true ∧ 0 < s.bucketParams.length then
    let s := updateBucketMetadata cfg dpSize s s.paramStartIndex
    { s with paramStartIndex := s.bucketStartIndex }
  else s

/-- Gives the parameter its range. -/
def placeParam (s : Layout) (p : Param) : Layout :=
  let paramEndIndex := s.paramStartIndex + p.numel
  { s with
    paramEndIndex := paramEndIndex
    paramIndexMap := s.paramIndexMap.set p ⟨s.paramStartIndex, paramEndIndex, s.bucketId⟩
    bucketParams := s.bucketParams ++ [p] }

/-- The bucket has enough elements, or the parameter stays alone. -/
def fillsBucket (cfg : DdpConfig) (bucketSize : Option ℕ) (s : Layout) (p : Param) : Bool :=
  bucketSize.any (· ≤ s.paramEndIndex - s.bucketStartIndex) || doesParamRequireNewBucket cfg p

/-- Ends the bucket at the end of the last parameter. -/
def closeBucket (cfg : DdpConfig) (dpSize : ℕ) (s : Layout) : Layout :=
  let s := updateBucketMetadata cfg dpSize s s.paramEndIndex
  { s with bucketEndIndex := some s.bucketStartIndex }

/-- Closes the bucket that the parameter has filled. -/
def endParam (cfg : DdpConfig) (dpSize : ℕ) (bucketSize : Option ℕ) (s : Layout) (p : Param) :
    Layout :=
  if fillsBucket cfg bucketSize s p then
    let s := closeBucket cfg dpSize s
    { s with paramStartIndex := s.bucketStartIndex }
  else { s with paramStartIndex := s.paramEndIndex }

/-- A round of the first loop. -/
def layoutStep (cfg : DdpConfig) (dpSize : ℕ) (bucketSize : Option ℕ) (s : Layout) (p : Param) :
    Layout :=
  endParam cfg dpSize bucketSize (placeParam (startParam cfg dpSize s p) p) p

def closeRemaining (cfg : DdpConfig) (dpSize : ℕ) (s : Layout) : Layout :=
  if 0 < s.bucketParams.length then closeBucket cfg dpSize s else s

/-- The first loop, over the parameters from the last to the first. -/
def layout (cfg : DdpConfig) (dpSize : ℕ) (bucketSize : Option ℕ) (params : List Param) : Layout :=
  closeRemaining cfg dpSize (params.reverse.foldl (layoutStep cfg dpSize bucketSize) {})

/-! ## The second pass -/

/-- The variables of the second loop. -/
structure Mapping where
  paramEndIndex : ℕ := 0
  bucketParams : List Param := []
  bucketStartIndex : ℕ := 0
  curBucketId : ℕ := 0
  buckets : List Bucket := []
  paramToBucket : Dict Param Bucket := .empty

/-- What the second loop reads. -/
structure Storage where
  cfg : DdpConfig
  dpSize : ℕ
  gradientScalingFactor : ℚ
  numel : ℕ
  bucketIndices : List (ℕ × ℕ)
  perBucketNumelUnpadded : List ℕ
  paramIndexMap : Dict Param Slot

/-- The bounds check of `_get`. -/
def getView (numel shapeNumel startIndex : ℕ) : Except PyError Unit :=
  require (startIndex + shapeNumel ≤ numel)
    (.assertionError "Requested tensor is out of buffer range")

/-- `self.param_to_bucket[bucket_param] = bucket` for all of them. -/
def mapParams (bucket : Bucket) (m : Dict Param Bucket) :
    List Param → Except PyError (Dict Param Bucket)
  | [] => .ok m
  | p :: ps => do
    require (m.get? p = none) (.assertionError)
    mapParams bucket (m.set p bucket) ps

/-- `_new_bucket`, for the current bucket. -/
def newBucket (st : Storage) (m : Mapping) (endIndex : ℕ) :
    Except PyError (Bucket × Dict Param Bucket) := do
  let some numelUnpadded := st.perBucketNumelUnpadded[m.curBucketId]? | .error .indexError
  require (st.cfg.useDistributedOptimizer = true → m.bucketStartIndex % st.dpSize = 0)
    (.assertionError)
  require (st.cfg.useDistributedOptimizer = true → endIndex % st.dpSize = 0) (.assertionError)
  let some indices := st.bucketIndices[m.curBucketId]? | .error .indexError
  require ((m.bucketStartIndex, endIndex) = indices) (.assertionError)
  getView st.numel (endIndex - m.bucketStartIndex) m.bucketStartIndex
  require m.bucketParams.Nodup (.assertionError)
  let bucket : Bucket :=
    { params := m.bucketParams
      offset := m.bucketStartIndex
      numel := endIndex - m.bucketStartIndex
      numelUnpadded := numelUnpadded
      gradientScalingFactor := st.gradientScalingFactor
      bucketId := m.curBucketId }
  let paramToBucket ← mapParams bucket m.paramToBucket m.bucketParams
  return (bucket, paramToBucket)

/-- Makes a bucket of the parameters collected. -/
def addBucket (st : Storage) (m : Mapping) (endIndex : ℕ) : Except PyError Mapping := do
  let (bucket, paramToBucket) ← newBucket st m endIndex
  return { m with
    buckets := m.buckets ++ [bucket]
    paramToBucket := paramToBucket
    bucketStartIndex := endIndex
    bucketParams := [] }

/-- Makes the bucket before, if the parameter is not in it any more. -/
def nextBucket (st : Storage) (m : Mapping) (slot : Slot) : Except PyError Mapping :=
  if slot.bucketId ≠ m.curBucketId then do
    let m ← addBucket st m (padEndOfBucketIfNeeded st.cfg st.dpSize slot.paramStartIndex)
    require (m.curBucketId + 1 = m.buckets.length) (.assertionError)
    require (slot.bucketId = m.curBucketId + 1) (.assertionError)
    return { m with curBucketId := slot.bucketId }
  else return m

/-- A round of the second loop. -/
def mapStep (st : Storage) (m : Mapping) (p : Param) : Except PyError Mapping := do
  let some slot := st.paramIndexMap.get? p | .error (.keyError (toString p.id))
  getView st.numel p.numel slot.paramStartIndex
  let m ← nextBucket st m slot
  return { m with
    paramEndIndex := slot.paramEndIndex
    bucketParams := m.bucketParams ++ [p] }

def addRemaining (st : Storage) (m : Mapping) : Except PyError Mapping :=
  if 0 < m.bucketParams.length then
    addBucket st m (padEndOfBucketIfNeeded st.cfg st.dpSize m.paramEndIndex)
  else return m

/-! ## The buffer -/

/-- `_ParamAndGradBuffer`. -/
structure ParamAndGradBuffer where
  paramDtype : Dtype
  gradDtype : Dtype
  params : List Param
  dataParallelWorldSize : ℕ
  numel : ℕ
  numelUnpadded : ℕ
  bucketIndices : List (ℕ × ℕ)
  buckets : List Bucket
  paramIndexMap : Dict Param Slot
  paramToBucket : Dict Param Bucket

namespace ParamAndGradBuffer

/-- `_ParamAndGradBuffer.__init__`. -/
def init (cfg : DdpConfig) (paramDtype gradDtype : Dtype) (params : List Param) (dpSize : ℕ)
    (bucketSize : Option ℕ) (gradientScalingFactor : ℚ) : Except PyError ParamAndGradBuffer := do
  require params.Nodup (.assertionError)
  let s := layout cfg dpSize bucketSize params
  let some numel := s.bucketEndIndex | .error (.unboundLocalError "bucket_end_index")
  let numelUnpadded := s.perBucketNumelUnpadded.sum
  require (numelUnpadded ≤ numel) (.assertionError)
  require (if cfg.useDistributedOptimizer then numel % dpSize = 0 else numel = numelUnpadded)
    (.assertionError)
  let st : Storage :=
    { cfg, dpSize, gradientScalingFactor, numel
      bucketIndices := s.bucketIndices
      perBucketNumelUnpadded := s.perBucketNumelUnpadded
      paramIndexMap := s.paramIndexMap }
  let m ← params.reverse.foldlM (mapStep st) {}
  let m ← addRemaining st m
  return { paramDtype, gradDtype, params, numel, numelUnpadded
           dataParallelWorldSize := dpSize
           bucketIndices := s.bucketIndices
           buckets := m.buckets
           paramIndexMap := s.paramIndexMap
           paramToBucket := m.paramToBucket }

end ParamAndGradBuffer

/-- The buckets of a buffer are numbered from `0`, not empty, and hold the parameters in reverse
order. -/
structure ParamAndGradBuffer.Valid (buf : ParamAndGradBuffer) : Prop where
  ids : buf.buckets.map (·.bucketId) = List.range buf.buckets.length
  params : buf.buckets.flatMap (·.params) = buf.params.reverse
  nonempty : ∀ b ∈ buf.buckets, b.params ≠ []

/-! ## What the first pass keeps -/

section Agreement

variable {cfg : DdpConfig} {dpSize : ℕ} {bucketSize : Option ℕ} {s t : Layout} {m : Mapping}
  {p : Param} {seen : List Param}

/-- The invariant of the first loop. -/
structure Layout.Valid (cfg : DdpConfig) (dpSize : ℕ) (s : Layout) : Prop where
  length_indices : s.bucketIndices.length = s.bucketId
  length_numel : s.perBucketNumelUnpadded.length = s.bucketId
  aligned : padEndOfBucketIfNeeded cfg dpSize s.bucketStartIndex = s.bucketStartIndex
  sum_le : s.perBucketNumelUnpadded.sum ≤ s.bucketStartIndex
  sum_eq : cfg.useDistributedOptimizer = false → s.perBucketNumelUnpadded.sum = s.bucketStartIndex

/-- Between two parameters: an open bucket ends with the last parameter, a closed one with its
padding. -/
structure Layout.Settled (cfg : DdpConfig) (dpSize : ℕ) (s : Layout) : Prop
    extends s.Valid cfg dpSize where
  start_le : s.bucketStartIndex ≤ s.paramStartIndex
  open_start : s.bucketParams ≠ [] → s.paramStartIndex = s.paramEndIndex
  closed_start : s.bucketParams = [] → s.paramStartIndex = s.bucketStartIndex
  closed_end : s.bucketParams = [] → 0 < s.bucketId → s.bucketEndIndex = some s.bucketStartIndex ∧
    s.bucketStartIndex = padEndOfBucketIfNeeded cfg dpSize s.paramEndIndex

/-- `t` adds buckets and parameters to `s`. -/
structure Layout.Extends (s t : Layout) : Prop where
  indices : s.bucketIndices <+: t.bucketIndices
  numel : s.perBucketNumelUnpadded <+: t.perBucketNumelUnpadded
  start_le : s.paramStartIndex ≤ t.paramStartIndex

theorem Layout.Extends.rfl : s.Extends s := ⟨prefix_rfl, prefix_rfl, le_rfl⟩

theorem Layout.Extends.trans {u : Layout} (h : s.Extends t) (h' : t.Extends u) : s.Extends u :=
  ⟨h.indices.trans h'.indices, h.numel.trans h'.numel, h.start_le.trans h'.start_le⟩

/-- Closing a bucket keeps the layout valid. -/
theorem Layout.Valid.update (hdp : 0 < dpSize) (h : s.Valid cfg dpSize) {x : ℕ}
    (hx : s.bucketStartIndex ≤ x) : (updateBucketMetadata cfg dpSize s x).Valid cfg dpSize where
  length_indices := by simp [updateBucketMetadata, h.length_indices]
  length_numel := by simp [updateBucketMetadata, h.length_numel]
  aligned := padEnd_padEnd hdp x
  sum_le := by
    have hle : x ≤ padEndOfBucketIfNeeded cfg dpSize x := le_padEnd hdp x
    have hsum := h.sum_le
    simp only [updateBucketMetadata, sum_append, sum_singleton]
    omega
  sum_eq hopt := by
    have hsum := h.sum_eq hopt
    have hpad : padEndOfBucketIfNeeded cfg dpSize x = x := by simp [padEndOfBucketIfNeeded, hopt]
    simp only [updateBucketMetadata, sum_append, sum_singleton, hpad]
    omega

theorem settled_init (cfg : DdpConfig) (dpSize : ℕ) : Layout.Settled cfg dpSize {} where
  length_indices := rfl
  length_numel := rfl
  aligned := by
    unfold padEndOfBucketIfNeeded
    split_ifs
    · rcases Nat.eq_zero_or_pos (bucketSizeDivisor cfg dpSize) with h | h
      · rw [h]; rfl
      · exact pad_of_dvd h (dvd_zero _)
    · rfl
  sum_le := le_rfl
  sum_eq _ := rfl
  start_le := le_rfl
  open_start h := absurd rfl h
  closed_start _ := rfl
  closed_end _ h := absurd h (lt_irrefl _)

theorem startParam_spec (hdp : 0 < dpSize) (h : s.Settled cfg dpSize) (p : Param) :
    (startParam cfg dpSize s p).Valid cfg dpSize ∧ s.Extends (startParam cfg dpSize s p) ∧
      (startParam cfg dpSize s p).bucketStartIndex ≤
        (startParam cfg dpSize s p).paramStartIndex := by
  have hle : s.paramStartIndex ≤ padStartOfParamIfNeeded cfg s.paramStartIndex := le_padStart _
  have hstart := h.start_le.trans hle
  unfold startParam
  dsimp only
  split_ifs
  · have hpad : padStartOfParamIfNeeded cfg s.paramStartIndex ≤
        padEndOfBucketIfNeeded cfg dpSize (padStartOfParamIfNeeded cfg s.paramStartIndex) :=
      le_padEnd hdp _
    refine ⟨?_, ⟨prefix_append _ _, prefix_append _ _, hle.trans hpad⟩, le_rfl⟩
    have hu := h.toValid.update hdp hstart
    exact { hu with }
  · exact ⟨{ h with }, ⟨prefix_rfl, prefix_rfl, hle⟩, hstart⟩

theorem endParam_spec (hdp : 0 < dpSize) (h : s.Valid cfg dpSize)
    (hstart : s.bucketStartIndex ≤ s.paramStartIndex) (p : Param) :
    (endParam cfg dpSize bucketSize (placeParam s p) p).Settled cfg dpSize ∧
      s.Extends (endParam cfg dpSize bucketSize (placeParam s p) p) ∧
      s.paramStartIndex + p.numel ≤
        (endParam cfg dpSize bucketSize (placeParam s p) p).paramStartIndex := by
  have hle : s.paramStartIndex ≤ s.paramStartIndex + p.numel := Nat.le_add_right _ _
  have hpad : s.paramStartIndex + p.numel ≤
      padEndOfBucketIfNeeded cfg dpSize (s.paramStartIndex + p.numel) := le_padEnd hdp _
  have hv : (placeParam s p).Valid cfg dpSize := { h with }
  unfold endParam closeBucket
  split_ifs
  · have hu := hv.update hdp (hstart.trans hle)
    refine ⟨⟨{ hu with }, le_rfl, ?_, fun _ => rfl, fun _ _ => ⟨rfl, rfl⟩⟩,
      ⟨?_, ?_, hle.trans hpad⟩, hpad⟩
    · exact fun hne => absurd rfl hne
    · exact prefix_append _ _
    · exact prefix_append _ _
  · refine ⟨⟨{ hv with }, hstart.trans hle, fun _ => rfl, ?_, ?_⟩,
      ⟨prefix_rfl, prefix_rfl, hle⟩, le_rfl⟩
    all_goals exact fun hnil => absurd hnil (append_ne_nil_of_right_ne_nil _ (cons_ne_nil _ _))

theorem layoutStep_spec (bucketSize : Option ℕ) (hdp : 0 < dpSize) (h : s.Settled cfg dpSize)
    (p : Param) :
    (layoutStep cfg dpSize bucketSize s p).Settled cfg dpSize ∧
      (startParam cfg dpSize s p).Extends (layoutStep cfg dpSize bucketSize s p) ∧
      (startParam cfg dpSize s p).paramStartIndex + p.numel ≤
        (layoutStep cfg dpSize bucketSize s p).paramStartIndex := by
  obtain ⟨hv, -, hstart⟩ := startParam_spec hdp h p
  exact endParam_spec hdp hv hstart p

theorem layout_foldl (bucketSize : Option ℕ) (hdp : 0 < dpSize) (ps : List Param)
    (h : s.Settled cfg dpSize) :
    (ps.foldl (layoutStep cfg dpSize bucketSize) s).Settled cfg dpSize ∧
      s.Extends (ps.foldl (layoutStep cfg dpSize bucketSize) s) := by
  induction ps generalizing s with
  | nil => exact ⟨h, .rfl⟩
  | cons p ps ih =>
    obtain ⟨hs, hext, -⟩ := layoutStep_spec bucketSize hdp h p
    obtain ⟨ht, hext'⟩ := ih hs
    exact ⟨ht, ((startParam_spec hdp h p).2.1.trans hext).trans hext'⟩

theorem paramIndexMap_endParam (p : Param) :
    (endParam cfg dpSize bucketSize s p).paramIndexMap = s.paramIndexMap := by
  unfold endParam
  split_ifs <;> rfl

theorem paramIndexMap_startParam (p : Param) :
    (startParam cfg dpSize s p).paramIndexMap = s.paramIndexMap := by
  unfold startParam
  dsimp only
  split_ifs <;> rfl

theorem paramIndexMap_layoutStep (p : Param) :
    (layoutStep cfg dpSize bucketSize s p).paramIndexMap =
      s.paramIndexMap.set p ⟨(startParam cfg dpSize s p).paramStartIndex,
        (startParam cfg dpSize s p).paramStartIndex + p.numel,
        (startParam cfg dpSize s p).bucketId⟩ := by
  rw [layoutStep, paramIndexMap_endParam, placeParam, paramIndexMap_startParam]

theorem get?_paramIndexMap_foldl {ps : List Param} (h : p ∉ ps) :
    (ps.foldl (layoutStep cfg dpSize bucketSize) s).paramIndexMap.get? p =
      s.paramIndexMap.get? p := by
  induction ps generalizing s with
  | nil => rfl
  | cons q ps ih =>
    rw [mem_cons, not_or] at h
    rw [foldl_cons, ih h.2, paramIndexMap_layoutStep, Dict.get?_set_of_ne h.1]

theorem bucketId_pos_or_bucketParams (p : Param) :
    (layoutStep cfg dpSize bucketSize s p).bucketParams ≠ [] ∨
      0 < (layoutStep cfg dpSize bucketSize s p).bucketId := by
  unfold layoutStep endParam
  split_ifs
  · exact .inr (Nat.succ_pos _)
  · exact .inl (append_ne_nil_of_right_ne_nil _ (cons_ne_nil _ _))

theorem closeRemaining_spec (hdp : 0 < dpSize) (h : s.Settled cfg dpSize)
    (hne : s.bucketParams ≠ [] ∨ 0 < s.bucketId) :
    (closeRemaining cfg dpSize s).Valid cfg dpSize ∧
      (closeRemaining cfg dpSize s).bucketEndIndex =
        some (padEndOfBucketIfNeeded cfg dpSize s.paramEndIndex) ∧
      (closeRemaining cfg dpSize s).bucketStartIndex =
        padEndOfBucketIfNeeded cfg dpSize s.paramEndIndex ∧
      s.paramStartIndex ≤ padEndOfBucketIfNeeded cfg dpSize s.paramEndIndex ∧
      s.Extends (closeRemaining cfg dpSize s) := by
  unfold closeRemaining
  split_ifs with hpos
  · have hopen := h.open_start (ne_nil_of_length_pos hpos)
    have hu := h.toValid.update hdp (h.start_le.trans hopen.le)
    refine ⟨{ hu with }, rfl, rfl, hopen.trans_le (le_padEnd hdp _),
      prefix_append _ _, prefix_append _ _, le_rfl⟩
  · have hnil : s.bucketParams = [] := length_eq_zero_iff.mp (by omega)
    obtain ⟨hend, hstart⟩ := h.closed_end hnil (hne.resolve_left fun hc => hc hnil)
    exact ⟨h.toValid, hend.trans (congrArg some hstart), hstart,
      (h.closed_start hnil).trans_le hstart.le, .rfl⟩

end Agreement

end MegatronDPU.Ddp
