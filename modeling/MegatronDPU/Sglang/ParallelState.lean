import MegatronDPU.Lib.Dict
import MegatronDPU.Lib.Raise
import MegatronDPU.Sglang.Placement

/-!
# Process groups of SGLang and all-reduce through BytePS

`initialize_model_parallel` cuts the ranks of a job into groups: tensor parallel, pipeline, and the
groups of attention and of the experts inside a tensor-parallel group. With BytePS enabled the
all-reduce of each of them is a `push_pull` for which the server expects one push from each node,
and each node sums over all of its processes. The ranks of the group have no part in this.
-/

namespace MegatronDPU.Sglang

open Raise List

/-! ## `GroupCoordinator` -/

/-- `GroupCoordinator`: its name and ranks. -/
structure GroupCoordinator where
  uniqueName : String
  ranks : List ℕ
  deriving DecidableEq

def GroupCoordinator.worldSize (g : GroupCoordinator) : ℕ := g.ranks.length

/-- `_get_unique_name`, with `_group_name_counter` before and after. -/
def getUniqueName (counter : Dict String ℕ) (name : String) : String × Dict String ℕ :=
  let n := (counter.get? name).getD 0
  (name ++ ":" ++ toString n, counter.set name (n + 1))

/-- `GroupCoordinator.__init__` at `rank`. `new_group` does not accept ranks outside of the world;
the last of the lists with the rank is its group. -/
def GroupCoordinator.init (worldSize rank : ℕ) (groupRanks : List (List ℕ)) (groupName : String)
    (counter : Dict String ℕ) : Except PyError (GroupCoordinator × Dict String ℕ) := do
  let (uniqueName, counter) := getUniqueName counter groupName
  require (∀ ranks ∈ groupRanks, ∀ r ∈ ranks, r < worldSize)
    (.runtimeError "The new group's rank should be within the world_size set by init_process_group")
  match (groupRanks.filter (rank ∈ ·)).getLast? with
  | none => .error .assertionError
  | some ranks => return ({ uniqueName, ranks }, counter)

/-! ## `initialize_model_parallel` -/

/-- `range(start, stop, step)` for a positive step. -/
def pyRangeStep (start stop step : ℕ) : List ℕ :=
  (range ((stop - start + step - 1) / step)).map (start + · * step)

/-- The arguments of `initialize_model_parallel`. -/
structure ModelParallelSizes where
  tensorModelParallelSize : ℕ
  expertModelParallelSize : ℕ := 1
  pipelineModelParallelSize : ℕ := 1
  attentionDataParallelSize : ℕ := 1
  attentionContextModelParallelSize : ℕ := 1
  moeDataModelParallelSize : ℕ := 1
  duplicateTpGroup : Bool := false
  deriving DecidableEq

namespace ModelParallelSizes

variable (a : ModelParallelSizes)

/-- All sizes are positive. -/
def Pos : Prop :=
  0 < a.tensorModelParallelSize ∧ 0 < a.expertModelParallelSize ∧
    0 < a.pipelineModelParallelSize ∧ 0 < a.attentionDataParallelSize ∧
    0 < a.attentionContextModelParallelSize ∧ 0 < a.moeDataModelParallelSize

instance : Decidable a.Pos := inferInstanceAs (Decidable (_ ∧ _))

def worldSize : ℕ := a.tensorModelParallelSize * a.pipelineModelParallelSize

def attnTpSize : ℕ :=
  a.tensorModelParallelSize / a.attentionContextModelParallelSize / a.attentionDataParallelSize

def moeTpSize : ℕ :=
  a.tensorModelParallelSize / a.expertModelParallelSize / a.moeDataModelParallelSize

/-- `num_tensor_model_parallel_groups`. -/
def numTpGroups : ℕ := a.worldSize / a.tensorModelParallelSize

/-- The tensor-parallel groups. -/
def tpGroupRanks : List (List ℕ) :=
  (range a.numTpGroups).map fun tpGroupIdx =>
    pyRange (tpGroupIdx * a.tensorModelParallelSize) ((tpGroupIdx + 1) * a.tensorModelParallelSize)

/-- The groups of a block of each tensor-parallel group: `st` is the offset of a group in it. -/
def inTpGroups (offsets : List ℕ) (ranks : ℕ → List ℕ) : List (List ℕ) :=
  (range a.numTpGroups).flatMap fun tpGroupIdx =>
    offsets.map fun st => ranks (tpGroupIdx * a.tensorModelParallelSize + st)

def attnCpGroupRanks : List (List ℕ) :=
  let block := a.attnTpSize * a.attentionContextModelParallelSize
  a.inTpGroups
    ((range a.attentionDataParallelSize).flatMap fun dpIdx =>
      (range a.attnTpSize).map fun attnTpIdx => dpIdx * block + attnTpIdx)
    fun st => pyRangeStep st (st + block) a.attnTpSize

def attnTpGroupRanks : List (List ℕ) :=
  a.inTpGroups
    ((range (a.attentionContextModelParallelSize * a.attentionDataParallelSize)).map
      fun cpDpCombinedIdx => cpDpCombinedIdx * a.attnTpSize)
    fun st => pyRange st (st + a.attnTpSize)

def moeDpGroupRanks : List (List ℕ) :=
  let step := a.moeTpSize * a.expertModelParallelSize
  a.inTpGroups (range step) fun st =>
    pyRangeStep st (st + a.tensorModelParallelSize) step

def moeEpGroupRanks : List (List ℕ) :=
  let block := a.expertModelParallelSize * a.moeTpSize
  a.inTpGroups
    ((range a.moeDataModelParallelSize).flatMap fun moeDpIdx =>
      (range a.moeTpSize).map fun moeTpIdx => moeDpIdx * block + moeTpIdx)
    fun st => pyRangeStep st (st + block) a.moeTpSize

def moeTpGroupRanks : List (List ℕ) :=
  a.inTpGroups
    ((range (a.expertModelParallelSize * a.moeDataModelParallelSize)).map
      fun epDpCombinedIdx => epDpCombinedIdx * a.moeTpSize)
    fun st => pyRange st (st + a.moeTpSize)

/-- The pipeline groups. -/
def ppGroupRanks : List (List ℕ) :=
  let numPpGroups := a.worldSize / a.pipelineModelParallelSize
  (range numPpGroups).map fun ppGroupIdx => pyRangeStep ppGroupIdx a.worldSize numPpGroups

end ModelParallelSizes

/-- The groups of a process. -/
structure ParallelState where
  world : GroupCoordinator
  tp : GroupCoordinator
  pdmuxPrefillTp : Option GroupCoordinator
  attnCp : GroupCoordinator
  attnTp : GroupCoordinator
  moeDp : GroupCoordinator
  moeEp : GroupCoordinator
  moeTp : GroupCoordinator
  pp : GroupCoordinator

def ParallelState.groups (s : ParallelState) : List GroupCoordinator :=
  [s.world, s.tp] ++ s.pdmuxPrefillTp.toList ++
    [s.attnCp, s.attnTp, s.moeDp, s.moeEp, s.moeTp, s.pp]

/-- A group within the tensor-parallel one; it is that one if the sizes are equal. -/
def subGroup (worldSize rank size tpSize : ℕ) (tp : GroupCoordinator)
    (groupRanks : List (List ℕ)) (groupName : String) (counter : Dict String ℕ) :
    Except PyError (GroupCoordinator × Dict String ℕ) :=
  if size = tpSize then .ok (tp, counter)
  else GroupCoordinator.init worldSize rank groupRanks groupName counter

/-- The second tensor-parallel group, for prefill. -/
def pdmuxGroup (worldSize rank : ℕ) (a : ModelParallelSizes) (counter : Dict String ℕ) :
    Except PyError (Option GroupCoordinator × Dict String ℕ) :=
  if a.duplicateTpGroup then do
    let (g, counter) ← GroupCoordinator.init worldSize rank a.tpGroupRanks "pdmux_prefill_tp" counter
    return (some g, counter)
  else return (none, counter)

/-- `init_distributed_environment` and `initialize_model_parallel` at `rank`. -/
def initializeModelParallel (worldSize rank : ℕ) (a : ModelParallelSizes) :
    Except PyError ParallelState := do
  let (world, c) ← GroupCoordinator.init worldSize rank [range worldSize] "world" .empty
  require (worldSize = a.worldSize) (.runtimeError ("world_size (" ++ toString worldSize ++
    ") is not equal to tensor_model_parallel_size (" ++ toString a.tensorModelParallelSize ++
    ") x pipeline_model_parallel_size (" ++ toString a.pipelineModelParallelSize ++ ")"))
  let (tp, c) ← GroupCoordinator.init worldSize rank a.tpGroupRanks "tp" c
  let (pdmuxPrefillTp, c) ← pdmuxGroup worldSize rank a c
  let (attnCp, c) ← subGroup worldSize rank a.attentionContextModelParallelSize
    a.tensorModelParallelSize tp a.attnCpGroupRanks "attn_cp" c
  let (attnTp, c) ← subGroup worldSize rank a.attnTpSize a.tensorModelParallelSize tp
    a.attnTpGroupRanks "attention_tp" c
  let (moeDp, c) ← subGroup worldSize rank a.moeDataModelParallelSize a.tensorModelParallelSize tp
    a.moeDpGroupRanks "moe_dp" c
  let (moeEp, c) ← subGroup worldSize rank a.expertModelParallelSize a.tensorModelParallelSize tp
    a.moeEpGroupRanks "moe_ep" c
  let (moeTp, c) ← subGroup worldSize rank a.moeTpSize a.tensorModelParallelSize tp
    a.moeTpGroupRanks "moe_tp" c
  let (pp, _) ← GroupCoordinator.init worldSize rank a.ppGroupRanks "pp" c
  return { world, tp, pdmuxPrefillTp, attnCp, attnTp, moeDp, moeEp, moeTp, pp }

/-! ## `all_reduce` -/

/-- What `all_reduce` asks about its input and the communicators that are active. -/
structure AllReduceInput where
  isCpu : Bool := false
  hpuActive : Bool := false
  xpuActive : Bool := false
  npuActive : Bool := false
  symmetricMemoryEnabled : Bool := false
  inPiecewiseCudaGraph : Bool := false
  cudaGraphCapture : Bool := false
  isCuda : Bool := true
  isContiguous : Bool := true
  device : String := "cuda"

/-- How an all-reduce is done. -/
inductive Route
  | bypass
  | byteps
  | other
  deriving DecidableEq

/-- `_byteps_all_reduce_error`. -/
def bytepsAllReduceError (reason : String) : PyError :=
  .runtimeError ("--use-byteps-all-reduce is enabled, so model-path All-Reduce must use " ++
    "BytePS and cannot fallback to SGLang/NCCL/custom All-Reduce. " ++ reason)

/-- `all_reduce`, up to the choice of the route. -/
def allReduce (enableByteps : Bool) (input : AllReduceInput) (g : GroupCoordinator) :
    Except PyError Route :=
  if g.worldSize = 1 then .ok .bypass
  else if enableByteps then do
    require (input.isCpu = false) (bytepsAllReduceError
      ("Received a CPU tensor; CPU/shared-memory all-reduce is outside " ++
        "the BytePS phase-1 scope. Disable --use-byteps-all-reduce for this path."))
    require (input.hpuActive = false) (bytepsAllReduceError
      "The HPU communicator path is active; BytePS phase 1 only supports CUDA tensors.")
    require (input.xpuActive = false) (bytepsAllReduceError
      "The XPU communicator path is active; BytePS phase 1 only supports CUDA tensors.")
    require (input.npuActive = false) (bytepsAllReduceError
      "The NPU communicator path is active; BytePS phase 1 only supports CUDA tensors.")
    require (input.symmetricMemoryEnabled = false) (bytepsAllReduceError
      ("Symmetric-memory all-reduce is active. Disable symmetric " ++
        "memory/TorchSymmMem before using --use-byteps-all-reduce."))
    require (input.inPiecewiseCudaGraph = false) (bytepsAllReduceError
      ("Piecewise CUDA graph capture is active. Disable piecewise " ++
        "CUDA graph with --disable-piecewise-cuda-graph."))
    require (input.cudaGraphCapture = false) (bytepsAllReduceError
      ("CUDA graph capture is active. Disable CUDA graph with " ++
        "--disable-cuda-graph before using BytePS All-Reduce."))
    require (input.isCuda = true) (bytepsAllReduceError
      ("Received a non-CUDA tensor on device " ++ input.device ++ "; BytePS " ++
        "phase 1 only supports CUDA tensors."))
    require (input.isContiguous = true) (bytepsAllReduceError
      ("Received a non-contiguous tensor; make the tensor contiguous " ++
        "before entering the BytePS All-Reduce path."))
    return .byteps
  else .ok .other

/-- `_byteps_expected_workers`. -/
def bytepsExpectedWorkers (nnodes bpsSize bpsLocalSize : ℕ) : ℕ :=
  if 1 < nnodes then nnodes else max 1 (bpsSize / max 1 bpsLocalSize)

/-- The ranks of a world on equal nodes. -/
structure NodeLayout (worldSize : ℕ) where
  nnodes : ℕ
  localSize : ℕ
  nnodes_pos : 0 < nnodes
  localSize_pos : 0 < localSize
  node : ℕ → ℕ
  node_lt : ∀ r < worldSize, node r < nnodes

/-- The ranks whose data a BytePS all-reduce waits for and sums: all processes of as many nodes as
are expected. With `DMLC_NUM_WORKER` nodes the BytePS size is `nnodes * local_size`. -/
def participants {worldSize : ℕ} (l : NodeLayout worldSize) : Finset ℕ :=
  (Finset.range worldSize).filter fun r =>
    l.node r < bytepsExpectedWorkers l.nnodes (l.nnodes * l.localSize) l.localSize

/-! ## Sizes of the groups -/

variable {worldSize rank : ℕ} {a : ModelParallelSizes} {g tp : GroupCoordinator}
  {c c' : Dict String ℕ} {groupName : String} {groupRanks : List (List ℕ)}

/-- A group of `n` ranks of the world. -/
structure GroupCoordinator.Sized (g : GroupCoordinator) (worldSize n : ℕ) : Prop where
  nodup : g.ranks.Nodup
  length : g.ranks.length = n
  lt : ∀ r ∈ g.ranks, r < worldSize

/-- The group that a rank gets is one of those given and has the rank. -/
theorem GroupCoordinator.init_spec
    (h : GroupCoordinator.init worldSize rank groupRanks groupName c = .ok (g, c')) :
    g.ranks ∈ groupRanks ∧ rank ∈ g.ranks ∧ ∀ r ∈ g.ranks, r < worldSize := by
  obtain ⟨hlt, h⟩ := require_bind_eq_ok.mp h
  cases hlast : (groupRanks.filter (rank ∈ ·)).getLast? with
  | none => rw [hlast] at h; cases h
  | some ranks =>
    rw [hlast] at h
    cases h
    have hmem := mem_of_getLast? hlast
    rw [mem_filter, decide_eq_true_eq] at hmem
    exact ⟨hmem.1, hmem.2, hlt _ hmem.1⟩

variable {step n size : ℕ} {offsets : List ℕ} {s : ParallelState}

theorem nodup_pyRangeStep (start stop : ℕ) (h : 0 < step) :
    (pyRangeStep start stop step).Nodup := by
  apply List.Nodup.map _ nodup_range
  intro i j hij
  exact Nat.eq_of_mul_eq_mul_right h (add_left_cancel hij)

theorem length_pyRangeStep (start n : ℕ) (h : 0 < step) :
    (pyRangeStep start (start + step * n) step).length = n := by
  rw [pyRangeStep, length_map, length_range, Nat.add_sub_cancel_left, Nat.add_sub_assoc h,
    Nat.mul_add_div h, Nat.div_eq_of_lt (Nat.sub_lt h Nat.zero_lt_one), add_zero]

theorem GroupCoordinator.sized_of_init
    (h : ∃ c c', GroupCoordinator.init worldSize rank groupRanks groupName c = .ok (g, c'))
    (hfam : ∀ ranks ∈ groupRanks, rank ∈ ranks → ranks.Nodup ∧ ranks.length = n) :
    g.Sized worldSize n := by
  obtain ⟨_, _, h⟩ := h
  obtain ⟨hmem, hrank, hlt⟩ := init_spec h
  obtain ⟨hnodup, hlen⟩ := hfam _ hmem hrank
  exact ⟨hnodup, hlen, hlt⟩

theorem sized_subGroup {tpSize : ℕ} (htp : tp.Sized worldSize tpSize)
    (h : ∃ c c', subGroup worldSize rank size tpSize tp groupRanks groupName c = .ok (g, c'))
    (hfam : size ≠ tpSize → ∀ ranks ∈ groupRanks, rank ∈ ranks → ranks.Nodup ∧ ranks.length = size) :
    g.Sized worldSize size := by
  obtain ⟨_, _, h⟩ := h
  unfold subGroup at h
  split_ifs at h with hsize
  · cases h
    rw [hsize]
    exact htp
  · exact GroupCoordinator.sized_of_init ⟨_, _, h⟩ (hfam hsize)

theorem ModelParallelSizes.mem_inTpGroups {ranks : ℕ → List ℕ} {l : List ℕ} :
    l ∈ a.inTpGroups offsets ranks ↔ ∃ i < a.numTpGroups, ∃ st ∈ offsets,
      l = ranks (i * a.tensorModelParallelSize + st) := by
  simp [inTpGroups, eq_comm]

/-- What `initialize_model_parallel` has done. -/
structure InitSteps (worldSize rank : ℕ) (a : ModelParallelSizes) (s : ParallelState) : Prop where
  worldSize_eq : worldSize = a.worldSize
  world : ∃ c c', GroupCoordinator.init worldSize rank [range worldSize] "world" c =
    .ok (s.world, c')
  tp : ∃ c c', GroupCoordinator.init worldSize rank a.tpGroupRanks "tp" c = .ok (s.tp, c')
  pdmuxPrefillTp : ∃ c c', pdmuxGroup worldSize rank a c = .ok (s.pdmuxPrefillTp, c')
  attnCp : ∃ c c', subGroup worldSize rank a.attentionContextModelParallelSize
    a.tensorModelParallelSize s.tp a.attnCpGroupRanks "attn_cp" c = .ok (s.attnCp, c')
  attnTp : ∃ c c', subGroup worldSize rank a.attnTpSize a.tensorModelParallelSize s.tp
    a.attnTpGroupRanks "attention_tp" c = .ok (s.attnTp, c')
  moeDp : ∃ c c', subGroup worldSize rank a.moeDataModelParallelSize a.tensorModelParallelSize s.tp
    a.moeDpGroupRanks "moe_dp" c = .ok (s.moeDp, c')
  moeEp : ∃ c c', subGroup worldSize rank a.expertModelParallelSize a.tensorModelParallelSize s.tp
    a.moeEpGroupRanks "moe_ep" c = .ok (s.moeEp, c')
  moeTp : ∃ c c', subGroup worldSize rank a.moeTpSize a.tensorModelParallelSize s.tp
    a.moeTpGroupRanks "moe_tp" c = .ok (s.moeTp, c')
  pp : ∃ c c', GroupCoordinator.init worldSize rank a.ppGroupRanks "pp" c = .ok (s.pp, c')

theorem InitSteps.exists_pdmux (hs : InitSteps worldSize rank a s) (hg : g ∈ s.pdmuxPrefillTp) :
    ∃ c c', GroupCoordinator.init worldSize rank a.tpGroupRanks "pdmux_prefill_tp" c =
      .ok (g, c') := by
  obtain ⟨_, _, h⟩ := hs.pdmuxPrefillTp
  unfold pdmuxGroup at h
  split_ifs at h
  · obtain ⟨⟨_, _⟩, hinit, heq⟩ := bind_eq_ok.mp h
    obtain ⟨hsome, -⟩ := Prod.mk.inj (Except.ok.inj heq)
    rw [← hsome] at hg
    cases hg
    exact ⟨_, _, hinit⟩
  · obtain ⟨hnone, -⟩ := Prod.mk.inj (Except.ok.inj h)
    rw [← hnone] at hg
    cases hg

theorem initSteps_of_ok (h : initializeModelParallel worldSize rank a = .ok s) :
    InitSteps worldSize rank a s := by
  obtain ⟨⟨_, _⟩, hworld, h⟩ := bind_eq_ok.mp h
  obtain ⟨hsize, h⟩ := require_bind_eq_ok.mp h
  obtain ⟨⟨_, _⟩, htp, h⟩ := bind_eq_ok.mp h
  obtain ⟨⟨_, _⟩, hpdmux, h⟩ := bind_eq_ok.mp h
  obtain ⟨⟨_, _⟩, hattnCp, h⟩ := bind_eq_ok.mp h
  obtain ⟨⟨_, _⟩, hattnTp, h⟩ := bind_eq_ok.mp h
  obtain ⟨⟨_, _⟩, hmoeDp, h⟩ := bind_eq_ok.mp h
  obtain ⟨⟨_, _⟩, hmoeEp, h⟩ := bind_eq_ok.mp h
  obtain ⟨⟨_, _⟩, hmoeTp, h⟩ := bind_eq_ok.mp h
  obtain ⟨⟨_, _⟩, hpp, h⟩ := bind_eq_ok.mp h
  cases h
  exact ⟨hsize, ⟨_, _, hworld⟩, ⟨_, _, htp⟩, ⟨_, _, hpdmux⟩, ⟨_, _, hattnCp⟩, ⟨_, _, hattnTp⟩,
    ⟨_, _, hmoeDp⟩, ⟨_, _, hmoeEp⟩, ⟨_, _, hmoeTp⟩, ⟨_, _, hpp⟩⟩

/-- Consecutive groups of `n / k / m` ranks that reach the last rank of the tensor-parallel group:
the sizes divide it. -/
theorem blocks_cover {k m i : ℕ} (hlast : n - 1 < (i + 1) * (n / k / m)) (hi : i < k * m)
    (hn : 0 < n) : n = n / k / m * k * m ∧ 0 < n / k / m := by
  have hle : n / k / m * (k * m) ≤ n := by
    rw [Nat.div_div_eq_div_mul]
    exact Nat.div_mul_le_self n (k * m)
  have hge : (i + 1) * (n / k / m) ≤ k * m * (n / k / m) := Nat.mul_le_mul_right _ hi
  rw [mul_comm (k * m)] at hge
  refine ⟨?_, pos_of_ne_zero fun h0 => ?_⟩
  · rw [mul_assoc]
    omega
  · rw [h0, mul_zero] at hlast
    exact Nat.not_lt_zero _ hlast

theorem mem_pyRange {start stop i : ℕ} : i ∈ pyRange start stop ↔ start ≤ i ∧ i < stop := by
  rw [pyRange, mem_range'_1]
  omega

/-- If the last rank of the first tensor-parallel group has a group among the blocks of `size`
consecutive ranks, the blocks fill the tensor-parallel group. -/
theorem tpSize_eq_of_blocks {k m : ℕ} (hsize : size = a.tensorModelParallelSize / k / m)
    (hpos : 0 < a.tensorModelParallelSize)
    (h : subGroup worldSize (a.tensorModelParallelSize - 1) size a.tensorModelParallelSize tp
      (a.inTpGroups ((range (k * m)).map (· * size)) fun st => pyRange st (st + size)) groupName c =
      .ok (g, c')) :
    a.tensorModelParallelSize = size * k * m ∧ 0 < size := by
  unfold subGroup at h
  split_ifs at h with heq
  · have hone : k * m = 1 := by
      rw [heq, Nat.div_div_eq_div_mul, eq_comm, Nat.div_eq_self] at hsize
      exact hsize.resolve_left hpos.ne'
    rw [mul_assoc, hone, heq, mul_one]
    exact ⟨rfl, hpos⟩
  · obtain ⟨hmem, hrank, -⟩ := GroupCoordinator.init_spec h
    obtain ⟨i, -, st, hst, hranks⟩ := ModelParallelSizes.mem_inTpGroups.mp hmem
    obtain ⟨j, hj, rfl⟩ := mem_map.mp hst
    rw [hranks, mem_pyRange] at hrank
    have hi : i = 0 := by
      rcases Nat.eq_zero_or_pos i with h0 | h0
      · exact h0
      · have := Nat.le_mul_of_pos_left a.tensorModelParallelSize h0
        omega
    rw [hi, zero_mul, zero_add, ← Nat.succ_mul] at hrank
    rw [hsize] at hrank ⊢
    exact blocks_cover hrank.2 (mem_range.mp hj) hpos

/-- The groups of an accepted rank have the sizes that were asked for. -/
structure ParallelState.Sized (s : ParallelState) (worldSize : ℕ) (a : ModelParallelSizes) :
    Prop where
  world : s.world.Sized worldSize worldSize
  tp : s.tp.Sized worldSize a.tensorModelParallelSize
  pdmuxPrefillTp : ∀ g ∈ s.pdmuxPrefillTp, g.Sized worldSize a.tensorModelParallelSize
  attnCp : s.attnCp.Sized worldSize a.attentionContextModelParallelSize
  attnTp : s.attnTp.Sized worldSize a.attnTpSize
  moeDp : s.moeDp.Sized worldSize a.moeDataModelParallelSize
  moeEp : s.moeEp.Sized worldSize a.expertModelParallelSize
  moeTp : s.moeTp.Sized worldSize a.moeTpSize
  pp : s.pp.Sized worldSize a.pipelineModelParallelSize

theorem nodup_length_blocks : ∀ ranks ∈ a.inTpGroups offsets (fun st => pyRange st (st + size)),
      ranks.Nodup ∧ ranks.length = size := by
  intro ranks hmem
  obtain ⟨i, -, st, -, rfl⟩ := ModelParallelSizes.mem_inTpGroups.mp hmem
  refine ⟨nodup_range', ?_⟩
  rw [pyRange, length_range', Nat.add_sub_cancel_left]

theorem nodup_length_strided (h : 0 < step) :
    ∀ ranks ∈ a.inTpGroups offsets (fun st => pyRangeStep st (st + step * n) step),
      ranks.Nodup ∧ ranks.length = n := by
  intro ranks hmem
  obtain ⟨i, -, st, -, rfl⟩ := ModelParallelSizes.mem_inTpGroups.mp hmem
  exact ⟨nodup_pyRangeStep _ _ h, length_pyRangeStep _ _ h⟩

theorem nodup_length_tp :
    ∀ ranks ∈ a.tpGroupRanks, ranks.Nodup ∧ ranks.length = a.tensorModelParallelSize := by
  intro ranks hmem
  obtain ⟨i, -, rfl⟩ := mem_map.mp hmem
  refine ⟨nodup_range', ?_⟩
  rw [pyRange, length_range', Nat.succ_mul, Nat.add_sub_cancel_left]

theorem nodup_length_pp (ha : a.Pos) :
    ∀ ranks ∈ a.ppGroupRanks, ranks.Nodup ∧ ranks.length = a.pipelineModelParallelSize := by
  have hnum : a.worldSize / a.pipelineModelParallelSize = a.tensorModelParallelSize := by
    rw [ModelParallelSizes.worldSize, Nat.mul_div_cancel _ ha.2.2.1]
  intro ranks hmem
  obtain ⟨i, hi, rfl⟩ := mem_map.mp hmem
  rw [hnum, mem_range] at hi
  rw [hnum]
  refine ⟨nodup_pyRangeStep _ _ ha.1, ?_⟩
  -- the range stops short of the last step by `i`
  have hle := Nat.le_mul_of_pos_right a.tensorModelParallelSize ha.2.2.1
  have hsplit : a.worldSize - i + a.tensorModelParallelSize - 1 =
      a.tensorModelParallelSize * a.pipelineModelParallelSize +
        (a.tensorModelParallelSize - 1 - i) := by
    rw [ModelParallelSizes.worldSize]
    omega
  rw [pyRangeStep, length_map, length_range, hsplit, Nat.mul_add_div ha.1,
    Nat.div_eq_of_lt (by omega), add_zero]

theorem initializeModelParallel_sized (ha : a.Pos)
    (hacc : ∀ r < worldSize, ∃ s, initializeModelParallel worldSize r a = .ok s)
    (h : initializeModelParallel worldSize rank a = .ok s) : s.Sized worldSize a := by
  have hs := initSteps_of_ok h
  -- the last rank of the first tensor-parallel group is in a group of each family
  have hlast : a.tensorModelParallelSize - 1 < worldSize := by
    rw [hs.worldSize_eq, ModelParallelSizes.worldSize]
    have := Nat.le_mul_of_pos_right a.tensorModelParallelSize ha.2.2.1
    have := ha.1
    omega
  obtain ⟨t, ht⟩ := hacc _ hlast
  have ht := initSteps_of_ok ht
  obtain ⟨_, _, hattn⟩ := ht.attnTp
  obtain ⟨hattn, hattnPos⟩ := tpSize_eq_of_blocks rfl ha.1 hattn
  obtain ⟨_, _, hmoe⟩ := ht.moeTp
  obtain ⟨hmoe, hmoePos⟩ := tpSize_eq_of_blocks rfl ha.1 hmoe
  have htp := GroupCoordinator.sized_of_init hs.tp fun ranks hmem _ => nodup_length_tp ranks hmem
  refine ⟨?_, htp, ?_, ?_, ?_, ?_, ?_, ?_, ?_⟩
  · refine GroupCoordinator.sized_of_init hs.world fun ranks hmem _ => ?_
    rw [mem_singleton.mp hmem]
    exact ⟨nodup_range, length_range⟩
  · exact fun g hg => GroupCoordinator.sized_of_init (hs.exists_pdmux hg) fun ranks hmem _ =>
      nodup_length_tp ranks hmem
  · exact sized_subGroup htp hs.attnCp fun _ ranks hmem _ =>
      nodup_length_strided hattnPos ranks hmem
  · exact sized_subGroup htp hs.attnTp fun _ ranks hmem _ => nodup_length_blocks ranks hmem
  · refine sized_subGroup htp hs.moeDp fun _ ranks hmem _ => ?_
    have hpos : 0 < a.moeTpSize * a.expertModelParallelSize := mul_pos hmoePos ha.2.1
    unfold ModelParallelSizes.moeDpGroupRanks at hmem
    rw [hmoe] at hmem
    exact nodup_length_strided hpos ranks hmem
  · refine sized_subGroup htp hs.moeEp fun _ ranks hmem _ => ?_
    unfold ModelParallelSizes.moeEpGroupRanks at hmem
    rw [mul_comm a.expertModelParallelSize] at hmem
    exact nodup_length_strided hmoePos ranks hmem
  · exact sized_subGroup htp hs.moeTp fun _ ranks hmem _ => nodup_length_blocks ranks hmem
  · exact GroupCoordinator.sized_of_init hs.pp fun ranks hmem _ => nodup_length_pp ha ranks hmem

/-! ## The ranks that BytePS sums over -/

variable (l : NodeLayout worldSize)

theorem bytepsExpectedWorkers_eq :
    bytepsExpectedWorkers l.nnodes (l.nnodes * l.localSize) l.localSize = l.nnodes := by
  have hn := l.nnodes_pos
  unfold bytepsExpectedWorkers
  split_ifs with h
  · rfl
  · have hone : max 1 l.localSize = l.localSize := max_eq_right l.localSize_pos
    rw [hone, Nat.mul_div_cancel _ l.localSize_pos]
    omega

theorem participants_eq : participants l = Finset.range worldSize := by
  unfold participants
  rw [bytepsExpectedWorkers_eq, Finset.filter_true_of_mem]
  exact fun r hr => l.node_lt r (Finset.mem_range.mp hr)

theorem allReduce_eq_byteps_iff {g : GroupCoordinator} :
    allReduce true {} g = .ok .byteps ↔ g.worldSize ≠ 1 := by
  unfold allReduce
  by_cases h : g.worldSize = 1
  · simp [h]
  · rw [if_neg h]
    exact iff_of_true rfl h

theorem GroupCoordinator.Sized.toFinset_eq_iff (h : g.Sized worldSize n) :
    g.ranks.toFinset = Finset.range worldSize ↔ n = worldSize := by
  have hcard : g.ranks.toFinset.card = n := by
    rw [toFinset_card_of_nodup h.nodup, h.length]
  have hsub : g.ranks.toFinset ⊆ Finset.range worldSize := fun r hr =>
    Finset.mem_range.mpr (h.lt r (mem_toFinset.mp hr))
  constructor
  · intro heq
    rw [← hcard, heq, Finset.card_range]
  · intro hn
    apply Finset.eq_of_subset_of_card_le hsub
    rw [Finset.card_range, hcard, hn]

/-- An all-reduce over the group sums over its ranks, if it takes the way through BytePS at all. -/
def SumsOverRanks (g : GroupCoordinator) : Prop :=
  ∀ input, allReduce true input g = .ok .byteps → participants l = g.ranks.toFinset

theorem sumsOverRanks_iff (h : g.Sized worldSize n) :
    SumsOverRanks l g ↔ n = 1 ∨ n = worldSize := by
  have hroute : ∀ input, allReduce true input g = .ok .byteps → n ≠ 1 := by
    intro input hbyteps hn
    rw [allReduce, GroupCoordinator.worldSize, h.length, if_pos hn] at hbyteps
    cases hbyteps
  unfold SumsOverRanks
  rw [participants_eq]
  constructor
  · intro hsum
    refine or_iff_not_imp_left.mpr fun hn => h.toFinset_eq_iff.mp (hsum {} ?_).symm
    rw [allReduce_eq_byteps_iff, GroupCoordinator.worldSize, h.length]
    exact hn
  · rintro (hn | hn) input hbyteps
    · exact absurd hn (hroute input hbyteps)
    · exact (h.toFinset_eq_iff.mpr hn).symm

/-- The sizes of the groups that are made besides the world. -/
def ModelParallelSizes.sizes (a : ModelParallelSizes) : List ℕ :=
  [a.tensorModelParallelSize, a.attentionContextModelParallelSize, a.attnTpSize,
    a.moeDataModelParallelSize, a.expertModelParallelSize, a.moeTpSize, a.pipelineModelParallelSize]

theorem ParallelState.Sized.exists_size (hs : s.Sized worldSize a) (hg : g ∈ s.groups) :
    ∃ n ∈ worldSize :: a.sizes, g.Sized worldSize n := by
  simp only [ParallelState.groups, mem_append, mem_cons, not_mem_nil, or_false,
    Option.mem_toList] at hg
  unfold ModelParallelSizes.sizes
  rcases hg with ((rfl | rfl) | hg) | rfl | rfl | rfl | rfl | rfl | rfl
  · exact ⟨_, by simp, hs.world⟩
  · exact ⟨_, by simp, hs.tp⟩
  · exact ⟨_, by simp, hs.pdmuxPrefillTp g hg⟩
  · exact ⟨_, by simp, hs.attnCp⟩
  · exact ⟨_, by simp, hs.attnTp⟩
  · exact ⟨_, by simp, hs.moeDp⟩
  · exact ⟨_, by simp, hs.moeEp⟩
  · exact ⟨_, by simp, hs.moeTp⟩
  · exact ⟨_, by simp, hs.pp⟩

theorem ParallelState.Sized.exists_group (hs : s.Sized worldSize a) (hn : n ∈ a.sizes) :
    ∃ g ∈ s.groups, g.Sized worldSize n := by
  simp only [ModelParallelSizes.sizes, mem_cons, not_mem_nil, or_false] at hn
  unfold ParallelState.groups
  rcases hn with rfl | rfl | rfl | rfl | rfl | rfl | rfl
  · exact ⟨_, by simp, hs.tp⟩
  · exact ⟨_, by simp, hs.attnCp⟩
  · exact ⟨_, by simp, hs.attnTp⟩
  · exact ⟨_, by simp, hs.moeDp⟩
  · exact ⟨_, by simp, hs.moeEp⟩
  · exact ⟨_, by simp, hs.moeTp⟩
  · exact ⟨_, by simp, hs.pp⟩

/-- Each of the sizes is that of a single rank or of the whole job. -/
def ModelParallelSizes.AllOrNothing (a : ModelParallelSizes) : Prop :=
  ∀ size ∈ a.sizes, size = 1 ∨ size = a.worldSize

instance : Decidable a.AllOrNothing := inferInstanceAs (Decidable (∀ size ∈ _, _))

/-- For all sizes that `initialize_model_parallel` accepts on all ranks, any number of nodes and any
layout of the ranks on them: the ranks that BytePS waits for and sums over are those of the group,
for every group of a rank whose all-reduce goes through BytePS, iff each size is that of a single
rank or of the whole job. -/
theorem participants_eq_ranks_iff (ha : a.Pos)
    (hacc : ∀ r < worldSize, ∃ s, initializeModelParallel worldSize r a = .ok s)
    {s : ParallelState} (h : initializeModelParallel worldSize rank a = .ok s) :
    (∀ g ∈ s.groups, SumsOverRanks l g) ↔ a.AllOrNothing := by
  have hs := initializeModelParallel_sized ha hacc h
  have hsize := (initSteps_of_ok h).worldSize_eq
  unfold ModelParallelSizes.AllOrNothing
  rw [← hsize]
  constructor
  · intro hsums n hn
    obtain ⟨g, hg, hsized⟩ := hs.exists_group hn
    exact (sumsOverRanks_iff l hsized).mp (hsums g hg)
  · intro hall g hg
    obtain ⟨n, hn, hsized⟩ := hs.exists_size hg
    refine (sumsOverRanks_iff l hsized).mpr ?_
    rcases mem_cons.mp hn with rfl | hn
    · exact .inr rfl
    · exact hall n hn

def twoNodes : NodeLayout 4 where
  nnodes := 2
  localSize := 2
  nnodes_pos := by decide
  localSize_pos := by decide
  node r := r / 2
  node_lt r hr := by omega

theorem participants_eq_ranks_iff_tensor_parallel :
    ∃ s, initializeModelParallel 4 0 { tensorModelParallelSize := 4 } = .ok s ∧
      s.tp.ranks = [0, 1, 2, 3] ∧ ∀ g ∈ s.groups, SumsOverRanks twoNodes g := by
  have hacc : ∀ r < 4, ∃ s, initializeModelParallel 4 r { tensorModelParallelSize := 4 } = .ok s := by
    intro r hr
    interval_cases r <;> exact ⟨_, rfl⟩
  obtain ⟨s, hs⟩ := hacc 0 (by decide)
  refine ⟨s, hs, ?_, (participants_eq_ranks_iff twoNodes (by decide) hacc hs).mpr (by decide)⟩
  cases hs
  rfl

/-- Two pipeline stages of two ranks: an all-reduce of the first stage also waits for the second. -/
theorem stage_waits_for_job : ∃ s, initializeModelParallel 4 0
        { tensorModelParallelSize := 2, pipelineModelParallelSize := 2 } = .ok s ∧
      s.tp.ranks = [0, 1] ∧ allReduce true {} s.tp = .ok .byteps ∧
      participants twoNodes = {0, 1, 2, 3} := by
  refine ⟨_, rfl, rfl, rfl, by decide⟩

end MegatronDPU.Sglang
