import MegatronDPU.Worker.Context

/-!
# The stages of a task

A task passes the queues of its list one after the other. Which queues these are depends on the
process: on the GPUs of its machine, on its place among them, and on `DMLC_USE_GDR`.
-/

namespace MegatronDPU.Worker

/-- `QueueType`. -/
inductive QueueType
  | coordinateReduce
  | reduce
  | copyD2H
  | pcieReduce
  | coordinatePush
  | compress
  | push
  | pull
  | decompress
  | copyH2D
  | coordinateBroadcast
  | broadcast
  deriving DecidableEq, Repr

/-! ## Processes of a machine -/

structure Machine where
  localSize : ℕ
  /-- `BYTEPS_PCIE_SWITCH_SIZE`. -/
  pcieSwitchSize : ℕ := 8
  numWorker : ℕ := 1
  /-- `BYTEPS_FORCE_DISTRIBUTED`. -/
  forceDistributed : Bool := false
  /-- `DMLC_USE_GDR`. -/
  useGdr : Bool := false

namespace Machine

variable (m : Machine)

/-- `_nccl_pcie_size`: switches that are not all full count as one. -/
def ncclSize : ℕ :=
  if m.localSize / m.pcieSwitchSize = 0 then m.localSize
  else if m.localSize % m.pcieSwitchSize = 0 then m.pcieSwitchSize else m.localSize

/-- `_is_distributed_job`. -/
def isDistributed : Bool := if 0 < m.numWorker then true else m.forceDistributed

def isCrossPcieSwitch : Bool := m.ncclSize < m.localSize

/-- `IsRootDevice`: the last process of the machine. -/
def isRootDevice (localRank : ℕ) : Bool := localRank == m.localSize - 1

def signalRoot (localRank : ℕ) : ℕ := localRank / m.ncclSize * m.ncclSize + m.ncclSize - 1

def isSignalRoot (localRank : ℕ) : Bool := m.signalRoot localRank == localRank

/-! ## Queue lists -/

def getPushQueueList (localRank : ℕ) : List QueueType :=
  let reduce : List QueueType :=
    if m.isSignalRoot localRank then [.reduce] else [.coordinateReduce, .reduce]
  let copy : List QueueType := if m.isDistributed || m.isCrossPcieSwitch then [.copyD2H] else []
  let pcieReduce : List QueueType := if m.isCrossPcieSwitch then [.pcieReduce] else []
  -- between switches `PUSH` is a barrier without a push
  let push : List QueueType :=
    if m.isDistributed || m.isCrossPcieSwitch then
      if m.isRootDevice localRank then [.push] else [.coordinatePush]
    else []
  if m.useGdr then [.push] else reduce ++ copy ++ pcieReduce ++ push

def getPullQueueList (localRank : ℕ) : List QueueType :=
  let pull : List QueueType :=
    if m.isDistributed then if m.isRootDevice localRank then [.pull] else [] else []
  let copy : List QueueType := if m.isDistributed || m.isCrossPcieSwitch then [.copyH2D] else []
  let broadcast : List QueueType :=
    if m.isSignalRoot localRank then [.broadcast] else [.coordinateBroadcast, .broadcast]
  if m.useGdr then [.pull] else pull ++ copy ++ broadcast

/-- The list `StartTask` hands to `EnqueueTensor`, which gives a copy to every partition. -/
def queueList (localRank : ℕ) : List QueueType :=
  m.getPushQueueList localRank ++ m.getPullQueueList localRank

/-! ## Loops -/

/-- The queues whose loops `byteps_init` starts in a process. -/
def loops (localRank : ℕ) : List QueueType :=
  let pull : List QueueType :=
    if m.isDistributed && m.isRootDevice localRank then [.pull, .decompress] else []
  let pcieReduce : List QueueType := if m.isCrossPcieSwitch then [.pcieReduce] else []
  let copy : List QueueType :=
    if m.isCrossPcieSwitch || m.isDistributed then
      if m.isRootDevice localRank then [.copyD2H, .push, .compress, .copyH2D]
      else [.copyD2H, .coordinatePush, .copyH2D]
    else []
  -- the NCCL loops serve both of their queues
  let nccl : List QueueType :=
    if m.isSignalRoot localRank then [.reduce, .broadcast]
    else [.reduce, .broadcast, .coordinateReduce, .coordinateBroadcast]
  let gdr : List QueueType :=
    if m.isDistributed && m.isRootDevice localRank then [.push, .pull] else []
  if m.useGdr then gdr else pull ++ pcieReduce ++ copy ++ nccl

end Machine

def soleGpu (numWorker : ℕ) (useGdr : Bool) (pcieSwitchSize : ℕ) : Machine :=
  { localSize := 1, pcieSwitchSize, numWorker, useGdr }

theorem soleGpu_ncclSize (numWorker : ℕ) (useGdr : Bool) (pcieSwitchSize : ℕ) :
    (soleGpu numWorker useGdr pcieSwitchSize).ncclSize = 1 := by
  unfold Machine.ncclSize soleGpu
  dsimp only
  split_ifs with hdiv hmod
  · rfl
  · -- a switch size that divides into one GPU
    have hle : pcieSwitchSize ≤ 1 := by
      by_contra hlt
      exact hdiv (Nat.div_eq_of_lt (by omega))
    have hne : pcieSwitchSize ≠ 0 := by
      rintro rfl
      exact hdiv (Nat.div_zero 1)
    omega
  · rfl

theorem queueList_soleGpu {numWorker pcieSwitchSize : ℕ} (h : 0 < numWorker) (useGdr : Bool) :
    (soleGpu numWorker useGdr pcieSwitchSize).queueList 0 =
      if useGdr then [.push, .pull]
      else [.reduce, .copyD2H, .push, .pull, .copyH2D, .broadcast] := by
  have hsize := soleGpu_ncclSize numWorker useGdr pcieSwitchSize
  have hdist : (soleGpu numWorker useGdr pcieSwitchSize).isDistributed = true := if_pos h
  have hcross : (soleGpu numWorker useGdr pcieSwitchSize).isCrossPcieSwitch = false := by
    unfold Machine.isCrossPcieSwitch
    rw [hsize]
    rfl
  have hroot : (soleGpu numWorker useGdr pcieSwitchSize).isRootDevice 0 = true := rfl
  have hsignal : (soleGpu numWorker useGdr pcieSwitchSize).isSignalRoot 0 = true := by
    unfold Machine.isSignalRoot Machine.signalRoot
    rw [hsize]
    rfl
  unfold Machine.queueList Machine.getPushQueueList Machine.getPullQueueList
  rw [hdist, hcross, hroot, hsignal]
  cases useGdr <;> rfl

end MegatronDPU.Worker
