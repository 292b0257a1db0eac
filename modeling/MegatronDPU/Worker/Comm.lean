import MegatronDPU.Worker.Pipeline

/-!
# Signals between the processes of a machine

The processes of a machine talk over three communicators: all of them, those behind one PCIe
switch, and those with the same place behind their switches. Each has its last member as root. The
root of a communicator counts the signals of the other members in ready tables, one count for each
key; a process that is not the root device counts the signal to copy a result back.
-/

namespace MegatronDPU.Worker

open List
open Server (Key)

/-- The communicators: of the machine, of a switch, and across switches. -/
inductive Comm
  | basic
  | nccl
  | cpu
  deriving DecidableEq

inductive BytePSCommSignal
  | reduceReady
  | pcieReduceReady
  | bcastReady
  | pushReady
  | doReduce
  | doBroadcast
  | doGroup
  | doCopyH2D
  deriving DecidableEq

structure BytePSCommMsg where
  src : ℕ
  signal : BytePSCommSignal
  key : Key
  deriving DecidableEq

namespace Machine

variable (m : Machine)

/-! ## Members and roots -/

def members (c : Comm) (localRank : ℕ) : List ℕ :=
  match c with
  | .basic => range m.localSize
  | .nccl => (range m.ncclSize).map (localRank / m.ncclSize * m.ncclSize + ·)
  | .cpu =>
    let start := localRank % m.ncclSize
    range' start ((m.localSize - start + (m.ncclSize - 1)) / m.ncclSize) m.ncclSize

/-- `_members.back()`. -/
def root (c : Comm) (localRank : ℕ) : ℕ := (m.members c localRank).getLastD 0

variable {m} {c : Comm} {r p : ℕ}

theorem ncclSize_pos (h : 0 < m.localSize) : 0 < m.ncclSize := by
  unfold ncclSize
  split_ifs with hdiv hmod
  · exact h
  · exact pos_of_ne_zero fun hzero => hdiv (by rw [hzero, Nat.div_zero])
  · exact h

theorem ncclSize_dvd (m : Machine) : m.ncclSize ∣ m.localSize := by
  unfold ncclSize
  split_ifs with hdiv hmod
  · exact dvd_rfl
  · exact Nat.dvd_of_mod_eq_zero hmod
  · exact dvd_rfl

section

variable (hr : r < m.localSize)
include hr

theorem root_basic : m.root .basic r = m.localSize - 1 := by
  obtain ⟨n, hn⟩ := Nat.exists_eq_succ_of_ne_zero (Nat.ne_zero_of_lt hr)
  unfold root members
  rw [hn, range_succ, getLastD_concat]
  rfl

theorem root_nccl : m.root .nccl r = m.signalRoot r := by
  obtain ⟨n, hn⟩ := Nat.exists_eq_succ_of_ne_zero (ncclSize_pos (by omega : 0 < m.localSize)).ne'
  unfold root members signalRoot
  rw [hn, range_succ, map_append, map_singleton, getLastD_concat]
  rfl

theorem members_cpu : m.members .cpu r =
      range' (r % m.ncclSize) (m.localSize / m.ncclSize) m.ncclSize := by
  have hpos : 0 < m.ncclSize := ncclSize_pos (by omega)
  have hlt : r % m.ncclSize < m.ncclSize := Nat.mod_lt _ hpos
  obtain ⟨d, hd⟩ := m.ncclSize_dvd
  have hle : m.ncclSize ≤ m.localSize := Nat.le_of_dvd (by omega) m.ncclSize_dvd
  have hlen : (m.localSize - r % m.ncclSize + (m.ncclSize - 1)) / m.ncclSize =
      m.localSize / m.ncclSize := by
    have hsum : m.localSize - r % m.ncclSize + (m.ncclSize - 1) =
        m.ncclSize - 1 - r % m.ncclSize + m.ncclSize * d := by omega
    rw [hsum, Nat.add_mul_div_left _ _ hpos, Nat.div_eq_of_lt (by omega), hd,
      Nat.mul_div_cancel_left d hpos, zero_add]
  unfold members
  dsimp only
  rw [hlen]

theorem root_cpu :
    m.root .cpu r = r % m.ncclSize + m.ncclSize * (m.localSize / m.ncclSize - 1) := by
  have hle : m.ncclSize ≤ m.localSize := Nat.le_of_dvd (by omega) m.ncclSize_dvd
  have hdiv : 0 < m.localSize / m.ncclSize := Nat.div_pos hle (ncclSize_pos (by omega))
  obtain ⟨d, hd⟩ := Nat.exists_eq_succ_of_ne_zero hdiv.ne'
  unfold root
  rw [members_cpu hr, hd, range'_concat, getLastD_concat]
  rfl

theorem mem_members_basic :
    p ∈ m.members .basic r ↔ p < m.localSize ∧ m.root .basic p = m.root .basic r := by
  show p ∈ range m.localSize ↔ _
  rw [mem_range, root_basic hr]
  exact ⟨fun hp => ⟨hp, root_basic hp⟩, fun hp => hp.1⟩

theorem mem_members_nccl :
    p ∈ m.members .nccl r ↔ p < m.localSize ∧ m.root .nccl p = m.root .nccl r := by
  have hpos : 0 < m.ncclSize := ncclSize_pos (by omega)
  obtain ⟨d, hd⟩ := m.ncclSize_dvd
  have hdiv : p ∈ m.members .nccl r ↔ p / m.ncclSize = r / m.ncclSize := by
    show p ∈ (range m.ncclSize).map _ ↔ _
    rw [mem_map, Nat.div_eq_iff hpos]
    constructor
    · rintro ⟨i, hi, rfl⟩
      have hi := mem_range.mp hi
      omega
    · intro hp
      exact ⟨p - r / m.ncclSize * m.ncclSize, mem_range.mpr (by omega), by omega⟩
  have hlt : p / m.ncclSize = r / m.ncclSize → p < m.localSize := by
    intro hp
    rw [hd, mul_comm, ← Nat.div_lt_iff_lt_mul hpos, hp, Nat.div_lt_iff_lt_mul hpos,
      mul_comm, ← hd]
    exact hr
  rw [hdiv]
  constructor
  · intro hp
    refine ⟨hlt hp, ?_⟩
    rw [root_nccl hr, root_nccl (hlt hp)]
    unfold signalRoot
    rw [hp]
  · rintro ⟨hp, hroot⟩
    rw [root_nccl hr, root_nccl hp] at hroot
    unfold signalRoot at hroot
    exact Nat.eq_of_mul_eq_mul_right hpos (by omega)

theorem mem_members_cpu :
    p ∈ m.members .cpu r ↔ p < m.localSize ∧ m.root .cpu p = m.root .cpu r := by
  have hpos : 0 < m.ncclSize := ncclSize_pos (by omega)
  obtain ⟨d, hd⟩ := m.ncclSize_dvd
  have hdiv : m.localSize / m.ncclSize = d := by rw [hd, Nat.mul_div_cancel_left d hpos]
  rw [members_cpu hr, mem_range', hdiv]
  constructor
  · rintro ⟨i, hi, rfl⟩
    have hlt : r % m.ncclSize + m.ncclSize * i < m.localSize := by
      rw [hd]
      calc r % m.ncclSize + m.ncclSize * i < m.ncclSize + m.ncclSize * i :=
            Nat.add_lt_add_right (Nat.mod_lt r hpos) _
        _ = m.ncclSize * (i + 1) := by rw [Nat.mul_succ, add_comm]
        _ ≤ m.ncclSize * d := Nat.mul_le_mul_left _ hi
    refine ⟨hlt, ?_⟩
    rw [root_cpu hlt, root_cpu hr, Nat.add_mul_mod_self_left, Nat.mod_mod]
  · rintro ⟨hp, hroot⟩
    rw [root_cpu hp, root_cpu hr] at hroot
    refine ⟨p / m.ncclSize, ?_, ?_⟩
    · rw [Nat.div_lt_iff_lt_mul hpos, mul_comm, ← hd]
      exact hp
    · rw [← add_right_cancel hroot, Nat.mod_add_div]

theorem mem_members : p ∈ m.members c r ↔ p < m.localSize ∧ m.root c p = m.root c r := by
  cases c with
  | basic => exact mem_members_basic hr
  | nccl => exact mem_members_nccl hr
  | cpu => exact mem_members_cpu hr

theorem root_mem : m.root c r ∈ m.members c r := by
  have hself : r ∈ m.members c r := (mem_members hr).mpr ⟨hr, rfl⟩
  unfold root
  rw [getLastD_eq_getLast?, getLast?_eq_some_getLast (ne_nil_of_mem hself)]
  exact getLast_mem _

theorem root_lt : m.root c r < m.localSize :=
  ((mem_members hr).mp (root_mem hr)).1

theorem root_root : m.root c (m.root c r) = m.root c r :=
  ((mem_members hr).mp (root_mem hr)).2

end

theorem root_last (h : 0 < m.localSize) : m.root c (m.localSize - 1) = m.localSize - 1 := by
  have hpos : 0 < m.ncclSize := ncclSize_pos h
  obtain ⟨d, hd⟩ := m.ncclSize_dvd
  obtain ⟨d, rfl⟩ : ∃ d', d = d' + 1 :=
    Nat.exists_eq_succ_of_ne_zero (by rintro rfl; omega)
  have hsplit : m.localSize - 1 = m.ncclSize - 1 + m.ncclSize * d := by
    rw [hd, Nat.mul_succ]
    omega
  cases c with
  | basic => exact root_basic (by omega)
  | nccl =>
    rw [root_nccl (by omega)]
    unfold signalRoot
    rw [hsplit, Nat.add_mul_div_left _ _ hpos, Nat.div_eq_of_lt (by omega), zero_add,
      mul_comm]
    omega
  | cpu =>
    rw [root_cpu (by omega), hsplit, Nat.add_mul_mod_self_left, Nat.mod_eq_of_lt (by omega), hd,
      Nat.mul_div_cancel_left _ hpos, Nat.add_sub_cancel]

theorem nodup_members (m : Machine) (c : Comm) (r : ℕ) : (m.members c r).Nodup := by
  cases c with
  | basic => exact nodup_range
  | nccl => exact nodup_range.map fun _ _ h => add_left_cancel h
  | cpu =>
    show (range' _ _ _).Nodup
    rcases Nat.eq_zero_or_pos m.ncclSize with hzero | hpos
    · rw [hzero, Nat.div_zero]
      exact nodup_nil
    · exact nodup_range' _ hpos

def peers (m : Machine) (c : Comm) (localRank : ℕ) : Finset ℕ :=
  (Finset.range m.localSize).filter fun p => m.root c p = localRank ∧ p ≠ localRank

theorem mem_peers : p ∈ m.peers c r ↔ p < m.localSize ∧ m.root c p = r ∧ p ≠ r := by
  unfold peers
  rw [Finset.mem_filter, Finset.mem_range]

theorem card_peers (hr : r < m.localSize) (hroot : m.root c r = r) :
    (m.peers c r).card = (m.members c r).length - 1 := by
  have hself : r ∈ (m.members c r).toFinset :=
    mem_toFinset.mpr ((mem_members hr).mpr ⟨hr, rfl⟩)
  have hpeers : m.peers c r = (m.members c r).toFinset.erase r := by
    ext p
    rw [mem_peers, Finset.mem_erase, mem_toFinset, mem_members hr, hroot]
    tauto
  rw [hpeers, Finset.card_erase_of_mem hself, toFinset_card_of_nodup (m.nodup_members c r)]

/-! ## Ready tables -/

end Machine

inductive Table
  | reduce
  | pcieReduce
  | broadcast
  | push
  | copy
  deriving DecidableEq

namespace Table

def queue : Table → QueueType
  | .reduce => .reduce
  | .pcieReduce => .pcieReduce
  | .broadcast => .broadcast
  | .push => .push
  | .copy => .copyH2D

def signal : Table → BytePSCommSignal
  | .reduce => .reduceReady
  | .pcieReduce => .pcieReduceReady
  | .broadcast => .bcastReady
  | .push => .pushReady
  | .copy => .doCopyH2D

end Table

namespace Machine

variable (m : Machine)

/-- The tables that `Init` creates in a process. -/
def hasTable (localRank : ℕ) : Table → Bool
  | .reduce | .broadcast => m.isSignalRoot localRank
  | .pcieReduce => m.isCrossPcieSwitch && m.root .cpu localRank == localRank
  | .push => m.isRootDevice localRank
  | .copy => !m.isRootDevice localRank

/-- `_ready_count`. -/
def readyCount : Table → ℕ
  | .reduce | .broadcast => m.ncclSize - 1
  | .pcieReduce => m.localSize / m.ncclSize - 1
  | .push => m.localSize - 1
  | .copy => 1

/-- `_rt` of a queue. -/
def readyTable (localRank : ℕ) (q : QueueType) : Option Table :=
  match q with
  | .reduce => if m.hasTable localRank .reduce then some .reduce else none
  | .pcieReduce => if m.hasTable localRank .pcieReduce then some .pcieReduce else none
  | .compress | .push => if m.hasTable localRank .push then some .push else none
  | .copyH2D => if m.hasTable localRank .copy then some .copy else none
  | .broadcast => if m.hasTable localRank .broadcast then some .broadcast else none
  | _ => none

def sources (localRank : ℕ) : Table → Finset ℕ
  | .reduce | .broadcast => m.peers .nccl localRank
  | .pcieReduce => m.peers .cpu localRank
  | .push => m.peers .basic localRank
  | .copy => {m.root .basic localRank}

variable {m} {r p : ℕ} {τ : Table}

theorem readyTable_queue (h : m.hasTable r τ = true) : m.readyTable r τ.queue = some τ := by
  cases τ <;> exact if_pos h

theorem readyTable_eq_some {q : QueueType} (hq : q ≠ .compress) (h : m.readyTable r q = some τ) :
    m.hasTable r τ = true ∧ τ.queue = q := by
  unfold readyTable at h
  cases q with
  | compress => exact absurd rfl hq
  | reduce | pcieReduce | push | copyH2D | broadcast =>
    dsimp only at h
    split_ifs at h with htable
    cases h
    exact ⟨htable, rfl⟩
  | coordinateReduce | copyD2H | coordinatePush | pull | decompress | coordinateBroadcast =>
    cases h

theorem root_of_isSignalRoot (hr : r < m.localSize) (h : m.isSignalRoot r = true) :
    m.root .nccl r = r := by
  rw [root_nccl hr]
  exact beq_iff_eq.mp h

theorem isRootDevice_iff (hr : r < m.localSize) :
    m.isRootDevice r = true ↔ m.root .basic r = r := by
  rw [root_basic hr]
  exact beq_iff_eq.trans eq_comm

theorem card_sources (hr : r < m.localSize) (h : m.hasTable r τ = true) :
    (m.sources r τ).card = m.readyCount τ := by
  cases τ with
  | reduce | broadcast =>
    refine (card_peers hr (root_of_isSignalRoot hr h)).trans ?_
    show ((range m.ncclSize).map _).length - 1 = _
    rw [length_map, length_range]
    rfl
  | pcieReduce =>
    obtain ⟨-, hroot⟩ := Bool.and_eq_true_iff.mp h
    refine (card_peers hr (beq_iff_eq.mp hroot)).trans ?_
    rw [members_cpu hr, length_range']
    rfl
  | push =>
    refine (card_peers hr ((isRootDevice_iff hr).mp h)).trans ?_
    show (range m.localSize).length - 1 = _
    rw [length_range]
    rfl
  | copy => exact Finset.card_singleton _

end Machine

end MegatronDPU.Worker
