import MegatronDPU.Lib.Nccl
import MegatronDPU.Worker.Call
import MegatronDPU.Worker.Encode

/-!
# How the ranks of a switch share a partition

`PostNcclCalls`, `RunCopyDevice2HostLoopOnce` and `CopyHost2Device` each compute which part of a
partition is whose: equal parts by rank, what is left to the last rank, or with
`BYTEPS_REDUCE_ROOTS` everything to the rank that the key is hashed to. `Owns` is the part of a rank
that all of them mean. A CPU tensor is copied from and to its input, also when `REDUCE` has put the
sums into another output (`cpu_ranks_copy_unreduced`).

NCCL is a parameter: `FitTogether` asks for what holds with every library that does what NCCL
documents of calls that match.
-/

namespace MegatronDPU.Worker

open Finset Option
open Server (Key)

/-! ## The four stages -/

/-- `GetReduceRootByKey`, an `int`; there is none in an empty list. -/
def getReduceRootByKey (reduceRoots : List ℤ) (text : UInt64 → List Int8) (key : Key) : Option ℤ :=
  reduceRoots[(hashDJB2 text key).toNat % reduceRoots.length]?

/-- The ranks of a switch and a partition of a tensor. Addresses are relative to the offset of the
partition. -/
structure Switch where
  ncclSize : ℕ
  size_pos : 0 < ncclSize
  /-- The bytes of an element. -/
  unitLen : ℕ
  unit_pos : 0 < unitLen
  len : ℕ
  unit_dvd : unitLen ∣ len
  key : Key
  device : Device
  /-- The output tensor has the storage of the input tensor. -/
  inPlace : Bool
  /-- The task has one object for both. -/
  sameTensor : Bool
  inPlace_of_same : sameTensor = true → inPlace = true
  /-- `BYTEPS_REDUCE_ROOTS`, if it is set. -/
  reduceRoots : Option (List ℤ)
  /-- What the hash finds behind its pointer, by rank and stage. -/
  text : ℕ → QueueType → UInt64 → List Int8

namespace Switch

variable (s : Switch)

def outputBuffer : Buffer := if s.inPlace then .input else .output

def pointers : Pointers where
  device := s.device
  tensor := .input
  output := s.outputBuffer
  cpubuff := some .shared
  gpuPtr := if s.device = .cpu then some .input else none

def cell (byte : ℕ) : ℕ := byte / s.unitLen

/-- `num_elem_per_gpu` and `left_elem` of `PostNcclCalls`. -/
def shares : ℕ × ℕ :=
  match s.reduceRoots with
  | none =>
    let numElemPerGpu := s.len / s.ncclSize / s.unitLen
    (numElemPerGpu, s.len / s.unitLen - numElemPerGpu * s.ncclSize)
  | some _ => (0, s.len / s.unitLen)

/-- `nccl_root`, as a rank finds it in a stage. -/
def root (stage : QueueType) (rank : ℕ) : Option ℤ :=
  match s.reduceRoots with
  | none => some (s.ncclSize - 1)
  | some roots => getReduceRootByKey roots (s.text rank stage) s.key

/-- `p` of `PostNcclCalls`. -/
def ncclBuffer (thisOp : QueueType) : Option Buffer :=
  match s.device with
  | .cpu => s.pointers.gpuPtr
  | .gpu => some (if thisOp = .reduce then s.pointers.tensor else s.pointers.output)

/-- `out_p` of `PostNcclCalls`. -/
def reduceTarget : Option Buffer :=
  if s.device = .cpu ∧ s.sameTensor then s.ncclBuffer .reduce else some s.pointers.output

/-- The NCCL calls of a rank; `none` is a failed check or an empty list of roots. -/
def postNcclCalls (thisOp : QueueType) (rank : ℕ) : Option (List (Nccl.Call Buffer)) := do
  let root ← s.root thisOp rank
  let (num, left) := s.shares
  let p ← s.ncclBuffer thisOp
  let part := s.cell (rank * num * s.unitLen)
  let rest := s.cell (s.len - left * s.unitLen)
  match thisOp with
  | .reduce => do
    let outP ← s.reduceTarget
    some ((if num ≠ 0 then [⟨.reduceScatter, (p, 0), (outP, part), num⟩] else []) ++
      (if left ≠ 0 then [⟨.reduce root, (p, rest), (outP, rest), left⟩] else []))
  | .broadcast =>
    some ((if num ≠ 0 then [⟨.allGather, (p, part), (p, 0), num⟩] else []) ++
      (if left ≠ 0 then [⟨.broadcast root, (p, rest), (p, rest), left⟩] else []))
  | _ => none

/-- Offset and length of what a rank copies in `COPYD2H` or `COPYH2D`. -/
def copyPart (stage : QueueType) (rank : ℕ) : Option (ℕ × ℕ) :=
  match s.reduceRoots with
  | none => some (copyRange s.ncclSize rank s.unitLen s.len)
  | some roots => (getReduceRootByKey roots (s.text rank stage) s.key).map fun root =>
      (0, if root = (rank : ℤ) then s.len else 0)

/-- What every rank of the switch has; `none` if one has failed. -/
def allRanks {γ : Type} (f : ℕ → Option γ) (other : ℕ → γ) : Option (ℕ → γ) :=
  if ∀ r < s.ncclSize, (f r).isSome then some fun r => (f r).getD (other r) else none

variable {α : Type}

/-- `CopyHost2Device` of a rank. -/
def copyHost2Device (host : ℕ → α) (rank : ℕ) (m : Memory α) : Option (Memory α) := do
  let (off, n) ← s.copyPart .copyH2D rank
  let dst ← s.pointers.copyTarget
  some (Nccl.fill m (dst, s.cell off) (s.cell n) fun i => host (s.cell off + i))

/-- `REDUCE` or `BROADCAST` of all ranks; one rank makes no NCCL calls. -/
def nccl (lib : Nccl.Library Buffer α) (thisOp : QueueType) (m : ℕ → Memory α) :
    Option (ℕ → Memory α) :=
  if 1 < s.ncclSize then
    (s.allRanks (s.postNcclCalls thisOp) fun _ => []).bind fun calls =>
      lib.group s.ncclSize calls m
  else some m

/-! ## What the stages are to do -/

def Copies (stage : QueueType) (rank byte : ℕ) : Prop :=
  ∃ part, s.copyPart stage rank = some part ∧ part.1 ≤ byte ∧ byte < part.1 + part.2

/-- A byte that a rank is to send in an NCCL call of `BROADCAST`, from where it has been copied. -/
def Sends (rank byte : ℕ) : Prop :=
  ∃ calls, s.postNcclCalls .broadcast rank = some calls ∧ ∃ call ∈ calls,
    (call.op = .allGather ∨ call.op = .broadcast rank) ∧
    s.pointers.copyTarget = some call.send.1 ∧
    call.send.2 * s.unitLen ≤ byte ∧ byte < (call.send.2 + call.count) * s.unitLen

/-- The stages of the ranks do their parts of one sum, whatever NCCL does with calls that do not
match. -/
structure FitTogether (α : Type) [AddCommMonoid α] : Prop where
  disjoint : ∀ r < s.ncclSize, ∀ r' < s.ncclSize, ∀ byte,
    s.Copies .copyD2H r byte → s.Copies .copyD2H r' byte → r = r'
  cover : ∀ byte, byte < s.len ↔ ∃ r < s.ncclSize, s.Copies .copyD2H r byte
  /-- What is copied to the host has been reduced. -/
  reduced : ∀ lib : Nccl.Library Buffer α, lib.Conforms → ∀ m : ℕ → Memory α, ∃ m' src,
    s.nccl lib .reduce m = some m' ∧ s.pointers.copySource s.ncclSize = some src ∧
    ∀ r < s.ncclSize, ∀ c, s.Copies .copyD2H r (c * s.unitLen) →
      m' r src c = ∑ k ∈ range s.ncclSize, m k .input c
  /-- What is copied from the host is what is sent to the others. -/
  sources : 1 < s.ncclSize → ∀ r < s.ncclSize, ∀ byte, s.Copies .copyH2D r byte ↔ s.Sends r byte
  /-- Every rank gets everything. -/
  complete : ∀ lib : Nccl.Library Buffer α, lib.Conforms →
    ∀ (host : ℕ → α) (m : ℕ → Memory α), ∃ m₁ m₂,
    s.allRanks (fun r => s.copyHost2Device host r (m r)) m = some m₁ ∧
    s.nccl lib .broadcast m₁ = some m₂ ∧
    ∀ r < s.ncclSize, ∀ c < s.len / s.unitLen, m₂ r s.outputBuffer c = host c

/-- In each direction the key is hashed to one rank, and the ranks that take part agree on it. -/
def NamesOne : Prop :=
  ∃ ρ < s.ncclSize, ∃ σ < s.ncclSize,
    (∀ r < s.ncclSize, s.root .copyD2H r = some ↑r ↔ r = ρ) ∧
    (∀ r < s.ncclSize, s.root .copyH2D r = some ↑r ↔ r = σ) ∧
    (1 < s.ncclSize → ∀ r < s.ncclSize,
      s.root .reduce r = some ↑ρ ∧ s.root .broadcast r = some ↑σ)

/-! ## Parts -/

/-- An element belongs to a rank: to its part, or to what is left and the rank is named for it. -/
def Owns (named : Prop) (r c : ℕ) : Prop :=
  (r * s.shares.1 ≤ c ∧ c < r * s.shares.1 + s.shares.1) ∨
    (named ∧ s.ncclSize * s.shares.1 ≤ c ∧ c < s.ncclSize * s.shares.1 + s.shares.2)

theorem len_eq : s.len / s.unitLen * s.unitLen = s.len := Nat.div_mul_cancel s.unit_dvd

theorem shares_add : s.ncclSize * s.shares.1 + s.shares.2 = s.len / s.unitLen := by
  unfold shares
  cases s.reduceRoots with
  | none =>
    dsimp only
    have hle : s.len / s.ncclSize / s.unitLen * s.ncclSize ≤ s.len / s.unitLen := by
      rw [Nat.div_div_eq_div_mul, mul_comm s.ncclSize, ← Nat.div_div_eq_div_mul]
      exact Nat.div_mul_le_self _ _
    rw [mul_comm s.ncclSize]
    omega
  | some roots =>
    dsimp only
    omega

theorem part_le {r : ℕ} (hr : r < s.ncclSize) :
    r * s.shares.1 + s.shares.1 ≤ s.ncclSize * s.shares.1 := by
  rw [← Nat.add_one_mul]
  exact Nat.mul_le_mul_right _ hr

variable {s} {r r' c byte : ℕ}

variable {named : Prop} {ρ : ℕ} {roots : List ℤ}

theorem Owns.lt (hr : r < s.ncclSize) (h : s.Owns named r c) : c < s.len / s.unitLen := by
  have hpart := s.part_le hr
  have hadd := s.shares_add
  rcases h with h | h <;> omega

theorem Owns.imp {named' : Prop} (h : s.Owns named r c) (himp : named → named') :
    s.Owns named' r c :=
  h.imp_right fun hrest => ⟨himp hrest.1, hrest.2⟩

theorem Owns.unique {named' : Prop} (hr : r < s.ncclSize) (hr' : r' < s.ncclSize)
    (h : s.Owns named r c) (h' : s.Owns named' r' c) (heq : named → named' → r = r') : r = r' := by
  have hpart := s.part_le hr
  have hpart' := s.part_le hr'
  rcases h with ⟨hle, hlt⟩ | ⟨hn, hle, hlt⟩ <;> rcases h' with ⟨hle', hlt'⟩ | ⟨hn', hle', hlt'⟩
  · rw [← Nat.add_one_mul] at hlt hlt'
    have := lt_of_mul_lt_mul_right' (lt_of_le_of_lt hle hlt')
    have := lt_of_mul_lt_mul_right' (lt_of_le_of_lt hle' hlt)
    omega
  · omega
  · omega
  · exact heq hn hn'

theorem exists_owns (hρ : ρ < s.ncclSize) (hc : c < s.len / s.unitLen) :
    ∃ r < s.ncclSize, s.Owns (r = ρ) r c := by
  have hadd := s.shares_add
  rcases lt_or_ge c (s.ncclSize * s.shares.1) with hlt | hge
  · have hpos : 0 < s.shares.1 := Nat.pos_of_mul_pos_left (Nat.zero_lt_of_lt hlt)
    refine ⟨c / s.shares.1, (Nat.div_lt_iff_lt_mul hpos).mpr hlt, .inl ⟨Nat.div_mul_le_self _ _, ?_⟩⟩
    exact Nat.lt_div_mul_add hpos
  · exact ⟨ρ, hρ, .inr ⟨rfl, hge, by omega⟩⟩

theorem lt_len_iff : byte < s.len ↔ byte / s.unitLen < s.len / s.unitLen := by
  rw [Nat.div_lt_iff_lt_mul s.unit_pos, s.len_eq]

theorem mem_bytes_iff (s : Switch) (x y byte : ℕ) :
    x * s.unitLen ≤ byte ∧ byte < x * s.unitLen + y * s.unitLen ↔
      x ≤ byte / s.unitLen ∧ byte / s.unitLen < x + y := by
  rw [Nat.le_div_iff_mul_le s.unit_pos, Nat.div_lt_iff_lt_mul s.unit_pos, add_mul]

theorem root_of_scatter (h : s.reduceRoots = none) (stage : QueueType) (r : ℕ) :
    s.root stage r = some (s.ncclSize - 1 : ℤ) := by
  rw [root, h]

theorem named_iff_of_scatter (h : s.reduceRoots = none) (stage : QueueType) (r : ℕ) :
    s.root stage r = some ↑r ↔ r = s.ncclSize - 1 := by
  have hpos := s.size_pos
  rw [root_of_scatter h, Option.some.injEq]
  omega

theorem shares_of_roots (h : s.reduceRoots = some roots) : s.shares = (0, s.len / s.unitLen) := by
  rw [shares, h]

theorem owns_of_scatter (h : s.reduceRoots = none) (stage : QueueType) (r c : ℕ) :
    s.Owns (s.root stage r = some ↑r) r c ↔ r * s.shares.1 ≤ c ∧
      c < r * s.shares.1 + (s.shares.1 + if r = s.ncclSize - 1 then s.shares.2 else 0) := by
  rw [Owns, named_iff_of_scatter h]
  by_cases hr : r = s.ncclSize - 1
  · have hlast : r * s.shares.1 + s.shares.1 = s.ncclSize * s.shares.1 := by
      rw [← Nat.add_one_mul, hr, Nat.sub_add_cancel s.size_pos]
    rw [if_pos hr, and_iff_right hr]
    omega
  · rw [if_neg hr, or_iff_left fun hn => hr hn.1, add_zero]

theorem copies_iff (stage : QueueType) :
    s.Copies stage r byte ↔ s.Owns (s.root stage r = some ↑r) r (byte / s.unitLen) := by
  cases h : s.reduceRoots with
  | none =>
    have hpart : s.copyPart stage r = some (r * s.shares.1 * s.unitLen,
        (s.shares.1 + if r = s.ncclSize - 1 then s.shares.2 else 0) * s.unitLen) := by
      simp only [copyPart, shares, h, copyRange]
      congr 2
      rw [add_mul]
      split_ifs <;> simp_all
    rw [owns_of_scatter h, ← mem_bytes_iff, Copies, hpart]
    simp
  | some roots =>
    have hroot : s.root stage r = getReduceRootByKey roots (s.text r stage) s.key := by
      rw [root, h]
    rw [Owns, shares_of_roots h, Copies, copyPart, h, hroot]
    dsimp only
    cases getReduceRootByKey roots (s.text r stage) s.key with
    | none => simp
    | some root => by_cases hr : root = r <;> simp [hr, lt_len_iff]

theorem copies_cell_iff (stage : QueueType) :
    s.Copies stage r (c * s.unitLen) ↔ s.Owns (s.root stage r = some ↑r) r c := by
  rw [copies_iff, Nat.mul_div_cancel _ s.unit_pos]

theorem unit_dvd_copyPart {stage : QueueType} {part : ℕ × ℕ}
    (h : s.copyPart stage r = some part) : s.unitLen ∣ part.1 ∧ s.unitLen ∣ part.2 := by
  unfold copyPart at h
  split at h
  · cases h
    refine ⟨dvd_mul_left _ _, Nat.dvd_add (dvd_mul_left _ _) ?_⟩
    split_ifs
    · exact dvd_mul_left _ _
    · exact dvd_zero _
  · obtain ⟨root, -, rfl⟩ := map_eq_some_iff.mp h
    refine ⟨dvd_zero _, ?_⟩
    split_ifs
    · exact s.unit_dvd
    · exact dvd_zero _

/-! ## Calls -/

/-- Where `CopyHost2Device` and `BROADCAST` work. -/
def target (s : Switch) : Buffer := if s.device = .cpu then .input else s.outputBuffer

theorem copyTarget_eq (s : Switch) : s.pointers.copyTarget = some s.target := by
  unfold Pointers.copyTarget pointers target
  cases s.device <;> rfl

theorem ncclBuffer_broadcast (s : Switch) : s.ncclBuffer .broadcast = some s.target := by
  unfold ncclBuffer pointers target
  cases s.device <;> rfl

theorem ncclBuffer_reduce (s : Switch) : s.ncclBuffer .reduce = some .input := by
  unfold ncclBuffer pointers
  cases s.device <;> rfl

theorem reduceTarget_eq (s : Switch) : s.reduceTarget = some s.outputBuffer := by
  unfold reduceTarget
  split_ifs with h
  · rw [ncclBuffer_reduce, outputBuffer, if_pos (s.inPlace_of_same h.2)]
  · rfl

theorem target_eq (h : s.device = .gpu ∨ s.inPlace = true) : s.target = s.outputBuffer := by
  rcases h with h | h
  · rw [target, h]
    rfl
  · rw [target, outputBuffer, if_pos h, ite_self]

theorem copySource_eq (h : s.device = .gpu ∨ s.inPlace = true) : s.pointers.copySource s.ncclSize =
      some (if 1 < s.ncclSize then s.outputBuffer else .input) := by
  unfold Pointers.copySource pointers
  cases hd : s.device with
  | gpu => rfl
  | cpu =>
    have hin : s.inPlace = true := h.resolve_left (by rw [hd]; decide)
    rw [outputBuffer, if_pos hin, ite_self]
    rfl

theorem cell_part (s : Switch) (r : ℕ) : s.cell (r * s.shares.1 * s.unitLen) = r * s.shares.1 :=
  Nat.mul_div_cancel _ s.unit_pos

theorem cell_rest (s : Switch) :
    s.cell (s.len - s.shares.2 * s.unitLen) = s.ncclSize * s.shares.1 := by
  have hlen : s.len - s.shares.2 * s.unitLen = s.ncclSize * s.shares.1 * s.unitLen := by
    rw [← s.len_eq, ← s.shares_add, add_mul, Nat.add_sub_cancel]
  rw [hlen]
  exact Nat.mul_div_cancel _ s.unit_pos

theorem postNcclCalls_reduce (s : Switch) (r : ℕ) :
    s.postNcclCalls .reduce r = (s.root .reduce r).map fun root =>
      (if s.shares.1 ≠ 0 then
        [⟨.reduceScatter, (.input, 0), (s.outputBuffer, r * s.shares.1), s.shares.1⟩] else []) ++
      if s.shares.2 ≠ 0 then [⟨.reduce root, (.input, s.ncclSize * s.shares.1),
        (s.outputBuffer, s.ncclSize * s.shares.1), s.shares.2⟩] else [] := by
  unfold postNcclCalls
  cases s.root .reduce r with
  | none => rfl
  | some root =>
    simp only [ncclBuffer_reduce, reduceTarget_eq, cell_part, cell_rest]
    rfl

theorem postNcclCalls_broadcast (s : Switch) (r : ℕ) :
    s.postNcclCalls .broadcast r = (s.root .broadcast r).map fun root =>
      (if s.shares.1 ≠ 0 then
        [⟨.allGather, (s.target, r * s.shares.1), (s.target, 0), s.shares.1⟩] else []) ++
      if s.shares.2 ≠ 0 then [⟨.broadcast root, (s.target, s.ncclSize * s.shares.1),
        (s.target, s.ncclSize * s.shares.1), s.shares.2⟩] else [] := by
  unfold postNcclCalls
  cases s.root .broadcast r with
  | none => rfl
  | some root =>
    simp only [ncclBuffer_broadcast, cell_part, cell_rest]
    rfl

theorem exists_mem_ite {γ : Type*} {P : Prop} [Decidable P] {x : γ} {Q : γ → Prop} :
    (∃ y ∈ if P then [x] else [], Q y) ↔ P ∧ Q x := by
  by_cases h : P <;> simp [h]

theorem sends_iff :
    s.Sends r byte ↔ s.Owns (s.root .broadcast r = some ↑r) r (byte / s.unitLen) := by
  rw [Sends, postNcclCalls_broadcast, copyTarget_eq, Owns]
  cases hroot : s.root .broadcast r with
  | none =>
    -- there are roots, so nothing is shared in equal parts
    cases hroots : s.reduceRoots with
    | none =>
      rw [root_of_scatter hroots] at hroot
      cases hroot
    | some roots =>
      rw [shares_of_roots hroots]
      simp
  | some root =>
    simp only [map_some, Option.some.injEq, exists_eq_left', List.mem_append, or_and_right,
      exists_or, exists_mem_ite, add_mul, mem_bytes_iff, true_and, reduceCtorEq, false_and,
      or_false, false_or, Nccl.Op.broadcast.injEq]
    -- an empty part is not sent, and nobody owns an element of it
    refine or_congr (and_iff_right_of_imp ?_) (and_iff_right_of_imp ?_) <;> omega

/-! ## The NCCL stages -/

section Stages

variable {α : Type} [AddCommMonoid α] {m m' : ℕ → Memory α} {root : ℕ → ℤ}

theorem allRanks_some {γ : Type} {f : ℕ → Option γ} {g : ℕ → γ} (h : ∀ r, f r = some (g r))
    (other : ℕ → γ) : s.allRanks f other = some g := by
  simp [allRanks, h]

def scattered (s : Switch) (m : ℕ → Memory α) : ℕ → Memory α := fun r b c =>
  if b = s.outputBuffer ∧ r * s.shares.1 ≤ c ∧ c < r * s.shares.1 + s.shares.1 then
    ∑ k ∈ range s.ncclSize, m k .input c
  else m r b c

/-- The cells after `REDUCE`. -/
def afterReduce (s : Switch) (root : ℤ) (m : ℕ → Memory α) : ℕ → Memory α := fun r b c =>
  if (r : ℤ) = root ∧ b = s.outputBuffer ∧ s.ncclSize * s.shares.1 ≤ c ∧
      c < s.ncclSize * s.shares.1 + s.shares.2 then
    ∑ k ∈ range s.ncclSize, s.scattered m k .input c
  else s.scattered m r b c

def gathered (s : Switch) (m : ℕ → Memory α) : ℕ → Memory α := fun r b c =>
  if b = s.target ∧ c < s.ncclSize * s.shares.1 then m (c / s.shares.1) s.target c else m r b c

/-- The cells after `BROADCAST`. -/
def afterBroadcast (s : Switch) (root : ℤ) (m : ℕ → Memory α) : ℕ → Memory α := fun r b c =>
  if b = s.target ∧ s.ncclSize * s.shares.1 ≤ c ∧ c < s.ncclSize * s.shares.1 + s.shares.2 then
    s.gathered m root.toNat s.target c
  else s.gathered m r b c

/-- The ranks that take part in a call with a root name one of them. -/
def Agree (s : Switch) (root : ℕ → ℤ) : Prop :=
  s.shares.2 ≠ 0 → (∀ r < s.ncclSize, root r = root 0) ∧ Nccl.IsRank s.ncclSize (root 0)

section Calls

variable {lib : Nccl.Library Buffer α} (hlib : lib.Conforms)
include hlib

theorem group_scatter (rest : ℕ → List (Nccl.Call Buffer)) :
    lib.group s.ncclSize (fun r => (if s.shares.1 ≠ 0 then
      [⟨.reduceScatter, (.input, 0), (s.outputBuffer, r * s.shares.1), s.shares.1⟩] else []) ++
        rest r) m =
      lib.group s.ncclSize rest (s.scattered m) := by
  by_cases hzero : s.shares.1 = 0
  · have hsame : s.scattered m = m := by
      funext r b c
      exact if_neg (by omega)
    simp only [hzero, ne_eq, not_true_eq_false, if_false, List.nil_append, hsame]
  · simp only [ne_eq, hzero, not_false_eq_true, if_true, List.singleton_append]
    exact hlib.reduceScatter_parts s.size_pos .input s.outputBuffer s.shares.1

theorem group_gather (rest : ℕ → List (Nccl.Call Buffer)) :
    lib.group s.ncclSize (fun r => (if s.shares.1 ≠ 0 then
      [⟨.allGather, (s.target, r * s.shares.1), (s.target, 0), s.shares.1⟩] else []) ++ rest r) m =
      lib.group s.ncclSize rest (s.gathered m) := by
  by_cases hzero : s.shares.1 = 0
  · have hsame : s.gathered m = m := by
      funext r b c
      exact if_neg fun hc => by simp [hzero] at hc
    simp only [hzero, ne_eq, not_true_eq_false, if_false, List.nil_append, hsame]
  · simp only [ne_eq, hzero, not_false_eq_true, if_true, List.singleton_append]
    exact hlib.allGather_parts s.size_pos s.target s.shares.1

variable (hsize : 1 < s.ncclSize)
include hsize

theorem nccl_reduce (hroot : ∀ r, s.root .reduce r = some (root r)) :
    s.nccl lib .reduce m = lib.group s.ncclSize (fun r => if s.shares.2 ≠ 0 then
      [⟨.reduce (root r), (.input, s.ncclSize * s.shares.1),
        (s.outputBuffer, s.ncclSize * s.shares.1), s.shares.2⟩] else []) (s.scattered m) := by
  have hcalls := fun r => (s.postNcclCalls_reduce r).trans (by rw [hroot r, map_some])
  rw [nccl, if_pos hsize, allRanks_some hcalls, bind_some, group_scatter hlib]

theorem nccl_broadcast (hroot : ∀ r, s.root .broadcast r = some (root r)) :
    s.nccl lib .broadcast m = lib.group s.ncclSize (fun r => if s.shares.2 ≠ 0 then
      [⟨.broadcast (root r), (s.target, s.ncclSize * s.shares.1),
        (s.target, s.ncclSize * s.shares.1), s.shares.2⟩] else []) (s.gathered m) := by
  have hcalls := fun r => (s.postNcclCalls_broadcast r).trans (by rw [hroot r, map_some])
  rw [nccl, if_pos hsize, allRanks_some hcalls, bind_some, group_gather hlib]

/-- What `REDUCE` does if the ranks name one root. -/
theorem nccl_reduce_of_agree (hroot : ∀ r, s.root .reduce r = some (root r))
    (hagree : s.Agree root) : s.nccl lib .reduce m = some (s.afterReduce (root 0) m) := by
  rw [nccl_reduce hlib hsize hroot]
  by_cases hzero : s.shares.2 = 0
  · have hsame : s.afterReduce (root 0) m = s.scattered m := by
      funext r b c
      exact if_neg (by omega)
    simp only [hzero, ne_eq, not_true_eq_false, if_false, hsame]
    exact hlib.done _ _
  · obtain ⟨hall, hrank⟩ := hagree hzero
    simp only [ne_eq, hzero, not_false_eq_true, if_true]
    exact (hlib.reduce_at hall hrank _ _ _ _).trans (hlib.done _ _)

/-- What `BROADCAST` does if the ranks name one root. -/
theorem nccl_broadcast_of_agree (hroot : ∀ r, s.root .broadcast r = some (root r))
    (hagree : s.Agree root) : s.nccl lib .broadcast m = some (s.afterBroadcast (root 0) m) := by
  rw [nccl_broadcast hlib hsize hroot]
  by_cases hzero : s.shares.2 = 0
  · have hsame : s.afterBroadcast (root 0) m = s.gathered m := by
      funext r b c
      exact if_neg (by omega)
    simp only [hzero, ne_eq, not_true_eq_false, if_false, hsame]
    exact hlib.done _ _
  · obtain ⟨hall, hrank⟩ := hagree hzero
    simp only [ne_eq, hzero, not_false_eq_true, if_true]
    exact (hlib.broadcast_at hall hrank _ _ _).trans (hlib.done _ _)

end Calls

/-- Ranks that wait for each other return from `REDUCE` only if they name one root. -/
theorem agree_of_nccl_reduce (hsize : 1 < s.ncclSize)
    (hroot : ∀ r, s.root .reduce r = some (root r))
    (h : s.nccl Nccl.waiting .reduce m = some m') : s.Agree root := by
  intro hleft
  rw [nccl_reduce Nccl.waiting_conforms hsize hroot] at h
  simp only [hleft, ne_eq, not_false_eq_true, if_true] at h
  obtain ⟨hissued, hvalid⟩ := Nccl.of_waiting_group_cons h
  exact ⟨fun r hr => Nccl.Op.reduce.inj (hissued r hr).1, hvalid⟩

theorem agree_of_nccl_broadcast (hsize : 1 < s.ncclSize)
    (hroot : ∀ r, s.root .broadcast r = some (root r))
    (h : s.nccl Nccl.waiting .broadcast m = some m') : s.Agree root := by
  intro hleft
  rw [nccl_broadcast Nccl.waiting_conforms hsize hroot] at h
  simp only [hleft, ne_eq, not_false_eq_true, if_true] at h
  obtain ⟨hissued, hvalid⟩ := Nccl.of_waiting_group_cons h
  exact ⟨fun r hr => Nccl.Op.broadcast.inj (hissued r hr).1, hvalid⟩

theorem afterReduce_of_owns {ρ : ℤ} (hr : r < s.ncclSize) (h : s.Owns ((r : ℤ) = ρ) r c) :
    s.afterReduce ρ m r s.outputBuffer c = ∑ k ∈ range s.ncclSize, m k .input c := by
  have hpart := s.part_le hr
  rcases h with hown | ⟨hρ, hrest⟩
  · rw [afterReduce, if_neg (by omega), scattered, if_pos ⟨rfl, hown⟩]
  · rw [afterReduce, if_pos ⟨hρ, rfl, hrest⟩]
    refine sum_congr rfl fun k hk => ?_
    have := s.part_le (mem_range.mp hk)
    exact if_neg (by omega)

section

omit [AddCommMonoid α]

theorem afterBroadcast_of_owns {r₀ σ : ℕ} (hr₀ : r₀ < s.ncclSize) (h : s.Owns (r₀ = σ) r₀ c)
    (r : ℕ) : s.afterBroadcast σ m r s.target c = m r₀ s.target c := by
  have hpart := s.part_le hr₀
  rcases h with hown | ⟨rfl, hrest⟩
  · have hdiv : c / s.shares.1 = r₀ := by
      refine Nat.div_eq_of_lt_le hown.1 ?_
      rw [Nat.add_one_mul]
      exact hown.2
    rw [afterBroadcast, if_neg (by omega), gathered, if_pos ⟨rfl, by omega⟩, hdiv]
  · rw [afterBroadcast, if_pos ⟨rfl, hrest⟩, gathered, if_neg (by omega), Int.toNat_natCast]

theorem copyHost2Device_eq_some (host : ℕ → α) (m : Memory α) {part : ℕ × ℕ}
    (hpart : s.copyPart .copyH2D r = some part) :
    ∃ m', s.copyHost2Device host r m = some m' ∧
      (∀ c, s.Copies .copyH2D r (c * s.unitLen) → m' s.target c = host c) ∧
      ∀ b c, b ≠ s.target ∨ ¬s.Copies .copyH2D r (c * s.unitLen) → m' b c = m b c := by
  have hmem : ∀ c, s.Copies .copyH2D r (c * s.unitLen) ↔
      s.cell part.1 ≤ c ∧ c < s.cell part.1 + s.cell part.2 := by
    intro c
    obtain ⟨hoff, hlen⟩ := unit_dvd_copyPart hpart
    have hbytes := s.mem_bytes_iff (s.cell part.1) (s.cell part.2) (c * s.unitLen)
    rw [cell, cell, Nat.div_mul_cancel hoff, Nat.div_mul_cancel hlen,
      Nat.mul_div_cancel _ s.unit_pos] at hbytes
    rw [Copies, hpart]
    simpa [cell] using hbytes
  refine ⟨_, by rw [copyHost2Device, hpart, copyTarget_eq]; rfl, fun c hc => ?_, fun b c hc => ?_⟩
  · rw [hmem] at hc
    rw [Nccl.fill_apply (g := host) (fun i _ => rfl), if_pos ⟨rfl, hc⟩]
  · rw [hmem] at hc
    rw [Nccl.fill_apply (g := host) (fun i _ => rfl), if_neg]
    rintro ⟨hb, hcopied⟩
    exact hc.elim (fun h => h hb) fun h => h hcopied

end

/-! ## Whether the stages fit together -/

theorem exists_root (h : s.reduceRoots ≠ some []) (stage : QueueType) :
    ∃ root : ℕ → ℤ, ∀ r, s.root stage r = some (root r) := by
  have hsome : ∀ r, ∃ root, s.root stage r = some root := by
    intro r
    unfold Switch.root
    cases hroots : s.reduceRoots with
    | none => exact ⟨_, rfl⟩
    | some roots =>
      have hpos : 0 < roots.length := by
        rw [List.length_pos_iff]
        rintro rfl
        exact h hroots
      exact ⟨_, List.getElem?_eq_getElem (Nat.mod_lt _ hpos)⟩
  choose root hroot using hsome
  exact ⟨root, hroot⟩

theorem copyPart_isSome_iff (stage : QueueType) (r : ℕ) :
    (s.copyPart stage r).isSome ↔ (s.root stage r).isSome := by
  unfold copyPart Switch.root
  cases s.reduceRoots with
  | none => exact Iff.rfl
  | some roots => rw [isSome_map]

theorem exists_copyPart (h : s.reduceRoots ≠ some []) (stage : QueueType) (r : ℕ) :
    ∃ part, s.copyPart stage r = some part := by
  obtain ⟨root, hroot⟩ := exists_root h stage
  rw [← isSome_iff_exists, copyPart_isSome_iff, hroot]
  rfl

omit [AddCommMonoid α] in
theorem exists_copied (h : s.reduceRoots ≠ some []) (host : ℕ → α) (m : ℕ → Memory α) :
    ∃ m₁, s.allRanks (fun r => s.copyHost2Device host r (m r)) m = some m₁ ∧
      (∀ r c, s.Copies .copyH2D r (c * s.unitLen) → m₁ r s.target c = host c) ∧
      ∀ r b c, b ≠ s.target ∨ ¬s.Copies .copyH2D r (c * s.unitLen) → m₁ r b c = m r b c := by
  have hrank : ∀ r, ∃ m', s.copyHost2Device host r (m r) = some m' ∧
      (∀ c, s.Copies .copyH2D r (c * s.unitLen) → m' s.target c = host c) ∧
      ∀ b c, b ≠ s.target ∨ ¬s.Copies .copyH2D r (c * s.unitLen) → m' b c = m r b c := by
    intro r
    obtain ⟨part, hpart⟩ := exists_copyPart h .copyH2D r
    exact copyHost2Device_eq_some host (m r) hpart
  choose m₁ hm₁ hcopied hkept using hrank
  exact ⟨m₁, allRanks_some hm₁ m, hcopied, hkept⟩

theorem fitTogether_of_len_eq_zero (hlen : s.len = 0) (h : s.reduceRoots ≠ some []) :
    s.FitTogether α := by
  have hn : s.len / s.unitLen = 0 := by rw [hlen, Nat.zero_div]
  have hleft : s.shares.2 = 0 := by
    have := s.shares_add
    omega
  have hnone : ∀ stage, ∀ r < s.ncclSize, ∀ byte, ¬s.Copies stage r byte := by
    intro stage r hr byte hcopies
    have hlt := ((copies_iff stage).mp hcopies).lt hr
    exact Nat.not_lt_zero _ (hn ▸ hlt)
  have hnccl : ∀ lib : Nccl.Library Buffer α, lib.Conforms → ∀ m : ℕ → Memory α,
      (∃ m', s.nccl lib .reduce m = some m') ∧ ∃ m', s.nccl lib .broadcast m = some m' := by
    intro lib hlib m
    by_cases hsize : 1 < s.ncclSize
    · obtain ⟨root, hroot⟩ := exists_root h .reduce
      obtain ⟨root', hroot'⟩ := exists_root h .broadcast
      exact ⟨⟨_, nccl_reduce_of_agree hlib hsize hroot fun hne => absurd hleft hne⟩,
        ⟨_, nccl_broadcast_of_agree hlib hsize hroot' fun hne => absurd hleft hne⟩⟩
    · exact ⟨⟨m, if_neg hsize⟩, ⟨m, if_neg hsize⟩⟩
  refine ⟨fun r hr r' _ byte hcopies => absurd hcopies (hnone _ r hr byte), fun byte => ?_,
    fun lib hlib m => ?_, fun _ r hr byte => ?_, fun lib hlib host m => ?_⟩
  · refine iff_of_false (by omega) ?_
    rintro ⟨r, hr, hcopies⟩
    exact hnone _ r hr byte hcopies
  · obtain ⟨m', hm'⟩ := (hnccl lib hlib m).1
    obtain ⟨src, hsrc⟩ : ∃ src, s.pointers.copySource s.ncclSize = some src := by
      unfold Pointers.copySource pointers
      cases s.device <;> exact ⟨_, rfl⟩
    exact ⟨m', src, hm', hsrc, fun r hr c hcopies => absurd hcopies (hnone _ r hr _)⟩
  · refine iff_of_false (hnone _ r hr byte) fun hsends => ?_
    have hlt := (sends_iff.mp hsends).lt hr
    exact Nat.not_lt_zero _ (hn ▸ hlt)
  · obtain ⟨m₁, hm₁, -⟩ := exists_copied h host m
    obtain ⟨m₂, hm₂⟩ := (hnccl lib hlib m₁).2
    exact ⟨m₁, m₂, hm₁, hm₂, fun r _ c hc => by omega⟩

theorem NamesOne.reduceRoots_ne (h : s.NamesOne) : s.reduceRoots ≠ some [] := by
  obtain ⟨ρ, hρ, σ, -, hd2h, -⟩ := h
  intro hnil
  have hroot := (hd2h ρ hρ).mpr rfl
  rw [Switch.root, hnil] at hroot
  cases hroot

theorem namesOne_of_scatter (h : s.reduceRoots = none) : s.NamesOne := by
  have hlast : s.ncclSize - 1 < s.ncclSize := Nat.sub_one_lt_of_lt s.size_pos
  have hroot : ∀ stage r, s.root stage r = some ((s.ncclSize - 1 : ℕ) : ℤ) := by
    intro stage r
    rw [root_of_scatter h, Nat.cast_sub s.size_pos, Nat.cast_one]
  exact ⟨_, hlast, _, hlast, fun r _ => named_iff_of_scatter h _ r,
    fun r _ => named_iff_of_scatter h _ r, fun _ r _ => ⟨hroot _ r, hroot _ r⟩⟩

theorem exists_agree (h : s.reduceRoots ≠ some []) {stage : QueueType} (hρ : ρ < s.ncclSize)
    (hroot : ∀ r < s.ncclSize, s.root stage r = some ↑ρ) :
    ∃ root : ℕ → ℤ, (∀ r, s.root stage r = some (root r)) ∧ root 0 = ρ ∧ s.Agree root := by
  obtain ⟨root, hsome⟩ := exists_root h stage
  have heq : ∀ r < s.ncclSize, root r = ρ := by
    intro r hr
    exact some.inj ((hsome r).symm.trans (hroot r hr))
  have hzero := heq 0 s.size_pos
  refine ⟨root, hsome, hzero, fun _ => ⟨fun r hr => (heq r hr).trans hzero.symm, ?_⟩⟩
  rw [hzero]
  exact ⟨Int.natCast_nonneg ρ, Int.ofNat_lt.mpr hρ⟩

section

variable (hdevice : s.device = .gpu ∨ s.inPlace = true)
include hdevice

theorem reduced_of_namesOne (hρ : ρ < s.ncclSize) (hroots : s.reduceRoots ≠ some [])
    (hd2h : ∀ r < s.ncclSize, s.root .copyD2H r = some ↑r ↔ r = ρ)
    (hreduce : 1 < s.ncclSize → ∀ r < s.ncclSize, s.root .reduce r = some ↑ρ)
    (lib : Nccl.Library Buffer α) (hlib : lib.Conforms) (m : ℕ → Memory α) :
    ∃ m' src, s.nccl lib .reduce m = some m' ∧ s.pointers.copySource s.ncclSize = some src ∧
      ∀ r < s.ncclSize, ∀ c, s.Copies .copyD2H r (c * s.unitLen) →
        m' r src c = ∑ k ∈ range s.ncclSize, m k .input c := by
  by_cases hsize : 1 < s.ncclSize
  · obtain ⟨root, hroot, hzero, hagree⟩ := exists_agree hroots hρ (hreduce hsize)
    refine ⟨_, _, nccl_reduce_of_agree hlib hsize hroot hagree,
      (copySource_eq hdevice).trans (by rw [if_pos hsize]), fun r hr c hcopies => ?_⟩
    refine afterReduce_of_owns hr (((copies_cell_iff _).mp hcopies).imp fun hnamed => ?_)
    rw [hzero, (hd2h r hr).mp hnamed]
  · -- one rank has nothing to reduce
    have hone : s.ncclSize = 1 := by
      have := s.size_pos
      omega
    refine ⟨m, .input, if_neg hsize, (copySource_eq hdevice).trans (by rw [if_neg hsize]),
      fun r hr c _ => ?_⟩
    rw [hone, sum_range_one]
    congr
    omega

theorem complete_of_namesOne {σ : ℕ} (hσ : σ < s.ncclSize) (hroots : s.reduceRoots ≠ some [])
    (hh2d : ∀ r < s.ncclSize, s.root .copyH2D r = some ↑r ↔ r = σ)
    (hbroadcast : 1 < s.ncclSize → ∀ r < s.ncclSize, s.root .broadcast r = some ↑σ)
    (lib : Nccl.Library Buffer α) (hlib : lib.Conforms) (host : ℕ → α) (m : ℕ → Memory α) :
    ∃ m₁ m₂, s.allRanks (fun r => s.copyHost2Device host r (m r)) m = some m₁ ∧
      s.nccl lib .broadcast m₁ = some m₂ ∧
      ∀ r < s.ncclSize, ∀ c < s.len / s.unitLen, m₂ r s.outputBuffer c = host c := by
  obtain ⟨m₁, hm₁, hcopied, -⟩ := exists_copied hroots host m
  -- the owner of an element has it from the host
  have howner : ∀ c < s.len / s.unitLen, ∃ r₀ < s.ncclSize, s.Owns (r₀ = σ) r₀ c ∧
      m₁ r₀ s.target c = host c := by
    intro c hc
    obtain ⟨r₀, hr₀, howns⟩ := exists_owns hσ hc
    refine ⟨r₀, hr₀, howns, hcopied r₀ c ((copies_cell_iff _).mpr ?_)⟩
    exact howns.imp (hh2d r₀ hr₀).mpr
  rw [← target_eq hdevice]
  by_cases hsize : 1 < s.ncclSize
  · obtain ⟨root, hroot, hzero, hagree⟩ := exists_agree hroots hσ (hbroadcast hsize)
    refine ⟨m₁, _, hm₁, nccl_broadcast_of_agree hlib hsize hroot hagree, fun r _ c hc => ?_⟩
    obtain ⟨r₀, hr₀, howns, hhost⟩ := howner c hc
    rw [hzero, afterBroadcast_of_owns hr₀ howns r, hhost]
  · refine ⟨m₁, m₁, hm₁, if_neg hsize, fun r hr c hc => ?_⟩
    obtain ⟨r₀, hr₀, -, hhost⟩ := howner c hc
    rwa [show r = r₀ by omega]

theorem fitTogether_of_namesOne (h : s.NamesOne) : s.FitTogether α := by
  have hroots := h.reduceRoots_ne
  obtain ⟨ρ, hρ, σ, hσ, hd2h, hh2d, hnccl⟩ := h
  refine ⟨fun r hr r' hr' byte hcopies hcopies' => ?_, fun byte => ⟨fun hlt => ?_, ?_⟩,
    reduced_of_namesOne hdevice hρ hroots hd2h fun hsize r hr => (hnccl hsize r hr).1,
    fun hsize r hr byte => ?_,
    complete_of_namesOne hdevice hσ hroots hh2d fun hsize r hr => (hnccl hsize r hr).2⟩
  · refine ((copies_iff _).mp hcopies).unique hr hr' ((copies_iff _).mp hcopies') fun hn hn' => ?_
    rw [(hd2h r hr).mp hn, (hd2h r' hr').mp hn']
  · obtain ⟨r, hr, howns⟩ := exists_owns hρ (lt_len_iff.mp hlt)
    exact ⟨r, hr, (copies_iff _).mpr (howns.imp (hd2h r hr).mpr)⟩
  · rintro ⟨r, hr, hcopies⟩
    exact lt_len_iff.mpr (((copies_iff _).mp hcopies).lt hr)
  · have hnamed : s.root .copyH2D r = some ↑r ↔ s.root .broadcast r = some ↑r := by
      rw [hh2d r hr, (hnccl hsize r hr).2, Option.some.injEq, Nat.cast_inj, eq_comm]
    rw [copies_iff, sends_iff, hnamed]

end

/-! ## When they do not -/

theorem cells_pos (hlen : s.len ≠ 0) : 0 < s.len / s.unitLen :=
  Nat.div_pos (Nat.le_of_dvd (pos_of_ne_zero hlen) s.unit_dvd) s.unit_pos

theorem FitTogether.reduceRoots_ne (h : s.FitTogether α) : s.reduceRoots ≠ some [] := by
  intro hnil
  obtain ⟨m₁, -, hcopied, -⟩ :=
    h.complete Nccl.waiting Nccl.waiting_conforms (fun _ => 0) fun _ _ _ => 0
  unfold allRanks at hcopied
  split_ifs at hcopied with hall
  have hzero := hall 0 s.size_pos
  have hpart : s.copyPart .copyH2D 0 = none := by
    rw [copyPart, hnil]
    rfl
  simp [copyHost2Device, hpart] at hzero

omit [AddCommMonoid α] in
theorem afterBroadcast_of_ne {b : Buffer} (hb : b ≠ s.target) (root : ℤ) (r c : ℕ) :
    s.afterBroadcast root m r b c = m r b c := by
  rw [afterBroadcast, if_neg fun h => hb h.1, gathered, if_neg fun h => hb h.1]

variable [Nontrivial α]

omit [Nontrivial α] in
theorem FitTogether.exists_run (h : s.FitTogether α) (host : ℕ → α) (m : ℕ → Memory α) :
    ∃ m₁ m₂, s.nccl Nccl.waiting .broadcast m₁ = some m₂ ∧
      (∀ r < s.ncclSize, ∀ c < s.len / s.unitLen, m₂ r s.outputBuffer c = host c) ∧
      ∀ r b c, b ≠ s.target ∨ ¬s.Copies .copyH2D r (c * s.unitLen) → m₁ r b c = m r b c := by
  obtain ⟨m₁, hm₁, -, hkept⟩ := exists_copied h.reduceRoots_ne host m
  obtain ⟨m₁', m₂, hm₁', hm₂, hall⟩ :=
    h.complete Nccl.waiting Nccl.waiting_conforms host m
  obtain rfl : m₁ = m₁' := some.inj (hm₁.symm.trans hm₁')
  exact ⟨m₁, m₂, hm₂, hall, hkept⟩

theorem FitTogether.device (h : s.FitTogether α) (hlen : s.len ≠ 0) :
    s.device = .gpu ∨ s.inPlace = true := by
  by_contra hnot
  rw [not_or, Bool.not_eq_true] at hnot
  have hbuffer : s.outputBuffer = .output := by
    rw [outputBuffer, hnot.2]
    rfl
  have htarget : s.target = .input := by
    rw [target, if_pos]
    cases hd : s.device with
    | cpu => rfl
    | gpu => exact absurd hd hnot.1
  have hne : s.outputBuffer ≠ s.target := by
    rw [hbuffer, htarget]
    decide
  obtain ⟨x, hx⟩ := exists_ne (0 : α)
  -- the host has `x`, and the outputs have `0`
  obtain ⟨m₁, m₂, hm₂, hall, hkept⟩ := h.exists_run (fun _ => x) fun _ _ _ => 0
  have hx' := hall 0 s.size_pos 0 (cells_pos hlen)
  have hkeep := hkept 0 s.outputBuffer 0 (.inl hne)
  have hsame : m₂ 0 s.outputBuffer 0 = m₁ 0 s.outputBuffer 0 := by
    by_cases hsize : 1 < s.ncclSize
    · obtain ⟨root, hroot⟩ := exists_root h.reduceRoots_ne .broadcast
      have hagree := agree_of_nccl_broadcast hsize hroot hm₂
      rw [nccl_broadcast_of_agree Nccl.waiting_conforms hsize hroot hagree] at hm₂
      rw [← some.inj hm₂, afterBroadcast_of_ne hne]
    · rw [nccl, if_neg hsize] at hm₂
      rw [some.inj hm₂]
  exact hx (hx'.symm.trans (hsame.trans hkeep))

theorem left_ne_zero (hroots : s.reduceRoots = some roots) (hlen : s.len ≠ 0) : s.shares.2 ≠ 0 := by
  rw [shares_of_roots hroots]
  exact (cells_pos hlen).ne'

theorem copies_zero_iff (hroots : s.reduceRoots = some roots) (hlen : s.len ≠ 0)
    (stage : QueueType) (r : ℕ) : s.Copies stage r 0 ↔ s.root stage r = some ↑r := by
  have hcell := cells_pos hlen
  rw [copies_iff, Owns, shares_of_roots hroots]
  simp [hcell]

section

variable (h : s.FitTogether α) (hlen : s.len ≠ 0) (hroots : s.reduceRoots = some roots)
include h hlen hroots

theorem FitTogether.root_reduce (hsize : 1 < s.ncclSize) (hρ : ρ < s.ncclSize)
    (hnamed : s.root .copyD2H ρ = some ↑ρ) : ∀ r < s.ncclSize, s.root .reduce r = some ↑ρ := by
  obtain ⟨root, hroot⟩ := exists_root h.reduceRoots_ne .reduce
  obtain ⟨x, hx⟩ := exists_ne (0 : α)
  -- the root has `x`, the others `0`
  obtain ⟨m', src, hm', hsrc, hsum⟩ := h.reduced Nccl.waiting Nccl.waiting_conforms
    fun k _ _ => if (k : ℤ) = root 0 then x else 0
  rw [copySource_eq (h.device hlen), if_pos hsize] at hsrc
  obtain rfl := some.inj hsrc
  have hagree := agree_of_nccl_reduce hsize hroot hm'
  rw [nccl_reduce_of_agree Nccl.waiting_conforms hsize hroot hagree] at hm'
  obtain rfl := some.inj hm'
  obtain ⟨hall, hrank⟩ := hagree (left_ne_zero hroots hlen)
  have hzero : root 0 = ρ := by
    by_contra hne
    have hcopies : s.Copies .copyD2H ρ (0 * s.unitLen) := by
      rw [zero_mul]
      exact (copies_zero_iff hroots hlen _ ρ).mpr hnamed
    have heq := hsum ρ hρ 0 hcopies
    obtain ⟨τ, hτ⟩ := Int.eq_ofNat_of_zero_le hrank.1
    have hτlt : τ < s.ncclSize := by
      have := hrank.2
      omega
    rw [afterReduce, if_neg fun hc => hne hc.1.symm, scattered, shares_of_roots hroots,
      if_neg (by simp), if_neg (Ne.symm hne), hτ] at heq
    simp only [Nat.cast_inj, Finset.sum_ite_eq', Finset.mem_range, hτlt, if_true] at heq
    exact hx heq.symm
  intro r hr
  rw [hroot, hall r hr, hzero]

theorem FitTogether.root_broadcast :
    ∃ σ < s.ncclSize, (∀ r < s.ncclSize, s.root .copyH2D r = some ↑r ↔ r = σ) ∧
      (1 < s.ncclSize → ∀ r < s.ncclSize, s.root .broadcast r = some ↑σ) := by
  obtain ⟨x, hx⟩ := exists_ne (0 : α)
  obtain ⟨m₁, m₂, hm₂, hall, hkept⟩ := h.exists_run (fun _ => x) fun _ _ _ => 0
  by_cases hsize : 1 < s.ncclSize
  · obtain ⟨root, hroot⟩ := exists_root h.reduceRoots_ne .broadcast
    obtain ⟨hsame, hrank⟩ :=
      agree_of_nccl_broadcast hsize hroot hm₂ (left_ne_zero hroots hlen)
    obtain ⟨σ, hσ⟩ := Int.eq_ofNat_of_zero_le hrank.1
    have hbroadcast : ∀ r < s.ncclSize, s.root .broadcast r = some ↑σ := by
      intro r hr
      rw [hroot, hsame r hr, hσ]
    refine ⟨σ, by have := hrank.2; omega, fun r hr => ?_, fun _ => hbroadcast⟩
    have hsends : s.Sends r 0 ↔ s.root .broadcast r = some ↑r := by
      have hcell := cells_pos hlen
      rw [sends_iff, Owns, shares_of_roots hroots]
      simp [hcell]
    rw [← copies_zero_iff hroots hlen, h.sources hsize r hr 0, hsends, hbroadcast r hr,
      Option.some.injEq, Nat.cast_inj, eq_comm]
  · -- one rank, which would keep its `0`
    rw [nccl, if_neg hsize] at hm₂
    obtain rfl := some.inj hm₂
    have hnamed : s.root .copyH2D 0 = some ↑(0 : ℕ) := by
      by_contra hnot
      have hkeep := hkept 0 s.outputBuffer 0 (.inr ?_)
      · exact hx ((hall 0 s.size_pos 0 (cells_pos hlen)).symm.trans hkeep)
      · rw [zero_mul]
        exact mt (copies_zero_iff hroots hlen _ 0).mp hnot
    refine ⟨0, s.size_pos, fun r hr => ?_, fun h => absurd h hsize⟩
    obtain rfl : r = 0 := by omega
    exact iff_of_true hnamed rfl

theorem FitTogether.namesOne : s.NamesOne := by
  obtain ⟨ρ, hρ, hcopies⟩ := (h.cover 0).mp (pos_of_ne_zero hlen)
  have hnamed := (copies_zero_iff hroots hlen _ ρ).mp hcopies
  obtain ⟨σ, hσ, hh2d, hbroadcast⟩ := h.root_broadcast hlen hroots
  refine ⟨ρ, hρ, σ, hσ, fun r hr => ⟨fun hr' => ?_, fun heq => heq ▸ hnamed⟩, hh2d,
    fun hsize r hr => ⟨h.root_reduce hlen hroots hsize hρ hnamed r hr, hbroadcast hsize r hr⟩⟩
  exact h.disjoint r hr ρ hρ 0 ((copies_zero_iff hroots hlen _ r).mpr hr') hcopies

end

end Stages

/-- The stages fit together for tensors on a GPU and for those whose output is the input, and with
roots if the ranks agree on one of them. -/
theorem stages_fit_iff {α : Type} [AddCommMonoid α] [Nontrivial α] (s : Switch) :
    s.FitTogether α ↔ (s.len = 0 ∧ s.reduceRoots ≠ some []) ∨
      ((s.device = .gpu ∨ s.inPlace = true) ∧ (s.reduceRoots = none ∨ s.NamesOne)) := by
  constructor
  · intro h
    by_cases hlen : s.len = 0
    · exact .inl ⟨hlen, h.reduceRoots_ne⟩
    · refine .inr ⟨h.device hlen, ?_⟩
      cases hroots : s.reduceRoots with
      | none => exact .inl rfl
      | some roots => exact .inr (h.namesOne hlen hroots)
  · rintro (⟨hlen, hroots⟩ | ⟨hdevice, hroots⟩)
    · exact fitTogether_of_len_eq_zero hlen hroots
    · exact fitTogether_of_namesOne hdevice (hroots.elim namesOne_of_scatter id)

def threeRanks : Switch where
  ncclSize := 3
  size_pos := Nat.succ_pos 2
  unitLen := 4
  unit_pos := by decide
  len := 28
  unit_dvd := by decide
  key := 0
  device := .gpu
  inPlace := false
  sameTensor := false
  inPlace_of_same := nofun
  reduceRoots := none
  text _ _ _ := []

theorem stages_fit_threeRanks :
    (Nccl.waiting : Nccl.Library Buffer ℤ).Conforms ∧ threeRanks.FitTogether ℤ :=
  ⟨Nccl.waiting_conforms, (stages_fit_iff threeRanks).mpr (.inr ⟨.inl rfl, .inl rfl⟩)⟩

def twoRanksCpu : Switch where
  ncclSize := 2
  size_pos := Nat.two_pos
  unitLen := 4
  unit_pos := by decide
  len := 8
  unit_dvd := by decide
  key := 0
  device := .cpu
  inPlace := false
  sameTensor := false
  inPlace_of_same := nofun
  reduceRoots := none
  text _ _ _ := []

/-- Rank 0 copies the first element of its own input to the host, and not the sum. -/
theorem cpu_ranks_copy_unreduced : twoRanksCpu.copyPart .copyD2H 0 = some (0, 4) ∧
      twoRanksCpu.pointers.copySource 2 = some .input ∧
      (∀ lib : Nccl.Library Buffer ℤ, lib.Conforms →
        ∃ m, twoRanksCpu.nccl lib .reduce (fun _ _ _ => 1) = some m ∧
          m 0 .input 0 = 1 ∧ m 0 .output 0 = 2) ∧
      ¬twoRanksCpu.FitTogether ℤ := by
  refine ⟨rfl, rfl, fun lib hlib => ?_, fun h => ?_⟩
  · -- both elements are scattered, and nothing is left for a root
    have hroot : ∀ r, twoRanksCpu.root .reduce r = some ((fun _ => 1 : ℕ → ℤ) r) := fun r => rfl
    have hagree : twoRanksCpu.Agree fun _ => 1 := fun hleft => absurd rfl hleft
    exact ⟨_, nccl_reduce_of_agree hlib (by decide) hroot hagree, by decide, by decide⟩
  · rcases h.device (by decide) with h | h <;> cases h

end Switch

end MegatronDPU.Worker
