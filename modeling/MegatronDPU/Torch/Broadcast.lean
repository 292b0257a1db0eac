import MegatronDPU.Server.Progress
import MegatronDPU.Worker.PushPull

/-!
# `broadcast_object`

A rank broadcasts an object in two steps: the size of the pickled object, then its bytes. A
broadcast is a `push_pull` in which the tensors of all ranks but the root are zero. The first
`push_pull` of a name fixes the lengths of its stores on the server, so the next object of the same
name must have as many bytes (`longer_object_truncated`).

The machines talk to the server of `Server.jobs`. A machine pushes the sum of the tensors of its
processes, once all of them are in the same `push_pull`. A cell of a tensor is a byte.
-/

namespace MegatronDPU.Torch

open Lts Chunks
open Server (Key KeyGroup CompressorClass Stage Event bytepsInt32)
open Worker (BPSContext Global Task slice declaredKeyOf isTensorDeclared startTask tensorKeys)

/-! ## Calls -/

/-- A call of `broadcast_object`, which every rank makes. -/
structure BroadcastObject where
  rootRank : ℕ
  /-- The argument `name`. -/
  name : Option String
  /-- `type(obj).__name__` of what a rank passes. -/
  typeName : ℕ → String
  /-- The pickled object of the root. -/
  bytes : List ℕ
  bytes_ne_nil : bytes ≠ []

def BroadcastObject.nameAt (c : BroadcastObject) (rank : ℕ) : String :=
  c.name.getD (c.typeName rank)

/-- A job that broadcasts objects: `numWorker` machines with `localSize` processes each. -/
structure Broadcasts where
  numWorker : ℕ
  numWorker_pos : 0 < numWorker
  localSize : ℕ
  localSize_pos : 0 < localSize
  /-- `_partition_bytes`, a `uint32_t`. -/
  partitionBound : ℕ
  partitionBound_pos : 0 < partitionBound
  partitionBound_lt : partitionBound < 2 ^ 32
  server : Server.Config
  engineThreadNum_pos : 0 < server.engineThreadNum
  hash : String → UInt64
  calls : List BroadcastObject
  rootRank_lt : ∀ c ∈ calls, c.rootRank < numWorker * localSize
  /-- What the buffer that the processes of a machine share for a name holds at first. -/
  shared : ℕ → String → List ℕ := fun _ _ => []

/-- `BYTEPS_UINT8`. -/
def bytepsUint8 : ℕ := 3

def intBytes (n : ℕ) : List ℕ := [n % 256, n / 256 % 256, n / 65536 % 256, n / 16777216 % 256]

/-- `torch.IntTensor([n])`; a number that does not fit is refused. -/
def intTensor (n : ℕ) : Option (List ℕ) := if n < 2 ^ 31 then some (intBytes n) else none

/-- `sz.tolist()[0]`; a negative number is no size. -/
def tensorInt (bytes : List ℕ) : Option ℕ :=
  if Nat.ofDigits 256 bytes < 2 ^ 31 then some (Nat.ofDigits 256 bytes) else none

/-- `GetOpName`. -/
def opName (name : String) : String := "byteps." ++ name

namespace Broadcasts

/-! ## Processes -/

/-- A `push_pull` that a process waits for. -/
structure Transfer where
  dtype : ℕ
  tensor : List ℕ
  tasks : List Task
  /-- The earlier `push_pull`s of the same name. -/
  round : ℕ
  deriving DecidableEq

/-- Where a process stands in `broadcast_object`. -/
inductive Phase
  | idle
  | size (t : Transfer)
  | data (t : Transfer)
  deriving DecidableEq

def Phase.transfer : Phase → Option Transfer
  | idle => none
  | size t => some t
  | data t => some t

structure Process where
  global : Global := {}
  /-- The `push_pull`s made under a name. -/
  rounds : String → ℕ := fun _ => 0
  /-- The objects that `broadcast_object` has returned, pickled. -/
  returned : List (List ℕ) := []
  phase : Phase := .idle

variable (b : Broadcasts)

/-- `byteps_size()`. -/
def size : ℕ := b.numWorker * b.localSize

def node (rank : ℕ) : ℕ := rank / b.localSize

def ranksOf (node : ℕ) : List ℕ := (List.range b.localSize).map fun i => node * b.localSize + i

def worker : Worker.Config where
  partitionBound := b.partitionBound
  numWorker := b.numWorker

/-- `broadcast_parameters` with one named tensor, up to the wait for its `push_pull`. -/
def broadcastParameters (p : Process) (rank rootRank : ℕ) (name : String) (dtype : ℕ)
    (tensor : List ℕ) : Option (Process × Transfer) := do
  let tensor := if rank ≠ rootRank then tensor.map fun _ => 0 else tensor
  let name := opName name
  let global := (isTensorDeclared b.hash p.global name).2
  let context ← global.nameToCxt name
  let (context, _, tasks) ← startTask b.worker context dtype (b.shared (b.node rank) name)
    tensor.length tensor.length
  some
    ({ p with
        global := global.setContext name context
        rounds := Function.update p.rounds name (p.rounds name + 1) },
      ⟨dtype, tensor, tasks, p.rounds name⟩)

/-- `broadcast_object` from one wait to the next; `output` is what the wait has returned. -/
def Process.proceed (p : Process) (rank : ℕ) (output : Option (List ℕ)) : Option Process := do
  let c ← b.calls[p.returned.length]?
  let name := c.nameAt rank
  match p.phase with
  | .idle =>
    let sz ← intTensor (if rank = c.rootRank then c.bytes.length else 0)
    let (p, t) ← b.broadcastParameters p rank c.rootRank ("Size." ++ name ++ ".sz") bytepsInt32 sz
    some { p with phase := .size t }
  | .size _ =>
    let sz ← output
    -- `torch.ByteTensor(n)` has `n` arbitrary bytes
    let t ← if rank = c.rootRank then some c.bytes else
      (tensorInt sz).map fun n => List.replicate n 0
    let (p, t) ← b.broadcastParameters p rank c.rootRank ("Parameter." ++ name ++ ".t")
      bytepsUint8 t
    some { p with phase := .data t }
  | .data _ =>
    let t ← output
    some { p with
      returned := p.returned ++ [if rank = c.rootRank then c.bytes else t]
      phase := .idle }

/-- The task of a key in the `push_pull` that a process waits for. -/
def Process.part (p : Process) (key : Key) : Option (Transfer × Task) :=
  p.phase.transfer.bind fun t => (t.tasks.find? (·.key = key)).map fun task => (t, task)

def localSum (parts : List (Transfer × Task)) : List ℕ :=
  List.ofFn fun i : Fin ((parts.head?.map (·.2.len)).getD 0) =>
    (parts.map fun p => (slice p.1.tensor p.2.offset p.2.len).getD i 0).sum

/-! ## The job -/

structure State (C : CompressorClass ℕ) where
  job : Server.Job ℕ C
  processes : ℕ → Process := fun _ => {}
  /-- What a machine has last pushed of a partition, in the buffer that its processes share. -/
  shared : ℕ → Key → List ℕ := fun _ _ => []

inductive Action
  | proceed (rank : ℕ)
  | request (key : Key) (node : ℕ)
  | engine (thread : ℕ)

theorem workers_nonempty : (Finset.range b.numWorker).Nonempty :=
  Finset.nonempty_range_iff.mpr b.numWorker_pos.ne'

def group (dtype : ℕ) (payload : List ℕ) : KeyGroup ℕ where
  workers := Finset.range b.numWorker
  workers_nonempty := b.workers_nonempty
  dtype := dtype
  kwargs := none
  initPayload _ := payload
  payload _ _ := payload

section Run

variable {C : CompressorClass ℕ}

def answerTo (node round : ℕ) : Event ℕ → Option (List ℕ)
  | .response x =>
    match (Event.response x).isAnswer node round, x.kvs.vals with
    | true, .cells data => some data
    | _, _ => none
  | .allRecv => none

/-- A partition after its pull: a short answer leaves the rest of the shared buffer, and one that
is longer than the partition is refused. -/
def State.pulled (s : State C) (node round : ℕ) (task : Task) : Option (List ℕ) := do
  let data ← (Server.ofKey s.job.trace task.key).findSome? (answerTo node round)
  if data.length ≤ task.len then
    some (data ++ ((s.shared node task.key).take task.len).drop data.length)
  else none

/-- The tensor that a process waits for, once all pulls are answered. -/
def State.output (s : State C) (rank : ℕ) : Option (List ℕ) := do
  let t ← (s.processes rank).phase.transfer
  let parts ← t.tasks.mapM (s.pulled (b.node rank) t.round)
  some parts.flatten

def State.keep (s : State C) (key : Key) (node : ℕ) (payload : List ℕ) : ℕ → Key → List ℕ :=
  match (s.job.clients key node).stage with
  | .push _ => Function.update s.shared node (Function.update (s.shared node) key payload)
  | _ => s.shared

def State.step (s : State C) : Action → Option (State C)
  | .proceed rank =>
    if rank < b.size then do
      let p ← (s.processes rank).proceed b rank (s.output b rank)
      some { s with processes := Function.update s.processes rank p }
    else none
  | .request key node => do
    let parts ← (b.ranksOf node).mapM fun rank => (s.processes rank).part key
    -- the machine is not done with the key in this `push_pull`
    if ∀ p ∈ parts, p.1.round = (s.job.clients key node).stage.round then do
      let payload := localSum parts
      let dtype := (parts.head?.map (·.1.dtype)).getD 0
      let job ← s.job.step b.server (fun _ => b.group dtype payload) (.request key node)
      some { s with job := job, shared := s.keep key node payload }
    else none
  | .engine i => do
    let job ← s.job.step b.server (fun _ => b.group 0 []) (.engine i)
    some { s with job := job }

def system (C : CompressorClass ℕ) : System (State C) Action where
  init s := s = { job := { server := .start b.server } }
  step := State.step b

end Run

/-! ## What should happen -/

structure Op where
  name : String
  dtype : ℕ
  rootRank : ℕ
  /-- The tensor of the root. -/
  data : List ℕ
  deriving DecidableEq

end Broadcasts

def BroadcastObject.sizeOp (c : BroadcastObject) : Broadcasts.Op :=
  ⟨opName ("Size." ++ c.nameAt 0 ++ ".sz"), bytepsInt32, c.rootRank, intBytes c.bytes.length⟩

def BroadcastObject.dataOp (c : BroadcastObject) : Broadcasts.Op :=
  ⟨opName ("Parameter." ++ c.nameAt 0 ++ ".t"), bytepsUint8, c.rootRank, c.bytes⟩

namespace Broadcasts

variable (b : Broadcasts)

/-- The broadcasts of the job in their order, under the names of rank `0`. -/
def ops : List Op := b.calls.flatMap fun c => [c.sizeOp, c.dataOp]

def keys (o : Op) : List Key :=
  Worker.keysFrom (declaredKeyOf b.hash o.name <<< 16) (count b.partitionBound o.data.length)

def stored (name : String) : ℕ := ((b.ops.find? (·.name = name)).map (·.data.length)).getD 0

/-- All ranks use the same name in a call, objects of the same name have as many bytes, a size fits
an `int`, tensors of different names have different keys, and the server can hold all of them. -/
structure Uniform : Prop where
  names : ∀ c ∈ b.calls, ∀ rank < b.size, c.nameAt rank = c.nameAt 0
  sizes : ∀ c ∈ b.calls, ∀ c' ∈ b.calls, c.nameAt 0 = c'.nameAt 0 →
    c.bytes.length = c'.bytes.length
  small : ∀ c ∈ b.calls, c.bytes.length < 2 ^ 31
  apart : ∀ o ∈ b.ops, ∀ o' ∈ b.ops, ∀ key ∈ b.keys o, key ∈ b.keys o' → o.name = o'.name
  room : ∑ name ∈ (b.ops.map (·.name)).toFinset, b.stored name < 2 ^ 64 - 1

/-- In every run every rank returns from each call with the bytes of the root: what is returned so
far is right, a run that cannot go on has returned from all calls, and every run ends. -/
structure Returns (C : CompressorClass ℕ) : Prop where
  right : ∀ s, Reach (b.system C) Free s → ∀ rank < b.size,
    (s.processes rank).returned.IsPrefix (b.calls.map (·.bytes))
  all : ∀ s, Reach (b.system C) Free s → (∀ a, (b.system C).step s a = none) →
    ∀ rank < b.size, (s.processes rank).returned = b.calls.map (·.bytes)
  ends : ∃ bound, ∀ s t as, (b.system C).init s →
    (b.system C).guardedRun Free s as = some t → as.length ≤ bound

end Broadcasts

def noByteCompressor : CompressorClass ℕ where
  State := Unit
  create _ _ _ := none
  compress c data _ := (data, c)
  decompress c data _ := (data, c)

/-- Two machines broadcast an object of one byte and then, under the same default name, one of two
bytes. -/
def growingObject : Broadcasts where
  numWorker := 2
  numWorker_pos := Nat.two_pos
  localSize := 1
  localSize_pos := Nat.one_pos
  partitionBound := 4096000
  partitionBound_pos := by decide
  partitionBound_lt := by decide
  server := {}
  engineThreadNum_pos := by decide
  hash name := UInt64.ofNat name.length
  calls := [⟨0, none, fun _ => "dict", [7], by decide⟩,
    ⟨0, none, fun _ => "dict", [7, 9], by decide⟩]
  rootRank_lt := by decide

section Growing

open Broadcasts (Action)

def keySetup (key : Key) : List Action :=
  [.request key 0, .request key 0, .request key 1, .request key 1]

def keyRound (key : Key) (thread : ℕ) : List Action :=
  [.request key 0, .request key 1] ++ List.replicate 9 (.engine thread) ++
    [.request key 0, .request key 1]

def bothProceed : List Action := [.proceed 0, .proceed 1]

def growingRun : List Action :=
  bothProceed ++ keySetup 1245184 ++ keyRound 1245184 0 ++
    bothProceed ++ keySetup 1507328 ++ keyRound 1507328 1 ++ bothProceed ++
    bothProceed ++ keyRound 1245184 0 ++ bothProceed ++ keyRound 1507328 1 ++ bothProceed

/-- The store of the name has one byte. The second byte of the second object is not summed, and the
rank that is not the root returns with its own zero in its place. -/
theorem longer_object_truncated : ∃ s, Reach (growingObject.system noByteCompressor) Free s ∧
      (s.processes 0).returned = [[7], [7, 9]] ∧ (s.processes 1).returned = [[7], [7, 0]] :=
  exists_reach (.init rfl) growingRun (by decide +kernel)

end Growing

end MegatronDPU.Torch
