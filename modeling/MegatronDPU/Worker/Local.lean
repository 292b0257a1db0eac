import MegatronDPU.Lib.Gate
import MegatronDPU.Lib.Transition
import MegatronDPU.Worker.Comm
import MegatronDPU.Worker.ScheduledQueue

/-!
# The loops of a machine

The processes of a machine (its ranks) pass tasks from queue to queue. Every queue has a loop; all
loops interleave, and ranks only meet through signals.

A step of a `LocalWorld` is what a thread does under one lock, or one send or receive. Channels are
kept for each pair of ranks, in order and without loss. Where a `BPS_CHECK` fails the machine stops
with a fault. Tracing and sampling are left out, and so are the compressor loops, whose queues are
always empty.
-/

namespace MegatronDPU.Worker

open Lts
open Server (Key)
open Function (update)

structure LocalConfig extends Machine where
  /-- `BYTEPS_NCCL_GROUP_SIZE`. -/
  ncclGroupSize : ℕ := 4
  /-- `BYTEPS_SCHEDULING_CREDIT`. -/
  schedulingCredit : ℕ := 0
  partitionBound : ℕ := 4096000

/-- `_is_scheduled`. -/
def LocalConfig.isScheduled (m : LocalConfig) (r : ℕ) (q : QueueType) : Bool :=
  q == .reduce && m.isSignalRoot r && m.schedulingCredit != 0

/-! ## Signals of the loops -/

def BytePSCommSignal.comm : BytePSCommSignal → Comm
  | .reduceReady | .bcastReady | .doReduce | .doBroadcast | .doGroup => .nccl
  | .pcieReduceReady => .cpu
  | .pushReady | .doCopyH2D => .basic

inductive Coordinate
  | reduce
  | broadcast
  | push
  deriving DecidableEq

namespace Coordinate

instance : Fintype Coordinate := ⟨{.reduce, .broadcast, .push}, fun op => by cases op <;> decide⟩

def queue : Coordinate → QueueType
  | .reduce => .coordinateReduce
  | .broadcast => .coordinateBroadcast
  | .push => .coordinatePush

def signal : Coordinate → BytePSCommSignal
  | .reduce => .reduceReady
  | .broadcast => .bcastReady
  | .push => .pushReady

end Coordinate

/-- `nccl_ops`. -/
inductive NcclOp
  | reduce
  | broadcast
  deriving DecidableEq

namespace NcclOp

instance : Fintype NcclOp := ⟨{.reduce, .broadcast}, fun op => by cases op <;> decide⟩

def queue : NcclOp → QueueType
  | .reduce => .reduce
  | .broadcast => .broadcast

def signal : NcclOp → BytePSCommSignal
  | .reduce => .doReduce
  | .broadcast => .doBroadcast

end NcclOp

def BytePSCommSignal.ncclOp : BytePSCommSignal → Option NcclOp
  | .doReduce => some .reduce
  | .doBroadcast => some .broadcast
  | _ => none

def BytePSCommSignal.table : BytePSCommSignal → Option Table
  | .reduceReady => some .reduce
  | .pcieReduceReady => some .pcieReduce
  | .bcastReady => some .broadcast
  | .pushReady => some .push
  | _ => none

abbrev Sends := Comm → ℕ → List BytePSCommMsg

def noSends : Sends := fun _ _ => []

def sendSignal (c : Comm) (dsts : List ℕ) (msg : BytePSCommMsg) : Sends :=
  fun c' dst => if c' = c ∧ dst ∈ dsts then [msg] else []

namespace Machine

variable (m : Machine) (r : ℕ)

def sendSignalToRoot (sig : BytePSCommSignal) (key : Key) : Sends :=
  sendSignal sig.comm [m.root sig.comm r] ⟨r, sig, key⟩

def broadcastSignal (sig : BytePSCommSignal) (key : Key) : Sends :=
  sendSignal sig.comm ((m.members sig.comm r).filter (· ≠ r)) ⟨r, sig, key⟩

/-- `ClearReadyCount` on the table of a queue. -/
def clearReadyCount (q : QueueType) (key : Key) (tables : Table × Key → ℕ) : Table × Key → ℕ :=
  match m.readyTable r q with
  | none => tables
  | some τ => update tables (τ, key) 0

end Machine

/-! ## Ranks -/

/-- Where the NCCL loop of a root stands: before the `i`-th task of an operation, or at the end. -/
inductive NcclPc
  | get (op : NcclOp) (i : ℕ)
  | close
  deriving DecidableEq

def NcclOp.next : NcclOp → NcclPc
  | .reduce => .get .broadcast 0
  | .broadcast => .close

/-- What other ranks depend on. The first three fields are history and read by no loop: how often a
task with a key was added to a queue (`none` stands for the end of its list) and taken from one,
and which signals were received from whom. -/
structure Ledger where
  added : Option QueueType × Key → ℕ := fun _ => 0
  taken : QueueType × Key → ℕ := fun _ => 0
  heard : ℕ × BytePSCommSignal × Key → ℕ := fun _ => 0
  /-- The ready tables. -/
  tables : Table × Key → ℕ := fun _ => 0
  /-- The loop of a queue has its signal for a key still to send. -/
  owed : QueueType → Option Key := fun _ => none
  /-- The signal that the NCCL loop has received and works on. -/
  received : Option BytePSCommMsg := none

structure Rank extends Ledger where
  queues : QueueType → List TensorTableEntry := fun _ => []
  credits : ℕ
  /-- Tasks that the loop of a queue has taken and not passed on. -/
  tasks : QueueType → List TensorTableEntry := fun _ => []
  pc : NcclPc := .get .reduce 0
  /-- The NCCL group that is put together. -/
  group : List TensorTableEntry := []
  /-- `_nccl_pipeline`. -/
  pipeline : List (List TensorTableEntry) := []
  /-- What is left of the group that `SyncNcclLoop` finishes. -/
  syncing : List TensorTableEntry := []

namespace Rank

variable (m : LocalConfig) (r : ℕ) (k : Rank)

/-! ## Queues and tables -/

def addTask (q : QueueType) (e : TensorTableEntry) : Rank :=
  { k with
    queues := update k.queues q
      (ScheduledQueue.addTask (m.isScheduled r q) (k.queues q) e)
    added := tick k.added (some q, e.key) }

def reportFinish (q : QueueType) (size : ℕ) : Rank :=
  { k with credits := if m.isScheduled r q then k.credits + size else k.credits }

def finishOrProceed (e : TensorTableEntry) : Except Check Rank :=
  match e.queueList with
  | [] => .error .queueList
  | thisOp :: queueList =>
    let k := k.reportFinish m r thisOp e.len
    match queueList with
    | [] => .ok { k with added := tick k.added (none, e.key) }
    | q :: _ => .ok (k.addTask m r q { e with queueList := queueList })

def isKeyReady (q : QueueType) (key : Key) : Bool :=
  match m.readyTable r q with
  | none => true
  | some τ => k.tables (τ, key) == m.readyCount τ

def getTask (q : QueueType) : Option (TensorTableEntry × Rank) :=
  (ScheduledQueue.getTask (m.isScheduled r q) k.credits (k.isKeyReady m r q) (k.queues q)).map
    fun found =>
      (found.1, { k with
        queues := update k.queues q found.2
        credits := if m.isScheduled r q then k.credits - found.1.len else k.credits
        tables := m.clearReadyCount r q found.1.key k.tables
        taken := tick k.taken (q, found.1.key) })

/-- `getTask(key)`. -/
def getTaskOf (q : QueueType) (key : Key) : Except Check (Option (TensorTableEntry × Rank)) :=
  (ScheduledQueue.getTaskOf (m.isScheduled r q) key (k.queues q)).map fun found =>
    found.map fun found =>
      (found.1, { k with
        queues := update k.queues q found.2
        taken := tick k.taken (q, found.1.key) })

def addReadyCount (τ : Table) (key : Key) : Except Check Rank :=
  if k.tables (τ, key) < m.readyCount τ then .ok { k with tables := tick k.tables (τ, key) }
  else .error .readyCount

/-! ## Loops -/

abbrev Outcome := Option (Except Check (Rank × Sends))

def quiet (k : Rank) : Outcome := some (.ok (k, noSends))

/-- The loop of a queue takes a task; `owes` says that it signals before it passes it on. -/
def take (q : QueueType) (owes : Bool) : Outcome :=
  (k.getTask m r q).map fun found =>
    .ok ({ found.2 with
      tasks := update found.2.tasks q [found.1]
      owed := if owes then update found.2.owed q (some found.1.key) else found.2.owed },
      noSends)

/-- The loop of a queue passes a task on, of which `rest` is left. -/
def proceed (q : QueueType) (e : TensorTableEntry) (rest : List TensorTableEntry) : Outcome :=
  some (({ k with tasks := update k.tasks q rest }.finishOrProceed m r e).map (·, noSends))

def signalled (q : QueueType) (sends : Sends) : Outcome :=
  some (.ok ({ k with owed := update k.owed q none }, sends))

/-- `EnqueueTensor`, for one partition. -/
def enqueue (op : Operation) (key : Key) (len : ℕ) (priority : ℤ) (readyEvent : Option Bool) :
    Outcome :=
  match m.queueList r with
  | [] => k.quiet
  | q :: _ => (k.addTask m r q ⟨op, key, len, priority, readyEvent, m.queueList r⟩).quiet

def reachEvent (q : QueueType) (i : ℕ) : Outcome :=
  (k.queues q)[i]?.bind fun e =>
    if e.readyEvent = some false then
      { k with
        queues := update k.queues q
          ((k.queues q).set i { e with readyEvent := some true }) }.quiet
    else none

/-- `RunCoordinateLoopOnce`: first to the next queue, and then the signal. -/
def coordinate (op : Coordinate) : Outcome :=
  match k.tasks op.queue, k.owed op.queue with
  | e :: rest, _ =>
    { k with owed := update k.owed op.queue (some e.key) }.proceed m r op.queue e rest
  | [], some key =>
    if r = m.root op.signal.comm r then some (.error .coordinateRoot)
    else k.signalled op.queue (m.sendSignalToRoot r op.signal key)
  | [], none => k.take m r op.queue false

/-- `RecordOrSynchronizeCudaCopy`, where something is copied asynchronously. -/
def recordEvent (record : Bool) (e : TensorTableEntry) : TensorTableEntry :=
  if record = true ∧ 1 < e.queueList.length then { e with readyEvent := some false } else e

/-- `RunCopyDevice2HostLoopOnce`. -/
def copyD2H (record : Bool) : Outcome :=
  match k.tasks .copyD2H with
  | e :: rest => k.proceed m r .copyD2H (recordEvent record e) rest
  | [] => k.take m r .copyD2H false

/-- `RunPcieReduceLoopOnce`. -/
def pcieReduce : Outcome :=
  match k.tasks .pcieReduce, k.owed .pcieReduce with
  | _ :: _, some key =>
    k.signalled .pcieReduce
      (if m.root .cpu r = r then noSends else m.sendSignalToRoot r .pcieReduceReady key)
  | e :: rest, none => k.proceed m r .pcieReduce e rest
  | [], _ => k.take m r .pcieReduce true

/-- `RunRootCopyHost2DeviceLoopOnce` and `RunNonRootCopyHost2DeviceLoopOnce`. -/
def copyH2D (record : Bool) : Outcome :=
  match k.tasks .copyH2D, k.owed .copyH2D with
  | _ :: _, some key =>
    k.signalled .copyH2D
      (if m.isRootDevice r ∧ 1 < m.localSize then m.broadcastSignal r .doCopyH2D key else noSends)
  | e :: rest, none => k.proceed m r .copyH2D (recordEvent record e) rest
  | [], _ => k.take m r .copyH2D true

/-- `RunPushLoopOnce` and `RunPullLoopOnce`, which may have several threads and go on before the
server answers. -/
def transfer (q : QueueType) : Outcome :=
  (k.getTask m r q).map fun found =>
    .ok ({ found.2 with tasks := update found.2.tasks q (found.2.tasks q ++ [found.1]) },
      noSends)

def answered (q : QueueType) (i : ℕ) : Outcome :=
  (k.tasks q)[i]?.bind fun e => k.proceed m r q e ((k.tasks q).eraseIdx i)

/-! ## NCCL -/

def enqueueGroup : Rank :=
  { k with group := [], pipeline := k.pipeline ++ [k.group] }

/-- `RunRootNcclLoopOnce`. -/
def rootNccl : Outcome :=
  match k.pc with
  | .get op i =>
    match k.owed op.queue with
    | some key =>
      k.group.getLast?.map fun e => (postNcclCalls e).map fun _ =>
        ({ k with owed := update k.owed op.queue none, pc := .get op (i + 1) },
          m.broadcastSignal r op.signal key)
    | none =>
      if i < m.ncclGroupSize then
        match k.getTask m r op.queue with
        | none => { k with pc := op.next }.quiet
        | some (e, k) =>
          if 1 < m.ncclSize then
            { k with
              group := k.group ++ [e]
              owed := update k.owed op.queue (some e.key) }.quiet
          else { k with group := k.group ++ [e], pc := .get op (i + 1) }.quiet
      else { k with pc := op.next }.quiet
  | .close =>
    if k.group = [] then { k with pc := .get .reduce 0 }.quiet
    else some (.ok ({ k.enqueueGroup with pc := .get .reduce 0 }, m.broadcastSignal r .doGroup 0))

/-- `RunNonRootNcclLoopOnce`, after a signal for a key. -/
def nonRootNccl : Outcome :=
  k.received.bind fun msg => msg.signal.ncclOp.map fun op =>
    match k.getTaskOf m r op.queue msg.key with
    | .error c => .error c
    | .ok none => .error .task
    | .ok (some (e, k)) =>
      (postNcclCalls e).map fun _ =>
        ({ k with received := none, group := k.group ++ [e] }, noSends)

/-- `RunSyncNcclOnce`, on groups whose events are reached. -/
def syncNccl : Outcome :=
  match k.syncing with
  | e :: rest => some (({ k with syncing := rest }.finishOrProceed m r e).map (·, noSends))
  | [] =>
    match k.pipeline with
    | [] => none
    | group :: pipeline => { k with syncing := group, pipeline := pipeline }.quiet

/-! ## Receiving -/

def hear (src : ℕ) (msg : BytePSCommMsg) : Rank :=
  { k with heard := tick k.heard (src, msg.signal, msg.key) }

/-- `startListenThread`. -/
def listen (src : ℕ) (msg : BytePSCommMsg) : Except Check Rank :=
  match msg.signal.table with
  | none => .error .signal
  | some τ => (k.hear src msg).addReadyCount m τ msg.key

/-- `RunNonRootCopyListenLoopOnce`. -/
def copyListen (src : ℕ) (msg : BytePSCommMsg) : Except Check Rank :=
  if msg.src = m.root .basic r then
    if msg.signal = .doCopyH2D then (k.hear src msg).addReadyCount m .copy msg.key
    else .error .signal
  else .error .source

/-- `RunNonRootNcclLoopOnce`, up to the signal. -/
def recvSignalFromRoot (src : ℕ) (msg : BytePSCommMsg) : Except Check Rank :=
  if msg.src = m.root .nccl r then
    if msg.signal = .doGroup then .ok (k.hear src msg).enqueueGroup
    else if msg.signal.ncclOp.isSome then .ok { k.hear src msg with received := some msg }
    else .error .signal
  else .error .source

end Rank

/-! ## Worlds -/

abbrev Wire := Comm × ℕ × ℕ → List BytePSCommMsg

def Wire.send (w : Wire) (r : ℕ) (sends : Sends) : Wire
  | (c, src, dst) => if src = r then w (c, src, dst) ++ sends c dst else w (c, src, dst)

structure LocalWorld where
  ranks : ℕ → Rank
  wire : Wire := fun _ => []
  fault : Option Check := none

inductive LocalAction
  | enqueue (op : Operation) (key : Key) (len : ℕ) (priority : ℤ) (readyEvent : Option Bool)
  | reachEvent (q : QueueType) (i : ℕ)
  | coordinate (op : Coordinate)
  | copyD2H (record : Bool)
  | pcieReduce
  | copyH2D (record : Bool)
  | push
  | pull
  | answered (q : QueueType) (i : ℕ)
  | rootNccl
  | nonRootNccl
  | syncNccl
  | listen (c : Comm) (src : ℕ)
  | copyListen (src : ℕ)
  | recvSignal (src : ℕ)

def LocalAction.key? : LocalAction → Option Key
  | .enqueue _ key _ _ _ => some key
  | _ => none

structure LocalLabel where
  rank : ℕ
  action : LocalAction

namespace LocalConfig

variable (m : LocalConfig)

def perform (s : LocalWorld) (r : ℕ) (out : Rank.Outcome) : Option (Except Check LocalWorld) :=
  out.map fun out => out.map fun done =>
    { s with ranks := update s.ranks r done.1, wire := Wire.send s.wire r done.2 }

def receive (s : LocalWorld) (r : ℕ) (c : Comm) (src : ℕ)
    (handle : BytePSCommMsg → Except Check Rank) : Option (Except Check LocalWorld) :=
  match s.wire (c, src, r) with
  | [] => none
  | msg :: rest => some ((handle msg).map fun k =>
      { s with
        ranks := update s.ranks r k
        wire := update s.wire (c, src, r) rest })

/-- The next step of a thread. The listen threads belong to the communicators; the others are
started by `byteps_init`. -/
def act (s : LocalWorld) (r : ℕ) : LocalAction → Option (Except Check LocalWorld)
  | .enqueue op key len priority readyEvent =>
    perform s r ((s.ranks r).enqueue m r op key len priority readyEvent)
  | .reachEvent q i => perform s r ((s.ranks r).reachEvent q i)
  | .coordinate op =>
    if op.queue ∈ m.loops r then perform s r ((s.ranks r).coordinate m r op) else none
  | .copyD2H record =>
    if .copyD2H ∈ m.loops r then perform s r ((s.ranks r).copyD2H m r record) else none
  | .pcieReduce =>
    if .pcieReduce ∈ m.loops r then perform s r ((s.ranks r).pcieReduce m r) else none
  | .copyH2D record =>
    if .copyH2D ∈ m.loops r then perform s r ((s.ranks r).copyH2D m r record) else none
  | .push => if .push ∈ m.loops r then perform s r ((s.ranks r).transfer m r .push) else none
  | .pull => if .pull ∈ m.loops r then perform s r ((s.ranks r).transfer m r .pull) else none
  | .answered q i =>
    if q = .push ∨ q = .pull then perform s r ((s.ranks r).answered m r q i) else none
  | .rootNccl =>
    if .reduce ∈ m.loops r ∧ m.isSignalRoot r then perform s r ((s.ranks r).rootNccl m r) else none
  | .nonRootNccl =>
    if .reduce ∈ m.loops r ∧ ¬m.isSignalRoot r then
      perform s r ((s.ranks r).nonRootNccl m r)
    else none
  | .syncNccl => if .reduce ∈ m.loops r then perform s r ((s.ranks r).syncNccl m r) else none
  | .listen c src =>
    if m.root c r = r then receive s r c src ((s.ranks r).listen m src) else none
  | .copyListen src =>
    if .copyH2D ∈ m.loops r ∧ ¬m.isRootDevice r then
      receive s r .basic src ((s.ranks r).copyListen m r src)
    else none
  | .recvSignal src =>
    if .reduce ∈ m.loops r ∧ ¬m.isSignalRoot r ∧ (s.ranks r).received = none then
      receive s r .nccl src ((s.ranks r).recvSignalFromRoot m r src)
    else none

def step (s : LocalWorld) (a : LocalLabel) : Option LocalWorld :=
  if s.fault = none ∧ a.rank < m.localSize then
    (m.act s a.rank a.action).map fun out =>
      match out with
      | .ok t => t
      | .error c => { s with fault := some c }
  else none

def start : LocalWorld where
  ranks _ := { credits := m.partitionBound * m.schedulingCredit }

def worlds : System LocalWorld LocalLabel where
  init s := s = m.start
  step := m.step

/-- At most one operation of a key is outstanding in a rank: a key is enqueued when all tasks that
were enqueued with it are finished. -/
def OneOutstanding (s : LocalWorld) (a : LocalLabel) : Prop :=
  ∀ key ∈ a.action.key?,
    (s.ranks a.rank).added ((m.queueList a.rank).head?, key) = (s.ranks a.rank).added (none, key)

instance (s : LocalWorld) (a : LocalLabel) : Decidable (m.OneOutstanding s a) :=
  Option.decidableForallMem _

end LocalConfig

end MegatronDPU.Worker
