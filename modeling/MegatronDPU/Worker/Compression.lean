import MegatronDPU.Server.Provenance
import MegatronDPU.Worker.Pipeline

/-!
# Compressed tensors

For a tensor that is declared with compressor arguments, `InitTensor` creates a compressor for each
partition and registers one with the server for each key. From then on the server decompresses every
push of these keys. The worker has loops for `COMPRESS` and `DECOMPRESS`, but the code of
`EnqueueTensor` that would put these queues into the list of a task is commented out: the pushes
carry the shared buffer as it is.
-/

namespace MegatronDPU.Worker

open Lts Function List Option Machine
open Server (Key KVMeta Response CompressorClass ServerState EngineMessage encodeKey
  getCommandType decompressed)

variable {α : Type} {C : CompressorClass α}

/-! ## Processes and tensors -/

structure Node where
  machine : Machine
  localRank : ℕ

/-- `IsDistributed() && IsRootDevice()`. -/
def Node.sends (n : Node) : Bool := n.machine.isDistributed && n.machine.isRootDevice n.localRank

/-- A tensor declared with compressor arguments, of at least the minimum size, after
`InitTensor`. -/
structure CompressedTensor (α : Type) (C : CompressorClass α) where
  cfg : Config
  declared : BPSContext
  new : declared.initialized = false
  content : List Char
  kwargs : declared.kwargs = some content
  dtype : ℕ
  size : ℕ
  large : cfg.minCompressBound ≤ size
  /-- The shared buffer when the tensor is initialised. -/
  shared : List α
  context : BPSContext
  requests : List (Request α)
  init : initTensor cfg declared dtype shared size = some (context, requests)
  tasks : List Task
  enqueued : enqueueTensor cfg context size size = some tasks
  /-- The registry knows the compressor. -/
  created : ∀ task ∈ tasks, (C.create content task.len dtype).isSome

structure CompressedJob (α : Type) (C : CompressorClass α) where
  scfg : Server.Config
  numNodes : ℕ
  node : ℕ → Node
  tensor : CompressedTensor α C

/-! ## States -/

structure PipeTask (α : Type) where
  part : ℕ
  remaining : List QueueType
  /-- A request of the task is under way. -/
  inFlight : Bool := false
  /-- `task->compressed`. -/
  compressed : Option (List α) := none
  received : Option (List α) := none

/-- `FinishOrProceed`. -/
def PipeTask.proceed (p : PipeTask α) : PipeTask α :=
  { p with remaining := p.remaining.tail, inFlight := false }

structure NodeState (α : Type) (C : CompressorClass α) where
  tasks : List (PipeTask α) := []
  /-- The part of the shared buffer that belongs to a partition. -/
  buffer : ℕ → List α
  /-- `context.compressor_list`. -/
  compressor : ℕ → Option C.State

structure Packet (α : Type) where
  sender : ℕ
  task : ℕ
  key : Key
  push : Bool
  payload : List α

def Packet.reqMeta (dtype : ℕ) (p : Packet α) : KVMeta where
  cmd := getCommandType .kDefaultPushPull dtype
  push := p.push
  sender := p.sender
  timestamp := p.task

def Packet.data (scfg : Server.Config) (p : Packet α) : Server.KVPairs α :=
  if p.push then ⟨[encodeKey scfg p.key], .cells p.payload, [p.payload.length]⟩
  else { keys := [encodeKey scfg p.key] }

inductive PipeEvent (α : Type)
  /-- `Compress` of a worker has returned. -/
  | compressed (w id : ℕ) (output : List α)
  | sent (w id : ℕ) (payload : List α)
  | received (w id : ℕ) (payload : List α)
  /-- A worker has called `Decompress`. -/
  | decompressed (w id : ℕ) (payload : List α)
  /-- An engine thread of the server has called `Decompress`. -/
  | served (key : Key) (data : List α)
  deriving DecidableEq

structure World (α : Type) (C : CompressorClass α) where
  server : ServerState α C
  nodes : ℕ → NodeState α C
  wire : List (Packet α) := []
  log : List (PipeEvent α) := []

/-- What is sent is the output of `Compress` on the task, what is received is passed through
`Decompress` before the task is finished, and the server decompresses outputs of `Compress` only. -/
structure World.Compressed (s : World α C) : Prop where
  sent : ∀ w id payload, .sent w id payload ∈ s.log → .compressed w id payload ∈ s.log
  received : ∀ w id payload p, .received w id payload ∈ s.log →
    (s.nodes w).tasks[id]? = some p → p.remaining = [] → .decompressed w id payload ∈ s.log
  served : ∀ key data, .served key data ∈ s.log → ∃ w id, .compressed w id data ∈ s.log

namespace CompressedJob

variable (job : CompressedJob α C)

/-! ## Stages of a task -/

structure Effect (α : Type) (C : CompressorClass α) where
  task : PipeTask α
  buffer : List α
  compressor : Option C.State
  packets : List (Packet α) := []
  events : List (PipeEvent α) := []

/-- `RunCompressLoopOnce`. -/
def runCompress (w id : ℕ) (task : Task) (e : Effect α C) : Option (Effect α C) :=
  if (job.node w).machine.isRootDevice (job.node w).localRank ∧ e.task.compressed.isNone then
    e.compressor.bind fun c =>
      let r := C.compress c e.buffer job.tensor.dtype
      if r.1.length ≤ task.len then
        some { e with
          task := { e.task with compressed := some r.1 }.proceed
          compressor := some r.2
          events := [.compressed w id r.1] }
      else none
  else none

/-- `RunPushLoopOnce` and `RunGDRPushLoopOnce`; the task goes on when the push is answered. -/
def runPush (w id : ℕ) (task : Task) (e : Effect α C) : Option (Effect α C) :=
  let m := (job.node w).machine
  if m.isRootDevice (job.node w).localRank then
    if m.isDistributed then
      -- the loop of GDR does not look at `task->compressed`
      let payload := if m.useGdr then e.buffer else e.task.compressed.getD e.buffer
      some { e with
        task := { e.task with
          inFlight := true
          compressed := if m.useGdr then e.task.compressed else none }
        packets := [⟨w, id, task.key, true, payload⟩]
        events := [.sent w id payload] }
    else if m.isCrossPcieSwitch then some { e with task := e.task.proceed }
    else none
  else none

/-- `RunPullLoopOnce` and `RunGDRPullLoopOnce`. -/
def runPull (w id : ℕ) (task : Task) (e : Effect α C) : Option (Effect α C) :=
  if (job.node w).machine.isRootDevice (job.node w).localRank then
    some { e with
      task := { e.task with inFlight := true }
      packets := [⟨w, id, task.key, false, []⟩] }
  else none

/-- `RunDecompressLoopOnce`. -/
def runDecompress (w id : ℕ) (e : Effect α C) : Option (Effect α C) :=
  if (job.node w).machine.isRootDevice (job.node w).localRank then
    e.compressor.bind fun c => e.task.received.map fun payload =>
      let r := C.decompress c payload job.tensor.dtype
      { e with
        task := e.task.proceed
        buffer := r.1
        compressor := some r.2
        events := [.decompressed w id payload] }
  else none

/-- The loop of a queue on a task. `data` is what devices and other processes put into the shared
buffer. -/
def perform (w id : ℕ) (task : Task) (data : List α) (e : Effect α C) :
    QueueType → Option (Effect α C)
  | .compress => job.runCompress w id task e
  | .push => job.runPush w id task e
  | .pull => job.runPull w id task e
  | .decompress => job.runDecompress w id e
  | .copyD2H | .pcieReduce =>
    if data.length = task.len then some { e with task := e.task.proceed, buffer := data } else none
  | _ => some { e with task := e.task.proceed }

/-- The world after a stage of the task `id`, which belongs to the partition `i`. -/
def apply (s : World α C) (w id i : ℕ) (e : Effect α C) : World α C :=
  { s with
    nodes := update s.nodes w
      { tasks := (s.nodes w).tasks.set id e.task
        buffer := update (s.nodes w).buffer i e.buffer
        compressor := update (s.nodes w).compressor i e.compressor }
    wire := s.wire ++ e.packets
    log := s.log ++ e.events }

/-- The next stage of a task, if the loop of its queue runs in the process. -/
def stage (s : World α C) (w id : ℕ) (data : List α) : Option (World α C) :=
  (s.nodes w).tasks[id]?.bind fun p =>
    match p.remaining with
    | [] => none
    | q :: _ =>
      if p.inFlight = false ∧ q ∈ (job.node w).machine.loops (job.node w).localRank then
        job.tensor.tasks[p.part]?.bind fun task =>
          (job.perform w id task data
            ⟨p, (s.nodes w).buffer p.part, (s.nodes w).compressor p.part, [], []⟩ q).map
              (apply s w id p.part)
      else none

/-! ## Requests and answers -/

/-- `EnqueueTensor`: a task for each partition. -/
def enqueue (s : World α C) (w : ℕ) : World α C :=
  { s with
    nodes := update s.nodes w
      { s.nodes w with
        tasks := (s.nodes w).tasks ++ (range job.tensor.tasks.length).map fun i =>
          ⟨i, (job.node w).machine.queueList (job.node w).localRank, false, none, none⟩ } }

def receive (s : World α C) (r : Response α) : World α C :=
  let w := r.reqMeta.sender
  let id := r.reqMeta.timestamp
  match (s.nodes w).tasks[id]? with
  | none => s
  | some p =>
    if p.inFlight then
      if r.reqMeta.push then
        { s with
          nodes := update s.nodes w
            { s.nodes w with tasks := (s.nodes w).tasks.set id p.proceed } }
      else
        match r.kvs.vals with
        | .cells payload =>
          { s with
            nodes := update s.nodes w
              { s.nodes w with
                tasks := (s.nodes w).tasks.set id { p.proceed with received := some payload }
                buffer := update (s.nodes w).buffer p.part
                  (payload ++ ((s.nodes w).buffer p.part).drop payload.length) }
            log := s.log ++ [.received w id payload] }
        | _ => s
    else s

def serving (s : World α C) (i : ℕ) : List (PipeEvent α) :=
  match s.server.engines i with
  | .popped m => ((decompressed (s.server.keyStates m.key) m).map (.served m.key)).toList
  | _ => []

inductive Label (α : Type)
  | enqueue (w : ℕ)
  | stage (w id : ℕ) (data : List α)
  | deliver (k : ℕ)
  | engine (i : ℕ)

section Step

variable [Add α] [Zero α]

def deliver (s : World α C) (k : ℕ) : Option (World α C) :=
  s.wire[k]?.bind fun p =>
    (s.server.handle job.scfg (p.reqMeta job.tensor.dtype) (p.data job.scfg)).map fun handled =>
      handled.2.foldl receive { s with server := handled.1, wire := s.wire.eraseIdx k }

def engine (s : World α C) (i : ℕ) : Option (World α C) :=
  (s.server.engineStep job.scfg i).map fun stepped =>
    stepped.2.2.foldl receive { s with server := stepped.1, log := s.log ++ serving s i }

def step (s : World α C) : Label α → Option (World α C)
  | .enqueue w => if w < job.numNodes then some (job.enqueue s w) else none
  | .stage w id data => if w < job.numNodes then job.stage s w id data else none
  | .deliver k => job.deliver s k
  | .engine i => job.engine s i

/-- The server after the tensor was initialised: nothing is under way, and the keys have their
stores and compressors. -/
structure Registered (server : ServerState α C) : Prop where
  drained : server.Drained
  store : ∀ task ∈ job.tensor.tasks, (server.keyStates task.key).store.isSome
  compressor : ∀ task ∈ job.tensor.tasks, (server.keyStates task.key).compressor.isSome

/-- The compressors that `InitTensor` has created in a process. -/
def compressorList (w i : ℕ) : Option C.State :=
  if (job.node w).sends then
    job.tensor.tasks[i]?.bind fun task => C.create job.tensor.content task.len job.tensor.dtype
  else none

def sharedPart (i : ℕ) : List α :=
  (job.tensor.tasks[i]?.map fun task => slice job.tensor.shared task.offset task.len).getD []

def worlds : System (World α C) (Label α) where
  init s := job.Registered s.server ∧ s.wire = [] ∧ s.log = [] ∧
    s.nodes = fun w => { buffer := job.sharedPart, compressor := job.compressorList w }
  step := job.step

end Step

end CompressedJob

/-! ## Lists -/

theorem compress_notMem_queueList (m : Machine) (localRank : ℕ) :
    .compress ∉ m.queueList localRank ∧ .decompress ∉ m.queueList localRank := by
  unfold queueList getPushQueueList getPullQueueList
  constructor
  all_goals
    rw [mem_append, not_or]
    split_ifs <;> simp

def Machine.beforePush (m : Machine) (localRank : ℕ) : List QueueType :=
  let reduce : List QueueType :=
    if m.isSignalRoot localRank then [.reduce] else [.coordinateReduce, .reduce]
  let pcieReduce : List QueueType := if m.isCrossPcieSwitch then [.pcieReduce] else []
  if m.useGdr then [] else reduce ++ [.copyD2H] ++ pcieReduce

variable {n : Node}

theorem queueList_of_sends (h : n.sends = true) :
    n.machine.queueList n.localRank = n.machine.beforePush n.localRank ++
      .push :: n.machine.getPullQueueList n.localRank := by
  obtain ⟨hdist, hroot⟩ := Bool.and_eq_true_iff.mp h
  unfold queueList getPushQueueList beforePush
  simp only [hdist, hroot, Bool.true_or, if_true]
  split_ifs <;> rfl

theorem beforePush_subset_loops (h : n.sends = true) :
    ∀ q ∈ n.machine.beforePush n.localRank ++ [.push],
      q ∈ n.machine.loops n.localRank := by
  obtain ⟨hdist, hroot⟩ := Bool.and_eq_true_iff.mp h
  unfold beforePush loops
  simp only [hdist, hroot, Bool.or_true, Bool.and_true, if_true]
  split_ifs <;> decide

namespace CompressedJob

variable {job : CompressedJob α C} {s t u : World α C} {w id : ℕ} {data : List α}

/-! ## Stages -/

theorem stage_cases (h : job.stage s w id data = some t) :
    ∃ p q rest task e, (s.nodes w).tasks[id]? = some p ∧ p.remaining = q :: rest ∧
      q ∈ (job.node w).machine.loops (job.node w).localRank ∧
      job.perform w id task data
        ⟨p, (s.nodes w).buffer p.part, (s.nodes w).compressor p.part, [], []⟩ q = some e ∧
      t = apply s w id p.part e := by
  obtain ⟨p, hp, h⟩ := bind_eq_some_iff.mp h
  cases hrem : p.remaining with
  | nil =>
    rw [hrem] at h
    cases h
  | cons q rest =>
    rw [hrem] at h
    dsimp only at h
    split_ifs at h with hloop
    obtain ⟨task, -, h⟩ := bind_eq_some_iff.mp h
    obtain ⟨e, he, rfl⟩ := map_eq_some_iff.mp h
    exact ⟨p, q, rest, task, e, hp, hrem, hloop.2, he, rfl⟩

variable {p : PipeTask α} {e : Effect α C}

theorem proceed_subset (p : PipeTask α) : p.proceed.remaining ⊆ p.remaining :=
  tail_subset p.remaining

/-- What the loops do apart from those of the compressor: they pass the task on, send what is in
the buffer or was compressed before, or ask for the result. -/
theorem perform_cases {task : Task} {buffer : List α} {c : Option C.State} {q : QueueType}
    (hc : q ≠ .compress) (hd : q ≠ .decompress)
    (h : job.perform w id task data ⟨p, buffer, c, [], []⟩ q = some e) :
    e.task.remaining ⊆ p.remaining ∧ (e.packets = [] ∧ e.events = [] ∨
      (q = .push ∧ (job.node w).sends = true ∧ ∃ payload,
        e.packets = [⟨w, id, task.key, true, payload⟩] ∧ e.events = [.sent w id payload]) ∨
      q = .pull ∧ e.packets = [⟨w, id, task.key, false, []⟩] ∧ e.events = []) := by
  cases q with
  | compress => exact absurd rfl hc
  | decompress => exact absurd rfl hd
  | push =>
    change job.runPush w id task _ = _ at h
    unfold runPush at h
    dsimp only at h
    split_ifs at h with hroot hdist hgdr hcross
    iterate 2
      · cases h
        exact ⟨List.Subset.refl _,
          .inr (.inl ⟨rfl, Bool.and_eq_true_iff.mpr ⟨hdist, hroot⟩, _, rfl, rfl⟩)⟩
    · cases h
      exact ⟨proceed_subset p, .inl ⟨rfl, rfl⟩⟩
  | pull =>
    change job.runPull w id task _ = _ at h
    unfold runPull at h
    split_ifs at h
    cases h
    exact ⟨List.Subset.refl _, .inr (.inr ⟨rfl, rfl, rfl⟩)⟩
  | copyD2H | pcieReduce =>
    change (if data.length = task.len then _ else _) = _ at h
    split_ifs at h
    cases h
    exact ⟨proceed_subset p, .inl ⟨rfl, rfl⟩⟩
  | _ =>
    cases h
    exact ⟨proceed_subset p, .inl ⟨rfl, rfl⟩⟩

/-! ## Callbacks -/

/-- What callbacks leave: they take tasks further and log what was received. -/
structure Received (s t : World α C) : Prop where
  server : t.server = s.server
  wire : t.wire = s.wire
  log : ∃ es, t.log = s.log ++ es ∧ ∀ e ∈ es, ∃ w id payload, e = .received w id payload
  tasks : ∀ w, ∀ p ∈ (t.nodes w).tasks, ∃ p' ∈ (s.nodes w).tasks, p.remaining ⊆ p'.remaining

theorem Received.refl (s : World α C) : Received s s :=
  ⟨rfl, rfl, ⟨[], (append_nil _).symm, nofun⟩, fun _ p hp => ⟨p, hp, List.Subset.refl _⟩⟩

theorem Received.trans (h : Received s t) (h' : Received t u) : Received s u := by
  obtain ⟨es, hes, hall⟩ := h.log
  obtain ⟨es', hes', hall'⟩ := h'.log
  refine ⟨h'.server.trans h.server, h'.wire.trans h.wire, ⟨es ++ es', ?_, fun e he => ?_⟩,
    fun w p hp => ?_⟩
  · rw [hes', hes, append_assoc]
  · exact (mem_append.mp he).elim (hall e) (hall' e)
  · obtain ⟨p', hp', hsub⟩ := h'.tasks w p hp
    obtain ⟨p'', hp'', hsub'⟩ := h.tasks w p' hp'
    exact ⟨p'', hp'', List.Subset.trans hsub hsub'⟩

/-- The tasks of the process where one is replaced, and of the others. -/
theorem exists_of_mem_update {n : NodeState α C} {p' x : PipeTask α} {v : ℕ}
    (hp : (s.nodes w).tasks[id]? = some p) (hn : n.tasks = (s.nodes w).tasks.set id p')
    (hsub : p'.remaining ⊆ p.remaining) (hx : x ∈ (update s.nodes w n v).tasks) :
    ∃ y ∈ (s.nodes v).tasks, x.remaining ⊆ y.remaining := by
  by_cases hv : v = w
  · subst hv
    rw [update_self, hn] at hx
    rcases mem_or_eq_of_mem_set hx with hx | rfl
    · exact ⟨x, hx, List.Subset.refl _⟩
    · exact ⟨p, mem_of_getElem? hp, hsub⟩
  · rw [update_of_ne hv] at hx
    exact ⟨x, hx, List.Subset.refl _⟩

theorem received_receive (s : World α C) (r : Response α) : Received s (receive s r) := by
  unfold receive
  dsimp only
  split
  · exact .refl s
  rename_i p hp
  split_ifs
  · exact ⟨rfl, rfl, ⟨[], (append_nil _).symm, nofun⟩,
      fun v x => exists_of_mem_update hp rfl (proceed_subset p)⟩
  · split
    · exact ⟨rfl, rfl, ⟨[_], rfl, fun e he => ⟨_, _, _, mem_singleton.mp he⟩⟩,
        fun v x => exists_of_mem_update hp rfl (proceed_subset p)⟩
    · exact .refl s
  · exact .refl s

theorem received_foldl (s : World α C) (rs : List (Response α)) :
    Received s (rs.foldl receive s) := by
  induction rs generalizing s with
  | nil => exact .refl s
  | cons r rs ih => exact (received_receive s r).trans (ih _)

/-! ## Nothing is compressed -/

def Sent (log : List (PipeEvent α)) (d : Server.KVPairs α) : Prop :=
  ∃ w id payload, d.vals = .cells payload ∧ d.lens = [payload.length] ∧
    .sent w id payload ∈ log

structure Inv (s : World α C) : Prop where
  queues : ∀ w, ∀ p ∈ (s.nodes w).tasks, .compress ∉ p.remaining ∧ .decompress ∉ p.remaining
  plain : ∀ w id output, .compressed w id output ∉ s.log
  wire : ∀ p ∈ s.wire, p.push = true → .sent p.sender p.task p.payload ∈ s.log
  server : s.server.Carries (Sent s.log)
  served : ∀ key data, .served key data ∈ s.log → ∃ w id, .sent w id data ∈ s.log

theorem Sent.mono {log log' : List (PipeEvent α)} (h : log ⊆ log') (d : Server.KVPairs α)
    (hd : Sent log d) : Sent log' d := by
  obtain ⟨w, id, payload, hvals, hlens, hmem⟩ := hd
  exact ⟨w, id, payload, hvals, hlens, h hmem⟩

theorem Inv.received (h : Inv s) (hr : Received s t) : Inv t := by
  obtain ⟨es, hlog, hes⟩ := hr.log
  have hsub : s.log ⊆ t.log := by
    rw [hlog]
    exact subset_append_left _ _
  -- an event that is not a reception was there before
  have hold : ∀ e ∈ t.log, (∀ w id payload, e ≠ .received w id payload) → e ∈ s.log := by
    intro e he hne
    rw [hlog] at he
    refine (mem_append.mp he).resolve_right fun he => ?_
    obtain ⟨w, id, payload, heq⟩ := hes e he
    exact hne w id payload heq
  refine ⟨fun w p hp => ?_, fun w id output he => ?_, fun p hp hpush => ?_, ?_,
    fun key data he => ?_⟩
  · obtain ⟨p', hp', hsubset⟩ := hr.tasks w p hp
    exact (h.queues w p' hp').imp (mt (@hsubset _)) (mt (@hsubset _))
  · exact h.plain w id output (hold _ he fun _ _ _ => by simp)
  · rw [hr.wire] at hp
    exact hsub (h.wire p hp hpush)
  · rw [hr.server]
    exact h.server.mono (Sent.mono hsub)
  · obtain ⟨w, id, hsent⟩ := h.served key data (hold _ he fun _ _ _ => by simp)
    exact ⟨w, id, hsub hsent⟩

/-- The tasks of a new call have no compression stage. -/
theorem Inv.enqueue (h : Inv s) (job : CompressedJob α C) (w : ℕ) : Inv (job.enqueue s w) := by
  refine ⟨fun v p hp => ?_, h.plain, h.wire, h.server, h.served⟩
  change p ∈ (update s.nodes w _ v).tasks at hp
  by_cases hv : v = w
  · subst hv
    rw [update_self] at hp
    rcases mem_append.mp hp with hp | hp
    · exact h.queues v p hp
    · obtain ⟨i, -, rfl⟩ := List.mem_map.mp hp
      exact compress_notMem_queueList _ _
  · rw [update_of_ne hv] at hp
    exact h.queues v p hp

/-- A stage that a process performs compresses nothing. -/
theorem Inv.stage (h : Inv s) (hs : job.stage s w id data = some t) : Inv t := by
  obtain ⟨p, q, rest, task, e, hp, hrem, -, hperf, rfl⟩ := stage_cases hs
  obtain ⟨hc, hd⟩ := h.queues w p (mem_of_getElem? hp)
  rw [hrem] at hc hd
  have hsub : s.log ⊆ (apply s w id p.part e).log := subset_append_left _ _
  obtain ⟨hremaining, hspec⟩ := perform_cases (fun hq => hc (hq ▸ mem_cons_self))
    (fun hq => hd (hq ▸ mem_cons_self)) hperf
  -- the only event of a stage is a payload that is sent
  have hevents : ∀ x ∈ e.events, ∃ payload, x = .sent w id payload := by
    obtain ⟨-, he⟩ | ⟨-, -, payload, -, he⟩ | ⟨-, -, he⟩ := hspec
    · simp [he]
    · simp [he]
    · simp [he]
  have hold : ∀ x ∈ (apply s w id p.part e).log, (∀ payload, x ≠ .sent w id payload) →
      x ∈ s.log := by
    intro x hx hne
    refine (mem_append.mp hx).resolve_right fun hx => ?_
    obtain ⟨payload, heq⟩ := hevents x hx
    exact hne payload heq
  refine ⟨fun v x hx => ?_, fun v j output hx => ?_, fun x hx hpush => ?_,
    h.server.mono (Sent.mono hsub), fun key d hx => ?_⟩
  · obtain ⟨y, hy, hsubset⟩ := exists_of_mem_update hp rfl hremaining hx
    exact (h.queues v y hy).imp (mt (@hsubset _)) (mt (@hsubset _))
  · exact h.plain v j output (hold _ hx fun _ => by simp)
  · rcases mem_append.mp hx with hx | hx
    · exact hsub (h.wire x hx hpush)
    · obtain ⟨he, -⟩ | ⟨-, -, payload, he, hev⟩ | ⟨-, he, -⟩ := hspec
      · rw [he] at hx
        cases hx
      · rw [he] at hx
        obtain rfl := mem_singleton.mp hx
        refine mem_append_right _ ?_
        rw [hev]
        exact mem_singleton_self _
      · rw [he] at hx
        obtain rfl := mem_singleton.mp hx
        cases hpush
  · obtain ⟨v, j, hsent⟩ := h.served key d (hold _ hx fun _ => by simp)
    exact ⟨v, j, hsub hsent⟩

section Steps

variable [Add α] [Zero α]

/-- A message that arrives carries what was sent. -/
theorem Inv.deliver {k : ℕ} (h : Inv s) (hs : job.deliver s k = some t) : Inv t := by
  obtain ⟨p, hp, hs⟩ := bind_eq_some_iff.mp hs
  obtain ⟨⟨server, rs⟩, hhandle, rfl⟩ := map_eq_some_iff.mp hs
  have hpush : p.push = true → Sent s.log (p.data job.scfg) := by
    intro hpush
    have hdata : p.data job.scfg =
        ⟨[encodeKey job.scfg p.key], .cells p.payload, [p.payload.length]⟩ := if_pos hpush
    rw [hdata]
    exact ⟨_, _, p.payload, rfl, rfl, h.wire p (mem_of_getElem? hp) hpush⟩
  have hmid : Inv { s with server := server, wire := s.wire.eraseIdx k } :=
    ⟨h.queues, h.plain, fun x hx => h.wire x (mem_of_mem_eraseIdx hx),
      h.server.handle hpush hhandle, h.served⟩
  exact hmid.received (received_foldl _ rs)

omit [Add α] [Zero α] in
theorem Inv.serving {i : ℕ} {e : PipeEvent α} (h : Inv s) (he : e ∈ serving s i) :
    ∃ key data, e = .served key data ∧ ∃ w id, .sent w id data ∈ s.log := by
  unfold CompressedJob.serving at he
  split at he
  · rename_i m hm
    obtain ⟨input, hinput, rfl⟩ := map_eq_some_iff.mp (mem_toList.mp he)
    refine ⟨m.key, input, rfl, ?_⟩
    rcases h.server.popped i m hm with hop | ⟨hop, w, id, payload, hvals, hlens, hsent⟩
    · -- the end of a round is compressed, not decompressed
      unfold decompressed at hinput
      rw [if_neg fun hc => hc.2 hop] at hinput
      cases hinput
    · rw [Server.decompressed_eq hop hvals hlens hinput]
      exact ⟨w, id, hsent⟩
  · cases he

omit [Zero α] in
/-- An engine of the server passes on what was sent. -/
theorem Inv.engine {i : ℕ} (h : Inv s) (hs : job.engine s i = some t) : Inv t := by
  obtain ⟨⟨server, executed, rs⟩, hstep, rfl⟩ := map_eq_some_iff.mp hs
  have hsub : s.log ⊆ s.log ++ CompressedJob.serving s i := subset_append_left _ _
  have hmid : Inv { s with server := server, log := s.log ++ CompressedJob.serving s i } := by
    refine ⟨h.queues, fun w id output he => ?_, fun p hp hpush => hsub (h.wire p hp hpush),
      (h.server.engineStep hstep).mono (Sent.mono hsub), fun key data he => ?_⟩
    · rcases mem_append.mp he with he | he
      · exact h.plain w id output he
      · obtain ⟨_, _, heq, -⟩ := h.serving he
        cases heq
    · rcases mem_append.mp he with he | he
      · obtain ⟨w, id, hsent⟩ := h.served key data he
        exact ⟨w, id, hsub hsent⟩
      · obtain ⟨_, _, heq, w, id, hsent⟩ := h.serving he
        cases heq
        exact ⟨w, id, hsub hsent⟩
  exact hmid.received (received_foldl _ rs)

/-- Nothing is compressed in any reachable world. -/
theorem inv_of_reach (h : Reach job.worlds Free s) : Inv s := by
  refine h.invariant (P := Inv) ?_ ?_
  · rintro ⟨server, nodes, wire, log⟩ ⟨hreg, rfl, rfl, rfl⟩
    exact ⟨nofun, nofun, nofun, hreg.drained.carries, nofun⟩
  · intro s a t hs _ hstep
    cases a with
    | enqueue w =>
      obtain ⟨-, ⟨⟩⟩ := ite_none_right_eq_some.mp hstep
      exact hs.enqueue job w
    | stage w id data => exact hs.stage (ite_none_right_eq_some.mp hstep).2
    | deliver k => exact hs.deliver hstep
    | engine i => exact hs.engine hstep

theorem not_compressed_of_reach (h : Reach job.worlds Free s) (w id : ℕ) (output : List α) :
    .compressed w id output ∉ s.log :=
  (inv_of_reach h).plain w id output

theorem served_of_reach (h : Reach job.worlds Free s) {key : Key} (hs : .served key data ∈ s.log) :
    ∃ w id, .sent w id data ∈ s.log ∧ .compressed w id data ∉ s.log := by
  obtain ⟨w, id, hsent⟩ := (inv_of_reach h).served key data hs
  exact ⟨w, id, hsent, not_compressed_of_reach h w id data⟩

/-! ## A process that sends -/

omit [Add α] [Zero α] in
theorem tasks_ne_nil (job : CompressedJob α C) : job.tensor.tasks ≠ [] := by
  have hsize : 0 < job.tensor.size := by
    have hinit := job.tensor.init
    unfold initTensor at hinit
    rw [if_neg (by simp [job.tensor.new])] at hinit
    by_contra hzero
    rw [if_neg hzero] at hinit
    cases hinit
  intro hnil
  have henq := job.tensor.enqueued
  unfold enqueueTensor at henq
  rw [if_pos rfl] at henq
  obtain ⟨parts, -, henq⟩ := bind_eq_some_iff.mp henq
  dsimp only at henq
  split_ifs at henq with hlen hsum
  rw [some.inj henq, hnil] at hsum
  exact hsize.ne hsum

theorem exists_init (job : CompressedJob α C) : ∃ s, job.worlds.init s := by
  obtain ⟨task, rest, htasks⟩ := exists_cons_of_ne_nil job.tasks_ne_nil
  obtain ⟨c, hc⟩ := isSome_iff_exists.mp
    (job.tensor.created task (by rw [htasks]; exact mem_cons_self))
  let server : ServerState α C :=
    { (ServerState.start job.scfg : ServerState α C) with
      keyStates := fun _ => { store := some ⟨[], 0⟩, compressor := some c } }
  exact ⟨⟨server, _, [], []⟩, ⟨fun _ => ⟨rfl, rfl⟩, fun _ _ => rfl, fun _ _ => rfl⟩, rfl, rfl, rfl⟩

/-- The first task of a process, before its stages `l`. -/
structure FirstAt (job : CompressedJob α C) (w : ℕ) (l : List QueueType) (s : World α C) : Prop where
  reach : Reach job.worlds Free s
  task : ∃ p, (s.nodes w).tasks[0]? = some p ∧ p.part = 0 ∧ p.inFlight = false ∧ p.remaining = l

omit [Add α] [Zero α] in
theorem tasks_apply (hp : (s.nodes w).tasks[id]? = some p) :
    ((apply s w id p.part e).nodes w).tasks[id]? = some e.task := by
  show (update s.nodes w _ w).tasks[id]? = _
  rw [update_self]
  exact getElem?_set_self (List.getElem?_eq_some_iff.mp hp).1

variable {l : List QueueType} {q : QueueType}

/-- The stage of a first task that is performed next. -/
theorem FirstAt.stage (h : FirstAt job w (q :: l) s) (hw : w < job.numNodes)
    (hloop : q ∈ (job.node w).machine.loops (job.node w).localRank) :
    ∃ p task, (s.nodes w).tasks[0]? = some p ∧ p.part = 0 ∧ p.remaining = q :: l ∧
      ∀ data e, job.perform w 0 task data
        ⟨p, (s.nodes w).buffer p.part, (s.nodes w).compressor p.part, [], []⟩ q = some e →
      Reach job.worlds Free (apply s w 0 p.part e) := by
  obtain ⟨p, hp, hpart, hidle, hrem⟩ := h.task
  obtain ⟨task, rest, htasks⟩ := exists_cons_of_ne_nil job.tasks_ne_nil
  have htask : job.tensor.tasks[p.part]? = some task := by
    rw [hpart, htasks]
    rfl
  refine ⟨p, task, hp, hpart, hrem, fun data e he => ?_⟩
  refine h.reach.step (a := .stage w 0 data) trivial ((if_pos hw).trans ?_)
  unfold CompressedJob.stage
  rw [hp, bind_some, hrem]
  dsimp only
  rw [if_pos ⟨hidle, hloop⟩, htask, bind_some, he, map_some]

/-- A first task passes its local stages. -/
theorem FirstAt.next (h : FirstAt job w (q :: l) s) (hw : w < job.numNodes)
    (hloop : q ∈ (job.node w).machine.loops (job.node w).localRank)
    (hq : q ∈ [QueueType.coordinateReduce, .reduce, .copyD2H, .pcieReduce]) :
    ∃ t, FirstAt job w l t := by
  obtain ⟨p, task, hp, hpart, hrem, hstage⟩ := h.stage hw hloop
  obtain ⟨e, he, hdone⟩ : ∃ e, job.perform w 0 task (replicate task.len 0)
      ⟨p, (s.nodes w).buffer p.part, (s.nodes w).compressor p.part, [], []⟩ q = some e ∧
      e.task = p.proceed := by
    simp only [mem_cons, not_mem_nil, or_false] at hq
    rcases hq with rfl | rfl | rfl | rfl
    · exact ⟨_, rfl, rfl⟩
    · exact ⟨_, rfl, rfl⟩
    · exact ⟨_, if_pos length_replicate, rfl⟩
    · exact ⟨_, if_pos length_replicate, rfl⟩
  refine ⟨_, hstage _ e he, e.task, tasks_apply hp, ?_, ?_, ?_⟩
  · rw [hdone]
    exact hpart
  · rw [hdone]
    rfl
  · rw [hdone]
    show p.remaining.tail = l
    rw [hrem, tail_cons]

/-- A first task passes all its local stages. -/
theorem FirstAt.run {l' : List QueueType} (h : FirstAt job w (l ++ l') s) (hw : w < job.numNodes)
    (hloop : ∀ q ∈ l, q ∈ (job.node w).machine.loops (job.node w).localRank)
    (hl : ∀ q ∈ l, q ∈ [QueueType.coordinateReduce, .reduce, .copyD2H, .pcieReduce]) :
    ∃ t, FirstAt job w l' t := by
  induction l generalizing s with
  | nil => exact ⟨s, h⟩
  | cons q l ih =>
    obtain ⟨t, ht⟩ := FirstAt.next h hw (hloop q mem_cons_self) (hl q mem_cons_self)
    exact ih ht (fun x hx => hloop x (mem_cons_of_mem _ hx))
      (fun x hx => hl x (mem_cons_of_mem _ hx))

theorem FirstAt.exists_sent (h : FirstAt job w (.push :: l) s) (hw : w < job.numNodes)
    (hsends : (job.node w).sends = true)
    (hloop : .push ∈ (job.node w).machine.loops (job.node w).localRank) :
    ∃ t payload, Reach job.worlds Free t ∧ .sent w 0 payload ∈ t.log := by
  obtain ⟨p, task, -, -, -, hstage⟩ := h.stage hw hloop
  obtain ⟨hdist, hroot⟩ := Bool.and_eq_true_iff.mp hsends
  obtain ⟨e, payload, he, hevents⟩ : ∃ e payload, job.perform w 0 task []
      ⟨p, (s.nodes w).buffer p.part, (s.nodes w).compressor p.part, [], []⟩ .push = some e ∧
      e.events = [.sent w 0 payload] := by
    exact ⟨_, _, (if_pos hroot).trans (if_pos hdist), rfl⟩
  refine ⟨_, payload, hstage _ e he, mem_append_right _ ?_⟩
  rw [hevents]
  exact mem_singleton_self _

theorem exists_sent (hw : w < job.numNodes) (hsends : (job.node w).sends = true) :
    ∃ t payload, Reach job.worlds Free t ∧ .sent w 0 payload ∈ t.log := by
  obtain ⟨s, hs⟩ := job.exists_init
  have hnodes : (s.nodes w).tasks = [] := by
    rw [hs.2.2.2]
  have hstep : job.worlds.step s (.enqueue w) = some (job.enqueue s w) := if_pos hw
  have hstart : FirstAt job w ((job.node w).machine.beforePush (job.node w).localRank ++
      .push :: (job.node w).machine.getPullQueueList (job.node w).localRank)
      (job.enqueue s w) := by
    refine ⟨(Reach.init hs).step trivial hstep, ?_⟩
    have hlen : 0 < job.tensor.tasks.length := length_pos_iff.mpr job.tasks_ne_nil
    refine ⟨⟨0, (job.node w).machine.queueList (job.node w).localRank, false, none, none⟩, ?_,
      rfl, rfl, queueList_of_sends hsends⟩
    show (update s.nodes w _ w).tasks[0]? = _
    rw [update_self]
    rw [hnodes, nil_append, getElem?_map, getElem?_range hlen, map_some]
  have hloops := beforePush_subset_loops hsends
  have hbefore : ∀ q ∈ (job.node w).machine.beforePush (job.node w).localRank,
      q ∈ [QueueType.coordinateReduce, .reduce, .copyD2H, .pcieReduce] := by
    unfold beforePush
    split_ifs <;> decide
  obtain ⟨t, ht⟩ := hstart.run hw (fun q hq => hloops q (mem_append_left _ hq)) hbefore
  exact ht.exists_sent hw hsends (hloops _ (mem_append_right _ mem_cons_self))

/-! ## Processes that do not send -/

structure Silent (s : World α C) : Prop where
  inv : Inv s
  log : s.log = []
  wire : s.wire = []
  server : s.server.Drained

section

omit [Add α] [Zero α]

theorem pull_notMem_loops (h : n.sends = false) : .pull ∉ n.machine.loops n.localRank := by
  have hboth : (n.machine.isDistributed && n.machine.isRootDevice n.localRank) = false := h
  unfold loops
  simp only [hboth, Bool.false_eq_true, if_false]
  split_ifs <;> decide

/-- A stage of a process that does not send is not seen outside. -/
theorem Silent.stage (h : Silent s) (hsilent : (job.node w).sends = false)
    (hs : job.stage s w id data = some t) : Silent t := by
  have hinv := h.inv.stage hs
  obtain ⟨p, q, rest, task, e, hp, hrem, hloop, hperf, rfl⟩ := stage_cases hs
  obtain ⟨hc, hd⟩ := h.inv.queues w p (mem_of_getElem? hp)
  rw [hrem] at hc hd
  obtain ⟨-, ⟨hpackets, hevents⟩ | ⟨-, hsends, -⟩ | ⟨rfl, -⟩⟩ :=
    perform_cases (fun hq => hc (hq ▸ mem_cons_self))
      (fun hq => hd (hq ▸ mem_cons_self)) hperf
  · refine ⟨hinv, ?_, ?_, h.server⟩
    · show s.log ++ e.events = []
      rw [h.log, hevents]
      rfl
    · show s.wire ++ e.packets = []
      rw [h.wire, hpackets]
      rfl
  · rw [hsilent] at hsends
    cases hsends
  · exact absurd hloop (pull_notMem_loops hsilent)

end

theorem silent_of_reach (hsilent : ∀ w < job.numNodes, (job.node w).sends = false)
    (h : Reach job.worlds Free s) : Silent s := by
  refine h.invariant (P := Silent) ?_ ?_
  · intro s hs
    exact ⟨inv_of_reach (.init hs), hs.2.2.1, hs.2.1, hs.1.drained⟩
  · intro s a t hs _ hstep
    cases a with
    | enqueue w =>
      obtain ⟨-, ⟨⟩⟩ := ite_none_right_eq_some.mp hstep
      exact ⟨hs.inv.enqueue job w, hs.log, hs.wire, hs.server⟩
    | stage w id data =>
      obtain ⟨hw, hstep⟩ := ite_none_right_eq_some.mp hstep
      exact hs.stage (hsilent w hw) hstep
    | deliver k =>
      obtain ⟨p, hp, -⟩ := bind_eq_some_iff.mp hstep
      rw [hs.wire] at hp
      cases hp
    | engine i =>
      -- an idle thread with an empty queue has nothing to do
      obtain ⟨⟨server, executed, rs⟩, hengine, -⟩ := map_eq_some_iff.mp hstep
      obtain ⟨hempty, hwait⟩ := hs.server i
      obtain ⟨m, q, -, hpop, -⟩ | ⟨m, st, m', he, -⟩ | ⟨m, st, he, -⟩ :=
        ServerState.engineStep_cases hengine
      · have hperm := Server.PriorityQueue.waitAndPop_perm hpop
        rw [hempty] at hperm
        cases hperm.nil_eq
      · rw [hwait] at he
        cases he
      · rw [hwait] at he
        cases he

/-- For every tensor with a compressor, every number of processes and servers' mode, in every
interleaving and number of rounds: what is sent is compressed, what is received is decompressed
and the server decompresses only what was compressed, iff no process sends anything. -/
theorem compressed_iff_silent (job : CompressedJob α C) :
    (∀ s, Reach job.worlds Free s → s.Compressed) ↔
      ∀ w < job.numNodes, (job.node w).sends = false := by
  constructor
  · intro h w hw
    by_contra hsends
    obtain ⟨t, payload, ht, hsent⟩ := exists_sent hw (Bool.not_eq_false _ ▸ hsends)
    exact not_compressed_of_reach ht w 0 payload ((h t ht).sent w 0 payload hsent)
  · intro hsilent s hs
    have hlog : ∀ e, e ∉ s.log := eq_nil_iff_forall_not_mem.mp (silent_of_reach hsilent hs).log
    exact ⟨fun _ _ _ h => absurd h (hlog _), fun _ _ _ _ h => absurd h (hlog _),
      fun _ _ h => absurd h (hlog _)⟩

end Steps

end CompressedJob

def firstCell : CompressorClass ℤ where
  State := ℕ
  create _ size _ := some size
  compress n data _ := (data.take 1, n)
  decompress n data _ := (replicate n (data.headD 0), n)

def fourCells : CompressedTensor ℤ firstCell where
  cfg := { minCompressBound := 4 }
  declared := { tensorName := "byteps.grad", declaredKey := 3, kwargs := some ['1'] }
  new := rfl
  content := ['1']
  kwargs := rfl
  dtype := 0
  size := 4
  large := by decide
  shared := [0, 0, 0, 0]
  context :=
    { tensorName := "byteps.grad", declaredKey := 3, initialized := true, buffLen := 4,
      keyList := [196608], kwargs := some ['1'] }
  requests :=
    [registerRequest 1 196608, ⟨196608, ⟨.kDefaultPushPull, 0⟩, .cells [0, 0, 0, 0], 4⟩,
      kwargsRequest 0 ['1'] 196608]
  init := by rfl
  tasks := [⟨196608, 0, 4⟩]
  enqueued := by decide
  created _ _ := rfl

def fourCellsJob : CompressedJob ℤ firstCell where
  scfg := {}
  numNodes := 1
  node _ := ⟨soleGpu 1 false 8, 0⟩
  tensor := fourCells

/-- After the requests of `InitTensor`. -/
def fourCellsStart : World ℤ firstCell where
  server :=
    { (ServerState.start {} : ServerState ℤ firstCell) with
      keyStates := fun _ =>
        { expectedWorkers := 1, store := some ⟨[0, 0, 0, 0], 0⟩, compressor := some (4 : ℕ) } }
  nodes w := { buffer := fourCellsJob.sharedPart, compressor := fourCellsJob.compressorList w }

/-- The cells are sent as they are, and the server takes them for the output of the compressor. -/
theorem raw_push_decompressed : ∃ s, Reach fourCellsJob.worlds Free s ∧
      (s.log = [.sent 0 0 [1, 2, 3, 4], .served 196608 [1, 2, 3, 4]] ∧
        (s.server.keyStates 196608).store = some ⟨[1, 1, 1, 1], 0⟩) ∧ ¬s.Compressed := by
  have hinit : fourCellsJob.worlds.init fourCellsStart :=
    ⟨⟨fun _ => ⟨rfl, rfl⟩, fun _ _ => rfl, fun _ _ => rfl⟩, rfl, rfl, rfl⟩
  obtain ⟨s, hs, hlog, hstore⟩ := exists_reach
    (P := fun s : World ℤ firstCell =>
      s.log = [.sent 0 0 [1, 2, 3, 4], .served 196608 [1, 2, 3, 4]] ∧
        (s.server.keyStates 196608).store = some ⟨[1, 1, 1, 1], 0⟩)
    (Reach.init hinit : Reach fourCellsJob.worlds Free fourCellsStart)
    [.enqueue 0, .stage 0 0 [], .stage 0 0 [1, 2, 3, 4], .stage 0 0 [], .deliver 0, .engine 0,
      .engine 0, .engine 0, .engine 0] (by decide)
  refine ⟨s, hs, ⟨hlog, hstore⟩, fun hcompressed => ?_⟩
  have hsent := hcompressed.sent 0 0 [1, 2, 3, 4] (by rw [hlog]; exact mem_cons_self)
  rw [hlog] at hsent
  exact absurd hsent (by decide)

end MegatronDPU.Worker
