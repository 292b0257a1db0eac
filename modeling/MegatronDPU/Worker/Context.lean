import MegatronDPU.Lib.Chunks
import MegatronDPU.Lib.While
import MegatronDPU.Server.Message

/-!
# Tensors of a worker

A worker keeps a context for every tensor name it has declared. The first `push_pull` of a name
runs `InitTensor`: it gives the partitions of the tensor their keys and announces them to the
server. Every `push_pull` runs `EnqueueTensor`, which cuts the tensor into partitions and hands
them to the queues.

The loops of the source are `Loop.run`s; `buildKeys_eq`, `partitionTensor_eq` and `initPushes_eq`
give their results by the chunks of the size. Sizes and lengths are in bytes.
-/

namespace MegatronDPU.Worker

open List Option
open Server (Key RequestType DataHandleType Vals sizeofInt bytepsInt32)

variable {α : Type}

/-! ## Contexts -/

structure Config where
  /-- `_partition_bytes`, a `uint32_t`. -/
  partitionBound : ℕ := 4096000
  minCompressBound : ℕ := 65536
  numWorker : ℕ := 1
  /-- `IsDistributed() && IsRootDevice()`: this process talks to the servers. -/
  pushes : Bool := true

/-- `BPSContext`, as far as keys and lengths go. -/
structure BPSContext where
  tensorName : String
  declaredKey : Key
  initialized : Bool := false
  buffLen : ℕ := 0
  keyList : List Key := []
  expectedWorkers : ℤ := -1
  /-- Serialised compressor arguments, if there are any. -/
  kwargs : Option (List Char) := none
  deriving DecidableEq

/-- The part of `BytePSGlobal` that is about tensors. -/
structure Global where
  nameToCxt : String → Option BPSContext := fun _ => none
  declaredTensors : List String := []

def Global.setContext (s : Global) (name : String) (context : BPSContext) : Global :=
  { s with nameToCxt := Function.update s.nameToCxt name (some context) }

def declaredKeyOf (hash : String → UInt64) (name : String) : Key := hash name % 1000000000

/-- `IsTensorDeclared`: declares the name if it is new. -/
def isTensorDeclared (hash : String → UInt64) (s : Global) (name : String) : Bool × Global :=
  match s.nameToCxt name with
  | some _ => (true, s)
  | none =>
    let s := if name ∈ s.declaredTensors then s else
      { s with declaredTensors := s.declaredTensors ++ [name] }
    (false, s.setContext name { tensorName := name, declaredKey := declaredKeyOf hash name })

/-- `RegisterTensorExpectedWorkers`. -/
def registerTensorExpectedWorkers (s : Global) (name : String) (expectedWorkers : ℤ) :
    Option Global := do
  let context ← s.nameToCxt name
  if 0 < expectedWorkers then
    if context.expectedWorkers = -1 then
      some (s.setContext name { context with expectedWorkers := expectedWorkers })
    else if context.expectedWorkers = expectedWorkers then some s else none
  else none

/-- `RegisterCompressor`. -/
def registerCompressor (s : Global) (name : String) (kwargs : Option (List Char)) :
    Option Global := do
  let context ← s.nameToCxt name
  some (s.setContext name { context with kwargs := kwargs })

/-! ## Partitions -/

def partitionLen (bound size accumulated : ℕ) : ℕ :=
  if size - accumulated > bound then bound else size - accumulated

/-- Variables of the loop that fills `key_list`. -/
structure KeyLoop where
  accumulated : ℕ
  startKey : Key
  keyList : List Key

/-- The loop of `InitTensor` that gives every partition a key. -/
def buildKeys (bound size : ℕ) (startKey : Key) (keyList : List Key) : Option (List Key) :=
  (Loop.run (fun s : KeyLoop => s.accumulated < size)
    (fun s => some
      { accumulated := s.accumulated + partitionLen bound size s.accumulated
        startKey := s.startKey + 1
        keyList := s.keyList ++ [s.startKey] })
    size ⟨0, startKey, keyList⟩).map (·.keyList)

structure Partition where
  offset : ℕ
  len : ℕ
  deriving DecidableEq

/-- Variables of the loop of `PartitionTensor`. -/
structure PartitionLoop where
  accumulated : ℕ
  partitions : List Partition

def partitionTensor (bound size : ℕ) : Option (List Partition) :=
  (Loop.run (fun s : PartitionLoop => s.accumulated < size)
    (fun s =>
      let e : Partition := ⟨s.accumulated % 2 ^ 32, partitionLen bound size s.accumulated⟩
      some ⟨s.accumulated + e.len, s.partitions ++ [e]⟩)
    size ⟨0, []⟩).map (·.partitions)

structure Task where
  key : Key
  offset : ℕ
  len : ℕ
  deriving DecidableEq

def zipTasks (keyList : List Key) (partitions : List Partition) : List Task :=
  zipWith (fun key e => ⟨key, e.offset, e.len⟩) keyList partitions

/-- `EnqueueTensor`: the partitions get the keys of the context, if there are as many. -/
def enqueueTensor (cfg : Config) (context : BPSContext) (inputSize outputSize : ℕ) :
    Option (List Task) :=
  if inputSize = outputSize then do
    let partitions ← partitionTensor cfg.partitionBound inputSize
    if context.keyList.length = partitions.length then
      let tasks := zipTasks context.keyList partitions
      if (tasks.map (·.len)).sum = inputSize then some tasks else none
    else none
  else none

/-! ## Requests -/

structure Request (α : Type) where
  key : Key
  type : DataHandleType
  vals : Vals α
  len : ℕ
  deriving DecidableEq

def slice (data : List α) (offset len : ℕ) : List α := (data.drop offset).take len

def registerRequest (expectedWorkers : ℤ) (key : Key) : Request α :=
  ⟨key, ⟨.kGroupRegister, bytepsInt32⟩, .int expectedWorkers, sizeofInt⟩

def pushRequest (dtype : ℕ) (data : List α) (task : Task) : Request α :=
  ⟨task.key, ⟨.kDefaultPushPull, dtype⟩, .cells (slice data task.offset task.len), task.len⟩

def kwargsRequest (dtype : ℕ) (content : List Char) (key : Key) : Request α :=
  ⟨key, ⟨.kCompressedPushPull, dtype⟩, .text content, content.length⟩

structure InitLoop where
  accumulated : ℕ
  i : ℕ
  tasks : List Task

/-- The init pushes. A partition whose length does not fit an `int` has no result. -/
def initPushes (bound size : ℕ) (keyList : List Key) : Option (List Task) := do
  let s ← Loop.run (fun s : InitLoop => s.accumulated < size)
    (fun s => do
      let key ← keyList[s.i]?
      let len := partitionLen bound size s.accumulated
      if len < 2 ^ 31 then
        some ⟨s.accumulated + len, s.i + 1, s.tasks ++ [⟨key, s.accumulated, len⟩]⟩
      else none)
    size ⟨0, 0, []⟩
  if s.accumulated = size ∧ s.i = keyList.length then some s.tasks else none

/-- The requests of `InitTensor`, each of which waits for its answer. -/
def initRequests (cfg : Config) (context : BPSContext) (dtype : ℕ) (data : List α)
    (kwargs : Option (List Char)) (keyList : List Key) (tasks : List Task) : List (Request α) :=
  let expectedWorkers : ℤ :=
    if 0 < context.expectedWorkers then context.expectedWorkers else cfg.numWorker
  if cfg.pushes then
    keyList.map (registerRequest expectedWorkers) ++ tasks.map (pushRequest dtype data) ++
      match kwargs with
      | none => []
      | some content => keyList.map (kwargsRequest dtype content)
  else []

/-- `InitTensor`: the initialised context and the requests. `data` is the buffer shared with the
other processes of the machine. -/
def initTensor (cfg : Config) (context : BPSContext) (dtype : ℕ) (data : List α) (size : ℕ) :
    Option (BPSContext × List (Request α)) :=
  if context.initialized then some (context, [])
  else if 0 < size then do
    let bound := cfg.partitionBound
    let keyList ← buildKeys bound size (context.declaredKey <<< 16) context.keyList
    if 0 < keyList.length ∧ keyList.length = (size + bound - 1) % 2 ^ 64 / bound then do
      -- small tensors are not compressed
      let kwargs := if size < cfg.minCompressBound then none else context.kwargs
      let tasks ← initPushes bound size keyList
      some
        ({ context with
            buffLen := size
            keyList := keyList
            kwargs := kwargs
            initialized := true },
          initRequests cfg context dtype data kwargs keyList tasks)
    else none
  else none

/-- `StartTask`: the requests of `InitTensor`, and the tasks of the tensor itself, of which nothing
is in the shared buffer yet. -/
def startTask (cfg : Config) (context : BPSContext) (dtype : ℕ) (shared : List α)
    (size outputSize : ℕ) : Option (BPSContext × List (Request α) × List Task) := do
  let (context, requests) ← initTensor cfg context dtype shared size
  let tasks ← enqueueTensor cfg context size outputSize
  some (context, requests, tasks)

/-! ## What the loops compute -/

open Chunks

variable {bound size : ℕ}

/-- The keys of `n` partitions. -/
def keysFrom (startKey : Key) (n : ℕ) : List Key :=
  (range n).map fun i => startKey + UInt64.ofNat i

@[simp] theorem length_keysFrom (startKey : Key) (n : ℕ) : (keysFrom startKey n).length = n := by
  simp [keysFrom]

theorem keysFrom_succ (startKey : Key) (n : ℕ) :
    keysFrom startKey (n + 1) = keysFrom startKey n ++ [startKey + UInt64.ofNat n] := by
  simp [keysFrom, range_succ]

theorem partitionLen_offset (hb : 0 < bound) {k : ℕ} (hk : k < count bound size) :
    partitionLen bound size (offset bound size k) = len bound size k :=
  len_eq_ite hb hk

theorem buildKeys_eq (hb : 0 < bound) (startKey : Key) (keyList : List Key) :
    buildKeys bound size startKey keyList =
      some (keyList ++ keysFrom startKey (count bound size)) := by
  -- the variables after `k` rounds
  let f : ℕ → KeyLoop := fun k =>
    ⟨offset bound size k, startKey + UInt64.ofNat k, keyList ++ keysFrom startKey k⟩
  have hstart : f 0 = ⟨0, startKey, keyList⟩ := by simp [f, keysFrom]
  unfold buildKeys
  rw [Loop.run_eq_of_sequence f hstart (count_le hb)]
  · rfl
  · intro k hk
    exact decide_eq_true ((offset_lt_iff hb).mpr hk)
  · intro k hk
    simp only [f, partitionLen_offset hb hk, offset_add_len, keysFrom_succ, append_assoc,
      UInt64.ofNat_add, UInt64.add_assoc]
    rfl
  · simp [f, offset_count hb]

theorem buildKeys_zero (hs : 0 < size) (startKey : Key) (keyList : List Key) :
    buildKeys 0 size startKey keyList = none := by
  unfold buildKeys
  rw [Loop.run_eq_none fun s => s.accumulated = 0]
  · rfl
  · intro s h
    simp [h, hs]
  · intro s t h ht
    cases ht
    simp [h, partitionLen]
  · rfl

def partitionsOf (bound size n : ℕ) : List Partition :=
  (range n).map fun i => ⟨offset bound size i % 2 ^ 32, len bound size i⟩

theorem partitionTensor_eq (hb : 0 < bound) :
    partitionTensor bound size = some (partitionsOf bound size (count bound size)) := by
  let f : ℕ → PartitionLoop := fun k => ⟨offset bound size k, partitionsOf bound size k⟩
  have hstart : f 0 = ⟨0, []⟩ := by simp [f, partitionsOf]
  unfold partitionTensor
  rw [Loop.run_eq_of_sequence f hstart (count_le hb)]
  · rfl
  · intro k hk
    exact decide_eq_true ((offset_lt_iff hb).mpr hk)
  · intro k hk
    simp only [f, partitionLen_offset hb hk, offset_add_len, partitionsOf, range_succ,
      map_append, map_singleton]
  · simp [f, offset_count hb]

/-- The tasks of the first `n` partitions. -/
def tasksOf (bound size : ℕ) (keyList : List Key) (n : ℕ) : List Task :=
  (keyList.take n).mapIdx fun i key => ⟨key, offset bound size i, len bound size i⟩

variable {keyList : List Key}

theorem tasksOf_succ {n : ℕ} {key : Key} (h : keyList[n]? = some key) :
    tasksOf bound size keyList (n + 1) =
      tasksOf bound size keyList n ++ [⟨key, offset bound size n, len bound size n⟩] := by
  obtain ⟨hn, rfl⟩ := List.getElem?_eq_some_iff.mp h
  unfold tasksOf
  rw [take_succ_eq_append_getElem hn, mapIdx_append, length_take_of_le hn.le,
    mapIdx_singleton, zero_add]

theorem initPushes_eq (hb : 0 < bound) {tasks : List Task}
    (hlen : keyList.length = count bound size) (h : initPushes bound size keyList = some tasks) :
    tasks = tasksOf bound size keyList (count bound size) := by
  obtain ⟨s, hrun, h⟩ := Option.bind_eq_some_iff.mp h
  split_ifs at h with hend
  cases h
  have hinv := Loop.run_invariant
    (fun s : InitLoop => s.accumulated = offset bound size s.i ∧
      s.tasks = tasksOf bound size keyList s.i) ?_ ⟨by simp, by simp [tasksOf]⟩ hrun
  · rw [hinv.1.2, hend.2, hlen]
  · rintro s t ⟨hacc, htasks⟩ hc hbody
    have hi : s.i < count bound size := by
      rw [decide_eq_true_eq, hacc, offset_lt_iff hb] at hc
      exact hc
    obtain ⟨key, hkey, hbody⟩ := Option.bind_eq_some_iff.mp hbody
    rw [hacc, partitionLen_offset hb hi] at hbody
    dsimp only at hbody
    split_ifs at hbody
    cases hbody
    exact ⟨offset_add_len, by rw [tasksOf_succ hkey, htasks]⟩

theorem exists_initPushes (hb : 0 < bound) (hlen : keyList.length = count bound size)
    (hsmall : size < 2 ^ 31) : ∃ tasks, initPushes bound size keyList = some tasks := by
  let f : ℕ → InitLoop := fun k => ⟨offset bound size k, k, tasksOf bound size keyList k⟩
  have hstart : f 0 = ⟨0, 0, []⟩ := by simp [f, tasksOf]
  unfold initPushes
  rw [Loop.run_eq_of_sequence f hstart (count_le hb)]
  · exact ⟨_, if_pos ⟨offset_count hb, hlen.symm⟩⟩
  · intro k hk
    exact decide_eq_true ((offset_lt_iff hb).mpr hk)
  · intro k hk
    have hkey : keyList[k]? = some (keyList[k]) := getElem?_eq_getElem (hlen ▸ hk)
    have hfit : len bound size k < 2 ^ 31 :=
      ((min_le_right _ _).trans (Nat.sub_le _ _)).trans_lt hsmall
    simp only [f, partitionLen_offset hb hk, hkey, bind_eq_bind, bind_some,
      if_pos hfit, offset_add_len, tasksOf_succ hkey]
  · simp [f, offset_count hb]

/-! ## `InitTensor` and `EnqueueTensor` -/

variable {cfg : Config} {context context' : BPSContext} {dtype : ℕ} {data : List α}
  {requests : List (Request α)}

def tensorKeys (cfg : Config) (context : BPSContext) (size : ℕ) : List Key :=
  keysFrom (context.declaredKey <<< 16) (count cfg.partitionBound size)

/-- What `InitTensor` needs in order to return, and what it returns. -/
theorem initTensor_spec (hi : context.initialized = false) (hk : context.keyList = [])
    (h : initTensor cfg context dtype data size = some (context', requests)) :
    0 < cfg.partitionBound ∧ 0 < size ∧ count cfg.partitionBound size < 2 ^ 64 ∧
      context' = { context with
        buffLen := size
        keyList := tensorKeys cfg context size
        kwargs := if size < cfg.minCompressBound then none else context.kwargs
        initialized := true } ∧
      requests = initRequests cfg context dtype data
        (if size < cfg.minCompressBound then none else context.kwargs)
        (tensorKeys cfg context size)
        (tasksOf cfg.partitionBound size (tensorKeys cfg context size)
          (count cfg.partitionBound size)) := by
  unfold initTensor at h
  rw [if_neg (by simp [hi])] at h
  split at h
  swap
  · cases h
  rename_i hs
  obtain ⟨keyList, hkeys, h⟩ := Option.bind_eq_some_iff.mp h
  have hb : 0 < cfg.partitionBound := by
    refine pos_of_ne_zero fun h0 => ?_
    rw [h0, buildKeys_zero hs] at hkeys
    cases hkeys
  rw [buildKeys_eq hb, hk, nil_append, Option.some.injEq] at hkeys
  subst hkeys
  split at h
  swap
  · cases h
  rename_i hcheck
  obtain ⟨tasks, htasks, h⟩ := Option.bind_eq_some_iff.mp h
  cases h
  have hlt : count cfg.partitionBound size < 2 ^ 64 := by
    have hdiv := hcheck.2
    rw [length_keysFrom] at hdiv
    rw [hdiv]
    exact (Nat.div_le_self _ _).trans_lt (Nat.mod_lt _ (by decide))
  refine ⟨hb, hs, hlt, rfl, ?_⟩
  rw [initPushes_eq hb (length_keysFrom _ _) htasks]
  rfl

theorem exists_initTensor (hb : 0 < cfg.partitionBound) (hs : 0 < size) (hsmall : size < 2 ^ 31)
    (hbound : cfg.partitionBound < 2 ^ 32) (hi : context.initialized = false)
    (hk : context.keyList = []) :
    ∃ context' requests, initTensor cfg context dtype data size = some (context', requests) := by
  obtain ⟨keys, hkeys, hlen⟩ : ∃ keys, buildKeys cfg.partitionBound size
      (context.declaredKey <<< 16) context.keyList = some keys ∧
      keys.length = count cfg.partitionBound size :=
    ⟨_, buildKeys_eq hb _ _, by rw [hk, nil_append, length_keysFrom]⟩
  obtain ⟨tasks, htasks⟩ := exists_initPushes hb hlen hsmall
  have hcheck : 0 < keys.length ∧
      keys.length = (size + cfg.partitionBound - 1) % 2 ^ 64 / cfg.partitionBound := by
    rw [hlen, Nat.mod_eq_of_lt (by omega)]
    exact ⟨count_pos hb hs, rfl⟩
  unfold initTensor
  rw [if_neg (by simp [hi]), if_pos hs]
  simp only [hkeys, bind_eq_bind, bind_some, if_pos hcheck, htasks]
  exact ⟨_, _, rfl⟩

theorem sum_len_zipTasks (hb : 0 < bound) (hlen : keyList.length = count bound size) :
    ((zipTasks keyList (partitionsOf bound size (count bound size))).map (·.len)).sum = size := by
  have hmap : (zipTasks keyList (partitionsOf bound size (count bound size))).map (·.len) =
      (range (count bound size)).map (len bound size) := by
    refine ext_getElem (by simp [zipTasks, partitionsOf, hlen]) fun i h1 h2 => ?_
    simp [zipTasks, partitionsOf]
  rw [hmap, sum_len, offset_count hb]

theorem enqueueTensor_eq (hb : 0 < cfg.partitionBound) : enqueueTensor cfg context size size =
      if context.keyList.length = count cfg.partitionBound size then
        some (zipTasks context.keyList
          (partitionsOf cfg.partitionBound size (count cfg.partitionBound size)))
      else none := by
  unfold enqueueTensor
  rw [if_pos rfl, partitionTensor_eq hb]
  have hlen : (partitionsOf cfg.partitionBound size (count cfg.partitionBound size)).length =
      count cfg.partitionBound size := by simp [partitionsOf]
  show (if _ = _ then _ else none) = _
  rw [hlen]
  by_cases h : context.keyList.length = count cfg.partitionBound size
  · rw [if_pos h, if_pos h]
    exact if_pos (sum_len_zipTasks hb h)
  · rw [if_neg h, if_neg h]

end MegatronDPU.Worker
