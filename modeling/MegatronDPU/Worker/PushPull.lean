import MegatronDPU.Server.Lengths
import MegatronDPU.Worker.Context

/-!
# Tensors whose size changes

A group of workers calls `push_pull` again and again under one tensor name; a call whose tensor has
another size than the first should be rejected. The worker compares the number of partitions only,
and the server compares nothing (`call_rejected_or_fits_iff`, `shorter_call_accepted`).

A `NamedTensor` is one name with its calls. For each of its keys it gives the requests of a
`Server.KeyGroup`.
-/

namespace MegatronDPU.Worker

open Lts Chunks List
open Server (Key KVMeta DataHandleType KeyGroup Stage Job CompressorClass Outcome
  encodeKey handleKey jobs)

variable {α : Type}

/-! ## One name -/

/-- A tensor name and what a group of workers does with it. -/
structure NamedTensor (α : Type) where
  cfg : Config
  tensorName : String
  declaredKey : Key
  workers : Finset ℕ
  workers_nonempty : workers.Nonempty
  dtype : ℕ
  kwargs : Option (List Char)
  /-- The size of the first call. -/
  size : ℕ
  /-- The bytes of the tensor that a worker hands to one of its calls. -/
  calls : ℕ → ℕ → List α
  first : ∀ w ∈ workers, (calls w 0).length = size
  /-- `context.cpubuff` of a worker when its first call opens it, before anything is copied there. -/
  cpubuff : ℕ → List α
  cpubuff_length : ∀ w ∈ workers, size ≤ (cpubuff w).length

namespace NamedTensor

variable (t : NamedTensor α)

/-- The context of the name after it was declared for the group. -/
def context : BPSContext where
  tensorName := t.tensorName
  declaredKey := t.declaredKey
  expectedWorkers := t.workers.card
  kwargs := t.kwargs

/-- `InitTensor` in the first call of a worker. -/
def init (w : ℕ) : Option (BPSContext × List (Request α)) :=
  initTensor t.cfg t.context t.dtype (t.cpubuff w) t.size

/-- `EnqueueTensor` in a call of a worker, with the context that its first call has left. -/
def enqueue (c : BPSContext) (w r : ℕ) : Option (List Task) :=
  enqueueTensor t.cfg c (t.calls w r).length (t.calls w r).length

/-- The partition of a key. -/
def index (key : Key) : ℕ := (key - t.declaredKey <<< 16).toNat

/-- What the server sees of the name under one of its keys. -/
def group (key : Key) : KeyGroup α where
  workers := t.workers
  workers_nonempty := t.workers_nonempty
  dtype := t.dtype
  kwargs := if t.size < t.cfg.minCompressBound then none else t.kwargs
  initPayload w := slice (t.cpubuff w) (offset t.cfg.partitionBound t.size (t.index key))
    (len t.cfg.partitionBound t.size (t.index key))
  payload w r :=
    slice (t.calls w r) (offset t.cfg.partitionBound (t.calls w r).length (t.index key) % 2 ^ 32)
      (len t.cfg.partitionBound (t.calls w r).length (t.index key))

end NamedTensor

/-- The key, value and length of a request at the server. -/
def Request.data (cfg : Server.Config) (q : Request α) : Server.KVPairs α :=
  ⟨[encodeKey cfg q.key], q.vals, [q.len]⟩

/-! ## Keys and partitions of a name -/

variable {i : ℕ} {key : Key}

section Keys

variable {t : NamedTensor α} {w r : ℕ} {c : BPSContext} {requests : List (Request α)}

/-- The number of partitions. -/
def NamedTensor.parts (t : NamedTensor α) : ℕ := count t.cfg.partitionBound t.size

/-- What `InitTensor` has declared and sent when it returns. -/
theorem init_spec (h : t.init w = some (c, requests)) :
    0 < t.cfg.partitionBound ∧ t.parts < 2 ^ 64 ∧
      c.keyList = keysFrom (t.declaredKey <<< 16) t.parts ∧
      requests = initRequests t.cfg t.context t.dtype (t.cpubuff w)
        (if t.size < t.cfg.minCompressBound then none else t.kwargs)
        (keysFrom (t.declaredKey <<< 16) t.parts)
        (tasksOf t.cfg.partitionBound t.size (keysFrom (t.declaredKey <<< 16) t.parts)
          t.parts) := by
  obtain ⟨hb, -, hlt, rfl, hreq⟩ := initTensor_spec rfl rfl h
  exact ⟨hb, hlt, rfl, hreq⟩

theorem index_key (hi : i < 2 ^ 64) : t.index (t.declaredKey <<< 16 + UInt64.ofNat i) = i := by
  unfold NamedTensor.index
  rw [UInt64.add_comm, UInt64.add_sub_cancel, UInt64.toNat_ofNat_of_lt' hi]

theorem length_slice {data : List α} {off n : ℕ} (h : off + n ≤ data.length) :
    (slice data off n).length = n := by
  unfold slice
  rw [length_take, length_drop]
  omega

theorem offset_add_len_le {bound size k : ℕ} : offset bound size k + len bound size k ≤ size :=
  offset_add_len.trans_le offset_le

theorem length_initPayload (hw : w ∈ t.workers) :
    ((t.group key).initPayload w).length = len t.cfg.partitionBound t.size (t.index key) := by
  apply length_slice
  exact offset_add_len_le.trans (t.cpubuff_length w hw)

/-- What a call enqueues: nothing if it has another number of partitions than the name. -/
theorem enqueue_eq (h : t.init w = some (c, requests)) : t.enqueue c w r =
      if count t.cfg.partitionBound (t.calls w r).length = t.parts then
        some (zipTasks c.keyList (partitionsOf t.cfg.partitionBound (t.calls w r).length t.parts))
      else none := by
  obtain ⟨hb, -, hkeys, -⟩ := init_spec h
  unfold NamedTensor.enqueue
  rw [enqueueTensor_eq hb, hkeys, length_keysFrom]
  by_cases hc : count t.cfg.partitionBound (t.calls w r).length = t.parts
  · rw [if_pos hc.symm, if_pos hc, hc]
  · rw [if_neg (Ne.symm hc), if_neg hc]

theorem mem_enqueue {tasks : List Task} (h : t.init w = some (c, requests))
    (ht : t.enqueue c w r = some tasks) (task : Task) :
    task ∈ tasks ↔ ∃ i < t.parts, task =
      ⟨t.declaredKey <<< 16 + UInt64.ofNat i,
        offset t.cfg.partitionBound (t.calls w r).length i % 2 ^ 32,
        len t.cfg.partitionBound (t.calls w r).length i⟩ := by
  obtain ⟨-, -, hkeys, -⟩ := init_spec h
  rw [enqueue_eq h] at ht
  split_ifs at ht
  cases ht
  have hzip : zipTasks c.keyList
      (partitionsOf t.cfg.partitionBound (t.calls w r).length t.parts) =
      (range t.parts).map fun i => ⟨t.declaredKey <<< 16 + UInt64.ofNat i,
        offset t.cfg.partitionBound (t.calls w r).length i % 2 ^ 32,
        len t.cfg.partitionBound (t.calls w r).length i⟩ := by
    rw [hkeys]
    unfold zipTasks keysFrom partitionsOf
    rw [zipWith_map, zipWith_self]
  rw [hzip, mem_map]
  constructor
  · rintro ⟨i, hi, rfl⟩
    exact ⟨i, mem_range.mp hi, rfl⟩
  · rintro ⟨i, hi, rfl⟩
    exact ⟨i, mem_range.mpr hi, rfl⟩

/-! ## The requests of one key -/

theorem filter_key {β : Type} {startKey : Key} {n : ℕ} (hn : n ≤ 2 ^ 64) (hi : i < n) (f : ℕ → β)
    (key : β → Key) (hf : ∀ j, key (f j) = startKey + UInt64.ofNat j) :
    ((range n).map f).filter (key · = startKey + UInt64.ofNat i) = [f i] := by
  have hinj : ∀ j ∈ range n, decide (key (f j) = startKey + UInt64.ofNat i) = (j == i) := by
    intro j hj
    rw [mem_range] at hj
    rw [hf, Bool.eq_iff_iff, decide_eq_true_iff, beq_iff_eq, UInt64.add_right_inj]
    constructor
    · intro h
      have hj' : j < UInt64.size := hj.trans_le hn
      have hi' : i < UInt64.size := hi.trans_le hn
      have hnat := congrArg UInt64.toNat h
      rwa [UInt64.toNat_ofNat_of_lt' hj', UInt64.toNat_ofNat_of_lt' hi'] at hnat
    · rintro rfl
      rfl
  rw [filter_map, Function.comp_def, filter_congr hinj, filter_beq,
    count_eq_one_of_mem nodup_range (mem_range.mpr hi)]
  rfl

theorem tasksOf_keysFrom {bound size : ℕ} (startKey : Key) (n : ℕ) :
    tasksOf bound size (keysFrom startKey n) n = (range n).map fun i =>
      ⟨startKey + UInt64.ofNat i, offset bound size i, len bound size i⟩ := by
  unfold tasksOf
  rw [take_of_length_le (by simp)]
  refine ext_getElem (by simp) fun i h1 h2 => ?_
  simp [keysFrom]

/-- The stages before the first push of data. -/
def setupStages (g : KeyGroup α) : List Stage :=
  [.register, .init] ++ if g.kwargs.isSome then [.kwargs] else []

/-- `InitTensor` sends for each key the requests of the setup stages of its group, in their
order; the init push has the part of the shared buffer that the partition will use. -/
theorem requests_of_key (scfg : Server.Config) (hp : t.cfg.pushes = true) (hw : w ∈ t.workers)
    (h : t.init w = some (c, requests)) (hi : i < t.parts)
    (hkey : key = t.declaredKey <<< 16 + UInt64.ofNat i) :
    (requests.filter (·.key = key)).map (fun q => (q.type, q.data scfg)) =
      (setupStages (t.group key)).map fun stage =>
        (stage.type (t.group key), stage.data scfg (t.group key) key w) := by
  obtain ⟨-, hlt, -, rfl⟩ := init_spec h
  have hcard : (0 : ℤ) < t.workers.card := by
    exact_mod_cast Finset.card_pos.mpr t.workers_nonempty
  have hidx : t.index key = i := by rw [hkey, index_key (by omega)]
  have hlen : ((t.group key).initPayload w).length = len t.cfg.partitionBound t.size i := by
    rw [length_initPayload hw, hidx]
  -- of each kind of request one is for the key
  have hmap : ∀ f : Key → Request α, (∀ k, (f k).key = k) →
      ((keysFrom (t.declaredKey <<< 16) t.parts).map f).filter (·.key = key) = [f key] := by
    intro f hf
    rw [keysFrom, map_map, hkey]
    exact filter_key hlt.le hi _ Request.key fun j => hf _
  have hpush : ((tasksOf t.cfg.partitionBound t.size (keysFrom (t.declaredKey <<< 16) t.parts)
      t.parts).map (pushRequest t.dtype (t.cpubuff w))).filter (·.key = key) =
      [pushRequest t.dtype (t.cpubuff w) ⟨key, offset t.cfg.partitionBound t.size i,
        len t.cfg.partitionBound t.size i⟩] := by
    rw [tasksOf_keysFrom, map_map, hkey]
    exact filter_key hlt.le hi _ Request.key fun j => rfl
  have hinit : (pushRequest t.dtype (t.cpubuff w) ⟨key, offset t.cfg.partitionBound t.size i,
      len t.cfg.partitionBound t.size i⟩).data scfg = Stage.init.data scfg (t.group key) key w := by
    show Server.KVPairs.mk _ _ [len t.cfg.partitionBound t.size i] = Server.KVPairs.mk _ _ [_]
    rw [hlen]
    simp only [pushRequest, NamedTensor.group, hidx]
  unfold initRequests
  rw [if_pos hp, filter_append, filter_append, hmap _ fun _ => rfl, hpush]
  have hexp : (if 0 < t.context.expectedWorkers then t.context.expectedWorkers
      else (t.cfg.numWorker : ℤ)) = t.workers.card := if_pos hcard
  rw [hexp, setupStages]
  cases hk : (if t.size < t.cfg.minCompressBound then none else t.kwargs) with
  | none =>
    have hg : (t.group key).kwargs = none := hk
    simp only [hg, filter_nil, append_nil, map_append, map_singleton, hinit]
    rfl
  | some content =>
    have hg : (t.group key).kwargs = some content := hk
    rw [hmap _ fun _ => rfl]
    simp only [hg, map_append, map_singleton, hinit, Option.isSome_some, if_true]
    have hkw : (kwargsRequest t.dtype content key : Request α).data scfg =
        Stage.kwargs.data scfg (t.group key) key w := by
      simp only [Stage.data, hg, Option.getD_some]
      rfl
    rw [hkw]
    rfl

theorem pushRequest_of_task (scfg : Server.Config) (h : t.init w = some (c, requests))
    (hi : i < t.parts) (hkey : key = t.declaredKey <<< 16 + UInt64.ofNat i) :
    (pushRequest t.dtype (t.calls w r) ⟨key,
        offset t.cfg.partitionBound (t.calls w r).length i % 2 ^ 32,
        len t.cfg.partitionBound (t.calls w r).length i⟩).data scfg =
      (Stage.push r).data scfg (t.group key) key w := by
  obtain ⟨-, hlt, -⟩ := init_spec h
  have hidx : t.index key = i := by rw [hkey, index_key (hi.trans hlt)]
  have hlen : ((t.group key).payload w r).length =
      len t.cfg.partitionBound (t.calls w r).length i := by
    show (slice _ _ _).length = _
    rw [hidx]
    apply length_slice
    have hoff := Nat.mod_le (offset t.cfg.partitionBound (t.calls w r).length i) (2 ^ 32)
    exact (Nat.add_le_add_right hoff _).trans offset_add_len_le
  show Server.KVPairs.mk _ _ [len _ _ _] = Server.KVPairs.mk _ _ [_]
  rw [hlen]
  simp only [pushRequest, NamedTensor.group, hidx]

end Keys

/-! ## Calls of another size -/

section Calls

variable {C : CompressorClass α} [Add α] [Zero α]

/-- What the handler does with the push of a partition. -/
def NamedTensor.handle (t : NamedTensor α) (scfg : Server.Config) (s : Job α C) (w r : ℕ)
    (task : Task) : Option (Outcome α C) :=
  let q := pushRequest t.dtype (t.calls w r) task
  handleKey scfg q.key q.type (s.server.keyStates q.key)
    ((Stage.push r).reqMeta (t.group q.key) w) (q.data scfg)

/-- The call fails a check: in `EnqueueTensor`, or in the handler for one of its partitions. -/
def NamedTensor.Rejected (t : NamedTensor α) (scfg : Server.Config) (s : Job α C)
    (c : BPSContext) (w r : ℕ) : Prop :=
  t.enqueue c w r = none ∨
    ∃ tasks task, t.enqueue c w r = some tasks ∧ task ∈ tasks ∧ t.handle scfg s w r task = none

/-- Each partition of the call has the length of the store of its key. -/
def NamedTensor.Fits (t : NamedTensor α) (s : Job α C) (c : BPSContext) (w r : ℕ) : Prop :=
  ∃ tasks, t.enqueue c w r = some tasks ∧ ∀ task ∈ tasks,
    (s.server.keyStates task.key).store.map (·.tensor.length) = some task.len

variable {t : NamedTensor α} {w r : ℕ} {c : BPSContext} {requests : List (Request α)}
  {scfg : Server.Config} {s : Job α C}

theorem store_length_of_init (hcfg : scfg.SyncEngine) (h : Reach (jobs scfg C t.group) Free s)
    (hctx : t.init w = some (c, requests)) (hi : i < t.parts)
    (hkey : key = t.declaredKey <<< 16 + UInt64.ofNat i)
    (hst : (s.server.keyStates key).store.isSome) :
    (s.server.keyStates key).store.map (·.tensor.length) =
      some (len t.cfg.partitionBound t.size i) := by
  obtain ⟨-, hlt, -⟩ := init_spec hctx
  obtain ⟨stored, hst⟩ := Option.isSome_iff_exists.mp hst
  obtain ⟨v, hv, hlen⟩ := Server.store_length_of_reach hcfg h hst
  rw [hst, Option.map_some, hlen, length_initPayload hv, hkey, index_key (hi.trans hlt)]

theorem handle_isSome (hcfg : scfg.SyncEngine) (hctx : t.init w = some (c, requests))
    {tasks : List Task} {task : Task} (ht : t.enqueue c w r = some tasks) (hmem : task ∈ tasks)
    (hst : (s.server.keyStates task.key).store.isSome) : (t.handle scfg s w r task).isSome := by
  obtain ⟨i, hi, rfl⟩ := (mem_enqueue hctx ht task).mp hmem
  unfold NamedTensor.handle
  dsimp only
  rw [pushRequest_of_task scfg hctx hi rfl]
  exact Server.handleKey_push_isSome hcfg rfl rfl rfl rfl hst

/-- In synchronous mode with engine threads and plain queues, in every interleaving: a call is
rejected or has the stored lengths iff its size is the size of the first call or its number of
partitions is another one. -/
theorem call_rejected_or_fits_iff (hcfg : scfg.SyncEngine)
    (h : Reach (jobs scfg C t.group) Free s) (hctx : t.init w = some (c, requests))
    (hst : ∀ key ∈ c.keyList, (s.server.keyStates key).store.isSome) (r : ℕ) :
    (t.Rejected scfg s c w r ∨ t.Fits s c w r) ↔
      (t.calls w r).length = t.size ∨
        count t.cfg.partitionBound (t.calls w r).length ≠ t.parts := by
  obtain ⟨hb, -, hkeys, -⟩ := init_spec hctx
  by_cases hc : count t.cfg.partitionBound (t.calls w r).length = t.parts
  swap
  · have hnone : t.enqueue c w r = none := by rw [enqueue_eq hctx, if_neg hc]
    exact ⟨fun _ => .inr hc, fun _ => .inl (.inl hnone)⟩
  obtain ⟨tasks, ht⟩ : ∃ tasks, t.enqueue c w r = some tasks := ⟨_, by
    rw [enqueue_eq hctx, if_pos hc]⟩
  have hstore : ∀ i < t.parts,
      (s.server.keyStates (t.declaredKey <<< 16 + UInt64.ofNat i)).store.isSome := by
    intro i hi
    apply hst
    rw [hkeys]
    exact mem_map_of_mem (mem_range.mpr hi)
  have hnot : ¬t.Rejected scfg s c w r := by
    rintro (hnone | ⟨tasks', task, ht', hmem, hnone⟩)
    · rw [ht] at hnone
      cases hnone
    · obtain ⟨i, hi, rfl⟩ := (mem_enqueue hctx ht' task).mp hmem
      have hsome := handle_isSome hcfg hctx ht' hmem (hstore i hi)
      rw [hnone] at hsome
      cases hsome
  constructor
  · rintro (hrej | ⟨tasks', ht', hfit⟩)
    · exact absurd hrej hnot
    · -- equal partitions make equal sizes
      refine .inl (eq_of_len_eq hb hc fun i hi => ?_)
      rw [hc] at hi
      have hlen := hfit _ ((mem_enqueue hctx ht' _).mpr ⟨i, hi, rfl⟩)
      rw [store_length_of_init hcfg h hctx hi rfl (hstore i hi), Option.some.injEq] at hlen
      exact hlen.symm
  · rintro (hsize | hne)
    · refine .inr ⟨tasks, ht, fun task hmem => ?_⟩
      obtain ⟨i, hi, rfl⟩ := (mem_enqueue hctx ht task).mp hmem
      rw [store_length_of_init hcfg h hctx hi rfl (hstore i hi), hsize]
    · exact absurd hc hne

end Calls

/-- One worker pushes four bytes in two partitions, then three bytes, then four again. -/
def shrinking : NamedTensor ℤ where
  cfg := { partitionBound := 2 }
  tensorName := "byteps.grad"
  declaredKey := 3
  workers := {0}
  workers_nonempty := ⟨0, by simp⟩
  dtype := 0
  kwargs := none
  size := 4
  calls _ r := if r = 1 then [7, 8, 9] else [1, 2, 3, 4]
  first _ _ := rfl
  cpubuff _ := [0, 0, 0, 0]
  cpubuff_length _ _ := le_rfl

/-- The group of the second key is registered, and two bytes of the fresh buffer are pushed. -/
theorem requests_of_second_key : ∃ c requests, shrinking.init 0 = some (c, requests) ∧
    (requests.filter (·.key = 196609)).map (fun q => (q.type, q.data {})) =
      [Stage.register, .init].map fun stage => (stage.type (shrinking.group 196609),
        stage.data {} (shrinking.group 196609) 196609 0) :=
  ⟨_, _, rfl, requests_of_key {} rfl (by decide) rfl (i := 1) (by decide) (by decide)⟩

/-- The first call of `shrinking`, through to its pulls. -/
def firstCall : List Server.Action :=
  replicate 3 (.request 196608 0) ++ replicate 3 (.request 196609 0) ++
    replicate 6 (.engine 0) ++ replicate 6 (.engine 1) ++
    [.request 196608 0, .request 196609 0]

theorem call_rejected_or_fits_iff_shrinking : ∃ s : Job ℤ Server.noCompressor, ∃ c requests,
      Reach (jobs {} Server.noCompressor shrinking.group) Free s ∧
      shrinking.init 0 = some (c, requests) ∧
      (shrinking.Rejected {} s c 0 2 ∨ shrinking.Fits s c 0 2) := by
  obtain ⟨s, hs, hst⟩ := exists_reach
    (S := jobs {} Server.noCompressor shrinking.group) (G := Free)
    (P := fun s => [196608, 196609].all fun key => (s.server.keyStates key).store.isSome)
    (.init rfl) firstCall (by decide +kernel)
  obtain ⟨⟨c, requests⟩, hinit⟩ := Option.isSome_iff_exists.mp
    (show (shrinking.init 0).isSome by decide +kernel)
  have hkeys : c.keyList = [196608, 196609] := (init_spec hinit).2.2.1
  exact ⟨s, c, requests, hs, hinit,
    (call_rejected_or_fits_iff ⟨rfl, rfl, rfl⟩ hs hinit (hkeys ▸ all_eq_true.mp hst) 2).mpr (.inl rfl)⟩

/-- What the first call leaves. -/
def shrinkingContext : BPSContext :=
  { shrinking.context with
    initialized := true
    buffLen := 4
    keyList := [196608, 196609] }

/-- The second call has three bytes in two partitions: `EnqueueTensor` accepts it, the server
accepts its second partition of one byte, and the store of that key has two. -/
theorem shorter_call_accepted :
    ∃ s : Job ℤ Server.noCompressor, Reach (jobs {} Server.noCompressor shrinking.group) Free s ∧
      s.clients 196609 0 = ⟨.push 1, false⟩ ∧
      (shrinking.init 0).map (·.1) = some shrinkingContext ∧
      ¬(shrinking.Rejected {} s shrinkingContext 0 1 ∨ shrinking.Fits s shrinkingContext 0 1) := by
  obtain ⟨s, hs, hc, h1, h2, hst⟩ := exists_reach
    (S := jobs {} Server.noCompressor shrinking.group) (G := Free)
    (P := fun s => s.clients 196609 0 = ⟨.push 1, false⟩ ∧
      (shrinking.handle {} s 0 1 ⟨196608, 0, 2⟩).isSome ∧
      (shrinking.handle {} s 0 1 ⟨196609, 2, 1⟩).isSome ∧
      (s.server.keyStates 196609).store.map (·.tensor.length) = some 2)
    (.init rfl) firstCall (by decide +kernel)
  have htasks : shrinking.enqueue shrinkingContext 0 1 =
      some [⟨196608, 0, 2⟩, ⟨196609, 2, 1⟩] := by decide +kernel
  refine ⟨s, hs, hc, by decide +kernel, ?_⟩
  rintro ((hnone | ⟨tasks, task, ht, hmem, hnone⟩) | ⟨tasks, ht, hfit⟩)
  · rw [htasks] at hnone
    cases hnone
  · cases htasks.symm.trans ht
    rcases mem_pair.mp hmem with rfl | rfl
    · rw [hnone] at h1
      cases h1
    · rw [hnone] at h2
      cases h2
  · cases htasks.symm.trans ht
    have hlen := hfit ⟨196609, 2, 1⟩ (by simp)
    rw [hst] at hlen
    cases hlen

end MegatronDPU.Worker
