import MegatronDPU.Lib.Decimal
import MegatronDPU.Lib.Occurrence
import MegatronDPU.Torch.Broadcast

/-!
# The broadcasts of a uniform job

If the calls of a job are uniform, all that its processes and machines send is known in advance. The
broadcasts are numbered, and so are the ones of a name (`round`); a process that has gone through
some broadcasts is in a known state (`Process.Ok`).
-/

namespace MegatronDPU.Torch.Broadcasts

open Lts Chunks Occurrence Function List Option
open Server (Key KeyGroup CompressorClass Stage Event Client jobs bytepsInt32)
open Worker (BPSContext Global Task slice declaredKeyOf isTensorDeclared startTask initTensor
  enqueueTensor keysFrom partitionsOf zipTasks)

variable {b : Broadcasts}

/-! ## Broadcasts in their order -/

variable {j : ℕ} {o o' : Op} {task : Task}

section Ops

theorem getElem?_flatMap_pair {α β : Type} (f g : α → β) (l : List α) (k : ℕ) :
    (l.flatMap fun x => [f x, g x])[2 * k]? = l[k]?.map f ∧
      (l.flatMap fun x => [f x, g x])[2 * k + 1]? = l[k]?.map g := by
  induction l generalizing k with
  | nil => simp
  | cons x l ih =>
    cases k with
    | zero => simp
    | succ k =>
      obtain ⟨hf, hg⟩ := ih k
      rw [flatMap_cons, getElem?_append_right (Nat.le_add_left 2 (2 * k)),
        getElem?_append_right (Nat.le_add_left 2 (2 * k + 1)), getElem?_cons_succ,
        ← hf, ← hg]
      exact ⟨rfl, rfl⟩

theorem exists_find? {α : Type} {p : α → Prop} [DecidablePred p] {l : List α} {a : α} (ha : a ∈ l)
    (hp : p a) : ∃ x ∈ l, p x ∧ l.find? p = some x := by
  have hsome : (l.find? p).isSome := find?_isSome.mpr ⟨a, ha, decide_eq_true hp⟩
  obtain ⟨x, hfind⟩ := isSome_iff_exists.mp hsome
  exact ⟨x, mem_of_find?_eq_some hfind, by simpa using find?_some hfind, hfind⟩

theorem getElem?_ops_size (k : ℕ) : b.ops[2 * k]? = b.calls[k]?.map (·.sizeOp) :=
  (getElem?_flatMap_pair _ _ b.calls k).1

theorem getElem?_ops_data (k : ℕ) : b.ops[2 * k + 1]? = b.calls[k]?.map (·.dataOp) :=
  (getElem?_flatMap_pair _ _ b.calls k).2

theorem mem_ops : o ∈ b.ops ↔ ∃ c ∈ b.calls, o = c.sizeOp ∨ o = c.dataOp := by
  simp [ops]

theorem sizeOp_name_ne_dataOp (c c' : BroadcastObject) : c.sizeOp.name ≠ c'.dataOp.name := by
  intro h
  simp only [BroadcastObject.sizeOp, BroadcastObject.dataOp, opName, String.append_assoc,
    String.append_right_inj] at h
  have hhead := congrArg (fun s : String => s.toList.head?) h
  simp at hhead

theorem name_ne_succ (ho : b.ops[j]? = some o) (ho' : b.ops[j + 1]? = some o') :
    o.name ≠ o'.name := by
  obtain ⟨k, rfl | rfl⟩ : ∃ k, j = 2 * k ∨ j = 2 * k + 1 := ⟨j / 2, by omega⟩
  · rw [getElem?_ops_size, map_eq_some_iff] at ho
    rw [getElem?_ops_data, map_eq_some_iff] at ho'
    obtain ⟨c, -, rfl⟩ := ho
    obtain ⟨c', -, rfl⟩ := ho'
    exact sizeOp_name_ne_dataOp c c'
  · rw [getElem?_ops_data, map_eq_some_iff] at ho
    rw [show 2 * k + 1 + 1 = 2 * (k + 1) by ring, getElem?_ops_size, map_eq_some_iff] at ho'
    obtain ⟨c, -, rfl⟩ := ho
    obtain ⟨c', -, rfl⟩ := ho'
    exact (sizeOp_name_ne_dataOp c' c).symm

def round (b : Broadcasts) (name : String) (j : ℕ) : ℕ := before (·.name = name) b.ops j

theorem Uniform.alike (h : b.Uniform) (ho : o ∈ b.ops) (ho' : o' ∈ b.ops)
    (hname : o.name = o'.name) : o.dtype = o'.dtype ∧ o.data.length = o'.data.length := by
  obtain ⟨c, hc, rfl | rfl⟩ := mem_ops.mp ho
  · obtain ⟨c', hc', rfl | rfl⟩ := mem_ops.mp ho'
    · exact ⟨rfl, rfl⟩
    · exact absurd hname (sizeOp_name_ne_dataOp c c')
  · obtain ⟨c', hc', rfl | rfl⟩ := mem_ops.mp ho'
    · exact absurd hname.symm (sizeOp_name_ne_dataOp c' c)
    · refine ⟨rfl, h.sizes c hc c' hc' ?_⟩
      simp only [BroadcastObject.dataOp, opName, String.append_assoc, String.append_right_inj]
        at hname
      have hlist := congrArg String.toList hname
      rw [String.toList_append, String.toList_append, append_cancel_right_eq] at hlist
      exact String.toList_inj.mp hlist

theorem Uniform.length_pos (h : b.Uniform) (ho : o ∈ b.ops) :
    0 < o.data.length ∧ o.data.length < 2 ^ 31 := by
  obtain ⟨c, hc, rfl | rfl⟩ := mem_ops.mp ho
  · exact ⟨Nat.succ_pos 3, show 4 < 2 ^ 31 by decide⟩
  · exact ⟨length_pos_iff.mpr c.bytes_ne_nil, h.small c hc⟩

theorem rootRank_lt_size (ho : o ∈ b.ops) : o.rootRank < b.size := by
  obtain ⟨c, hc, rfl | rfl⟩ := mem_ops.mp ho
  · exact b.rootRank_lt c hc
  · exact b.rootRank_lt c hc

end Ops

/-! ## Keys and tasks -/

section Tasks

def tasks (b : Broadcasts) (o : Op) : List Task :=
  zipTasks (b.keys o) (partitionsOf b.partitionBound o.data.length
    (count b.partitionBound o.data.length))

def taskAt (b : Broadcasts) (o : Op) (i : ℕ) : Task :=
  ⟨declaredKeyOf b.hash o.name <<< 16 + UInt64.ofNat i,
    offset b.partitionBound o.data.length i % 2 ^ 32, len b.partitionBound o.data.length i⟩

theorem tasks_eq (o : Op) :
    b.tasks o = (range (count b.partitionBound o.data.length)).map (b.taskAt o) := by
  unfold tasks keys zipTasks keysFrom partitionsOf
  rw [zipWith_map, zipWith_self]
  rfl

theorem keys_eq (o : Op) : b.keys o = (b.tasks o).map (·.key) := by
  rw [tasks_eq, List.map_map]
  rfl

section

variable (h : b.Uniform) (ho : o ∈ b.ops)
include h ho

theorem Uniform.nodup_keys : (b.keys o).Nodup := by
  have hcount : count b.partitionBound o.data.length ≤ 2 ^ 31 :=
    (count_le b.partitionBound_pos).trans (h.length_pos ho).2.le
  refine List.Nodup.map_on (fun i hi j hj hij => ?_) nodup_range
  rw [mem_range] at hi hj
  rw [UInt64.add_right_inj] at hij
  have hsize : UInt64.size = 2 ^ 64 := rfl
  have hnat := congrArg UInt64.toNat hij
  rwa [UInt64.toNat_ofNat_of_lt' (by omega), UInt64.toNat_ofNat_of_lt' (by omega)] at hnat

theorem Uniform.find_task (ht : task ∈ b.tasks o) :
    (b.tasks o).find? (·.key = task.key) = some task := by
  obtain ⟨task', hmem, hkey, hfind⟩ := exists_find? (p := (·.key = task.key)) ht rfl
  rw [hfind]
  have hnd := h.nodup_keys ho
  rw [keys_eq] at hnd
  exact congrArg some (inj_on_of_nodup_map hnd hmem ht hkey)

theorem tasks_ne_nil : b.tasks o ≠ [] := by
  have hpos := count_pos b.partitionBound_pos (h.length_pos ho).1
  rw [tasks_eq, Ne, map_eq_nil_iff, range_eq_nil]
  exact hpos.ne'

section

variable {tensor : List ℕ} (hlen : tensor.length = o.data.length)
include hlen

theorem Uniform.slice_task {i : ℕ} : slice tensor (b.taskAt o i).offset (b.taskAt o i).len =
      (tensor.drop (offset b.partitionBound tensor.length i)).take
        (len b.partitionBound tensor.length i) := by
  have hlt := (h.length_pos ho).2
  have hle : offset b.partitionBound o.data.length i ≤ o.data.length := offset_le
  have hmod : (b.taskAt o i).offset = offset b.partitionBound o.data.length i :=
    Nat.mod_eq_of_lt (by omega)
  rw [slice, hmod, hlen]
  rfl

theorem Uniform.flatten_slices :
    ((b.tasks o).map fun task => slice tensor task.offset task.len).flatten = tensor := by
  conv_rhs => rw [← flatten_chunks b.partitionBound_pos tensor]
  rw [tasks_eq, List.map_map, hlen]
  congr 1
  refine map_congr_left fun i _ => ?_
  rw [comp_apply, h.slice_task ho hlen, hlen]

theorem Uniform.length_slice_task (ht : task ∈ b.tasks o) :
    (slice tensor task.offset task.len).length = task.len := by
  rw [tasks_eq] at ht
  obtain ⟨i, -, rfl⟩ := List.mem_map.mp ht
  rw [h.slice_task ho hlen, hlen]
  apply Worker.length_slice
  rw [hlen]
  exact Worker.offset_add_len_le

end

end

theorem task_len_pos (ht : task ∈ b.tasks o) : 0 < task.len := by
  rw [tasks_eq] at ht
  obtain ⟨i, hi, rfl⟩ := List.mem_map.mp ht
  exact len_pos b.partitionBound_pos (mem_range.mp hi)

theorem Uniform.tasks_congr (h : b.Uniform) (ho : o ∈ b.ops) (ho' : o' ∈ b.ops)
    (hname : o.name = o'.name) : b.tasks o = b.tasks o' := by
  unfold tasks keys
  rw [hname, (h.alike ho ho' hname).2]

end Tasks

/-! ## What is pushed -/

section Groups

def tensor (o : Op) (rank : ℕ) : List ℕ :=
  if rank ≠ o.rootRank then replicate o.data.length 0 else o.data

@[simp] theorem length_tensor (o : Op) (rank : ℕ) : (tensor o rank).length = o.data.length := by
  unfold tensor
  split_ifs
  · exact length_replicate
  · rfl

def transfer (b : Broadcasts) (o : Op) (round rank : ℕ) : Transfer :=
  ⟨o.dtype, tensor o rank, b.tasks o, round⟩

def parts (b : Broadcasts) (o : Op) (round node : ℕ) (task : Task) : List (Transfer × Task) :=
  (b.ranksOf node).map fun rank => (b.transfer o round rank, task)

theorem ranksOf_ne_nil (node : ℕ) : b.ranksOf node ≠ [] := by
  simp [ranksOf, b.localSize_pos.ne']

theorem head?_parts (o : Op) (round node : ℕ) (task : Task) :
    ∃ rank, (b.parts o round node task).head? = some (b.transfer o round rank, task) := by
  obtain ⟨rank, rest, hranks⟩ := exists_cons_of_ne_nil (b.ranksOf_ne_nil node)
  exact ⟨rank, by rw [parts, hranks]; rfl⟩

def opOf (b : Broadcasts) (key : Key) : Option Op := b.ops.find? fun o => key ∈ b.keys o

def lens (b : Broadcasts) (key : Key) : ℕ :=
  (((b.opOf key).bind fun o => (b.tasks o).find? (·.key = key)).map (·.len)).getD 0

def payload (b : Broadcasts) (key : Key) (node r : ℕ) : List ℕ :=
  match b.opOf key with
  | none => []
  | some o =>
    match (b.ops.filter (·.name = o.name))[r]?, (b.tasks o).find? (·.key = key) with
    | some o', some task => localSum (b.parts o' r node task)
    | _, _ => replicate (b.lens key) 0

def expected (b : Broadcasts) (key : Key) : KeyGroup ℕ where
  workers := Finset.range b.numWorker
  workers_nonempty := b.workers_nonempty
  dtype := ((b.opOf key).map (·.dtype)).getD 0
  kwargs := none
  initPayload node := b.payload key node 0
  payload node r := b.payload key node r

theorem Uniform.exists_opOf (h : b.Uniform) (ho : o ∈ b.ops) {key : Key} (hkey : key ∈ b.keys o) :
    ∃ o₀ ∈ b.ops, b.opOf key = some o₀ ∧ o₀.name = o.name := by
  obtain ⟨o₀, hmem, hkey₀, hfind⟩ := exists_find? (p := fun o => key ∈ b.keys o) ho hkey
  exact ⟨o₀, hmem, hfind, h.apart o₀ hmem o ho key hkey₀ hkey⟩

theorem key_mem_keys (ht : task ∈ b.tasks o) : task.key ∈ b.keys o := by
  rw [keys_eq]
  exact mem_map_of_mem ht

theorem Uniform.lens_eq (h : b.Uniform) (ho : o ∈ b.ops) (ht : task ∈ b.tasks o) :
    b.lens task.key = task.len := by
  obtain ⟨o₀, hmem, hof, hname⟩ := h.exists_opOf ho (key_mem_keys ht)
  rw [lens, hof, bind_some, h.tasks_congr hmem ho hname, h.find_task ho ht]
  rfl

theorem Uniform.dtype_expected (h : b.Uniform) (ho : o ∈ b.ops) {key : Key}
    (hkey : key ∈ b.keys o) : (b.expected key).dtype = o.dtype := by
  obtain ⟨o₀, hmem, hof, hname⟩ := h.exists_opOf ho hkey
  show ((b.opOf key).map _).getD 0 = _
  rw [hof]
  exact (h.alike hmem ho hname).1

theorem Uniform.payload_eq (h : b.Uniform) (ho : b.ops[j]? = some o) (ht : task ∈ b.tasks o)
    (node : ℕ) :
    b.payload task.key node (b.round o.name j) =
      localSum (b.parts o (b.round o.name j) node task) := by
  have hmem := mem_of_getElem? ho
  obtain ⟨o₀, hmem₀, hof, hname⟩ := h.exists_opOf hmem (key_mem_keys ht)
  have huse : (b.ops.filter (·.name = o₀.name))[b.round o.name j]? = some o := by
    rw [hname]
    exact getElem?_filter_before ho (decide_eq_true rfl)
  unfold payload
  rw [hof]
  dsimp only
  rw [huse, h.tasks_congr hmem₀ hmem hname, h.find_task hmem ht]

theorem length_localSum {parts : List (Transfer × Task)} {p : Transfer × Task}
    (hp : parts.head? = some p) : (localSum parts).length = p.2.len := by
  rw [localSum, length_ofFn, hp]
  rfl

theorem length_payload (key : Key) (node r : ℕ) : (b.payload key node r).length = b.lens key := by
  unfold payload
  split
  · rename_i hnone
    rw [lens, hnone]
    rfl
  · rename_i o hof
    split
    · rename_i o' task _ hfind
      obtain ⟨rank, hhead⟩ := b.head?_parts o' r node task
      rw [length_localSum hhead, lens, hof, bind_some, hfind]
      rfl
    · exact length_replicate

theorem uncompressed_expected (key : Key) : (b.expected key).Uncompressed (b.lens key) where
  kwargs := rfl
  init node _ := length_payload key node 0
  payload node _ r := length_payload key node r

theorem sum_ranksOf (f : ℕ → ℕ) (n : ℕ) : ∑ node ∈ Finset.range n, ((b.ranksOf node).map f).sum =
      ∑ rank ∈ Finset.range (n * b.localSize), f rank := by
  induction n with
  | zero => simp
  | succ n ih =>
    rw [Finset.sum_range_succ, ih, Nat.succ_mul, Finset.sum_range_add, ranksOf, List.map_map]
    rfl

theorem getD_slice_zeros (n off k i : ℕ) : (slice (replicate n 0) off k).getD i 0 = 0 := by
  unfold slice
  rw [getD_eq_getElem?_getD, drop_replicate, take_replicate, getElem?_replicate]
  split_ifs <;> rfl

theorem Uniform.roundSum_eq (h : b.Uniform) (ho : b.ops[j]? = some o) (ht : task ∈ b.tasks o) :
    Server.roundSum (b.expected task.key) (b.lens task.key) (b.round o.name j) =
      slice o.data task.offset task.len := by
  have hmem := mem_of_getElem? ho
  have hlen := h.lens_eq hmem ht
  have hslice := h.length_slice_task hmem rfl ht
  have hlength : (Server.roundSum (b.expected task.key) (b.lens task.key)
      (b.round o.name j)).length = (slice o.data task.offset task.len).length := by
    rw [Server.roundSum, length_ofFn, hlen, hslice]
  refine ext_getElem hlength fun i h1 h2 => ?_
  have hi : i < task.len := hslice ▸ h2
  have hnode : ∀ node, (b.payload task.key node (b.round o.name j)).getD i 0 =
      ((b.ranksOf node).map fun rank =>
        (slice (tensor o rank) task.offset task.len).getD i 0).sum := by
    intro node
    obtain ⟨rank, hhead⟩ := b.head?_parts o (b.round o.name j) node task
    have hbound : i < (localSum (b.parts o (b.round o.name j) node task)).length := by
      rw [length_localSum hhead]
      exact hi
    rw [h.payload_eq ho ht, getD_eq_getElem?_getD, getElem?_eq_getElem hbound, getD_some]
    simp only [localSum, List.getElem_ofFn]
    rw [parts, List.map_map]
    rfl
  have hroot : ∀ rank ∈ Finset.range b.size, rank ≠ o.rootRank →
      (slice (tensor o rank) task.offset task.len).getD i 0 = 0 := by
    intro rank _ hne
    rw [tensor, if_pos hne]
    exact getD_slice_zeros _ _ _ _
  have hsum : ∑ node ∈ Finset.range b.numWorker,
      (b.payload task.key node (b.round o.name j)).getD i 0 =
      (slice o.data task.offset task.len).getD i 0 := by
    rw [Finset.sum_congr rfl fun node _ => hnode node, sum_ranksOf]
    refine (Finset.sum_eq_single o.rootRank hroot fun hnot => ?_).trans ?_
    · exact absurd (Finset.mem_range.mpr (rootRank_lt_size hmem)) hnot
    · rw [tensor, if_neg (not_not.mpr rfl)]
  simp only [Server.roundSum, List.getElem_ofFn]
  refine hsum.trans ?_
  rw [getD_eq_getElem?_getD, getElem?_eq_getElem h2, getD_some]

end Groups

/-! ## Processes -/

section Processes

def Phase.index : Phase → ℕ
  | idle => 0
  | size _ => 1
  | data _ => 2

theorem Phase.index_le (phase : Phase) : phase.index ≤ 2 := by
  cases phase <;> simp [Phase.index]

def Process.pc (p : Process) : ℕ := 3 * p.returned.length + p.phase.index

def Process.entered (p : Process) : ℕ := 2 * p.returned.length + p.phase.index

def Process.finished (p : Process) : ℕ := 2 * p.returned.length + (p.phase.index - 1)

theorem Process.entered_eq (p : Process) : p.entered = 2 * (p.pc / 3) + p.pc % 3 := by
  have hle := p.phase.index_le
  unfold Process.entered Process.pc
  omega

theorem Process.finished_eq (p : Process) : p.finished = 2 * (p.pc / 3) + (p.pc % 3 - 1) := by
  have hle := p.phase.index_le
  unfold Process.finished Process.pc
  omega

theorem Process.busy (p : Process) (h : p.phase ≠ .idle) :
    0 < p.entered ∧ ∃ t, p.phase.transfer = some t := by
  unfold Process.entered
  cases hphase : p.phase with
  | idle => exact absurd hphase h
  | size t | data t => exact ⟨Nat.succ_pos _, t, rfl⟩

theorem Process.entered_le (p : Process) : p.entered ≤ p.finished + 1 := by
  unfold Process.entered Process.finished
  omega

def context (b : Broadcasts) (name : String) : BPSContext where
  tensorName := name
  declaredKey := declaredKeyOf b.hash name
  initialized := true
  buffLen := b.stored name
  keyList := keysFrom (declaredKeyOf b.hash name <<< 16) (count b.partitionBound (b.stored name))

def contextAt (b : Broadcasts) (name : String) (j : ℕ) : Option BPSContext :=
  if b.round name j = 0 then none else some (b.context name)

theorem Uniform.stored_eq (h : b.Uniform) (ho : o ∈ b.ops) : b.stored o.name = o.data.length := by
  obtain ⟨o', hmem, hname, hfind⟩ := exists_find? (p := (·.name = o.name)) ho rfl
  rw [stored, hfind]
  exact (h.alike hmem ho hname).2

theorem round_succ (ho : b.ops[j]? = some o) (name : String) :
    b.round name (j + 1) = b.round name j + if o.name = name then 1 else 0 := by
  unfold round
  rw [before_succ ho]
  simp

structure Process.Ok (b : Broadcasts) (rank : ℕ) (p : Process) : Prop where
  le : p.returned.length ≤ b.calls.length
  returned : p.returned = (b.calls.map (·.bytes)).take p.returned.length
  transfer : ∀ t, p.phase.transfer = some t → ∃ o, b.ops[p.entered - 1]? = some o ∧
    t = b.transfer o (b.round o.name (p.entered - 1)) rank
  rounds : ∀ name, p.rounds name = b.round name p.entered
  contexts : ∀ name, p.global.nameToCxt name = b.contextAt name p.entered

theorem nameToCxt_declared (hash : String → UInt64) (global : Global) (name : String) :
    (isTensorDeclared hash global name).2.nameToCxt =
      update global.nameToCxt name (some ((global.nameToCxt name).getD
        { tensorName := name, declaredKey := declaredKeyOf hash name })) := by
  unfold isTensorDeclared
  cases hc : global.nameToCxt name with
  | some c =>
    dsimp only
    rw [getD_some, ← hc, update_eq_self]
  | none =>
    split_ifs <;> rfl

theorem Uniform.startTask_eq (h : b.Uniform) (ho : b.ops[j]? = some o) {tensor : List ℕ}
    (hlen : tensor.length = o.data.length) (shared : List ℕ) :
    ∃ requests, startTask b.worker ((b.contextAt o.name j).getD
        { tensorName := o.name, declaredKey := declaredKeyOf b.hash o.name }) o.dtype shared
        tensor.length tensor.length = some (b.context o.name, requests, b.tasks o) := by
  have hmem := mem_of_getElem? ho
  have hb : 0 < b.worker.partitionBound := b.partitionBound_pos
  have hinit : ∃ requests, initTensor b.worker ((b.contextAt o.name j).getD
      { tensorName := o.name, declaredKey := declaredKeyOf b.hash o.name }) o.dtype shared
      tensor.length = some (b.context o.name, requests) := by
    unfold contextAt
    split_ifs with hround
    · obtain ⟨context, requests, hinit⟩ : ∃ context requests, initTensor b.worker
          { tensorName := o.name, declaredKey := declaredKeyOf b.hash o.name } o.dtype shared
          tensor.length = some (context, requests) :=
        Worker.exists_initTensor hb (hlen ▸ (h.length_pos hmem).1)
          (hlen ▸ (h.length_pos hmem).2) b.partitionBound_lt rfl rfl
      obtain ⟨-, -, -, hctx, -⟩ := Worker.initTensor_spec rfl rfl hinit
      refine ⟨requests, hinit.trans ?_⟩
      rw [hctx, hlen, ← h.stored_eq hmem]
      simp only [ite_self]
      rfl
    · exact ⟨[], rfl⟩
  obtain ⟨requests, hinit⟩ := hinit
  have henqueue : enqueueTensor b.worker (b.context o.name) tensor.length tensor.length =
      some (b.tasks o) := by
    rw [Worker.enqueueTensor_eq hb, if_pos, hlen]
    · rw [tasks, keys, context, h.stored_eq hmem]
      rfl
    · rw [context, Worker.length_keysFrom, h.stored_eq hmem, hlen]
      rfl
  refine ⟨requests, ?_⟩
  unfold startTask
  rw [hinit]
  simp only [bind_eq_bind, bind_some, henqueue]

variable {rank : ℕ}

theorem tensor_eq {data : List ℕ} (hlen : data.length = o.data.length)
    (hroot : rank = o.rootRank → data = o.data) :
    (if rank ≠ o.rootRank then data.map fun _ => 0 else data) = tensor o rank := by
  unfold tensor
  by_cases h : rank = o.rootRank
  · rw [if_neg (not_not.mpr h), if_neg (not_not.mpr h), hroot h]
  · rw [if_pos h, if_pos h, map_const', hlen]

theorem Process.Ok.enter (h : b.Uniform) {p : Process} (hp : p.Ok b rank)
    (ho : b.ops[p.entered]? = some o) (phase : Transfer → Phase) {name : String}
    (hname : opName name = o.name) {data : List ℕ} (hlen : data.length = o.data.length)
    (hroot : rank = o.rootRank → data = o.data) (htransfer : ∀ t, (phase t).transfer = some t)
    (hindex : ∀ t, (phase t).index = p.phase.index + 1) :
    ∃ p' t, b.broadcastParameters p rank o.rootRank name o.dtype data = some (p', t) ∧
      Process.Ok b rank { p' with phase := phase t } ∧
      Process.pc { p' with phase := phase t } = p.pc + 1 := by
  obtain ⟨requests, hstart⟩ := h.startTask_eq ho (length_tensor o rank)
    (b.shared (b.node rank) o.name)
  have hdeclared : (isTensorDeclared b.hash p.global o.name).2.nameToCxt o.name =
      some ((b.contextAt o.name p.entered).getD
        { tensorName := o.name, declaredKey := declaredKeyOf b.hash o.name }) := by
    rw [nameToCxt_declared, update_self, hp.contexts]
  let t := b.transfer o (b.round o.name p.entered) rank
  let p' : Process :=
    { p with
      global := (isTensorDeclared b.hash p.global o.name).2.setContext o.name (b.context o.name)
      rounds := update p.rounds o.name (b.round o.name p.entered + 1) }
  have hentered : Process.entered { p' with phase := phase t } = p.entered + 1 := by
    simp only [Process.entered, hindex]
    rfl
  refine ⟨p', t, ?_, ⟨hp.le, hp.returned, ?_, fun x => ?_, fun x => ?_⟩, ?_⟩
  · unfold broadcastParameters
    simp only [hname, tensor_eq hlen hroot, hdeclared, bind_eq_bind, bind_some,
      hstart, hp.rounds o.name]
    rfl
  · intro t' ht'
    obtain rfl : t = t' := some.inj ((htransfer t).symm.trans ht')
    rw [hentered]
    exact ⟨o, ho, rfl⟩
  · rw [hentered, round_succ ho]
    show update _ _ _ x = _
    by_cases hx : x = o.name
    · rw [hx, update_self, if_pos rfl]
    · rw [update_of_ne hx, if_neg (Ne.symm hx)]
      exact hp.rounds x
  · rw [hentered, contextAt, round_succ ho]
    show update _ _ _ x = _
    by_cases hx : x = o.name
    · rw [hx, update_self, if_pos rfl, if_neg (Nat.succ_ne_zero _)]
    · rw [update_of_ne hx, if_neg (Ne.symm hx), nameToCxt_declared, update_of_ne hx]
      exact hp.contexts x
  · simp only [Process.pc, hindex]
    rfl

theorem tensorInt_intBytes {n : ℕ} (hn : n < 2 ^ 31) : tensorInt (intBytes n) = some n := by
  have hdigits : Nat.ofDigits 256 (intBytes n) = n := by
    simp only [intBytes, Nat.ofDigits_cons, Nat.ofDigits_nil]
    omega
  rw [tensorInt, hdigits, if_pos hn]

theorem Process.Ok.proceed (h : b.Uniform) (hrank : rank < b.size) {p : Process}
    (hp : p.Ok b rank) (hlt : p.returned.length < b.calls.length) {output : Option (List ℕ)}
    (hout : p.phase = .idle ∨ ∃ o, b.ops[p.entered - 1]? = some o ∧ output = some o.data) :
    ∃ p', p.proceed b rank output = some p' ∧ p'.Ok b rank ∧ p'.pc = p.pc + 1 := by
  obtain ⟨c, hc⟩ : ∃ c, b.calls[p.returned.length]? = some c :=
    ⟨_, getElem?_eq_getElem hlt⟩
  have hmem := mem_of_getElem? hc
  have hsmall := h.small c hmem
  have hsize : b.ops[2 * p.returned.length]? = some c.sizeOp := by
    rw [getElem?_ops_size, hc]
    rfl
  have hdata : b.ops[2 * p.returned.length + 1]? = some c.dataOp := by
    rw [getElem?_ops_data, hc]
    rfl
  unfold Process.proceed
  rw [hc]
  simp only [bind_eq_bind, bind_some, h.names c hmem rank hrank]
  cases hphase : p.phase with
  | idle =>
    have hentered : p.entered = 2 * p.returned.length := by
      rw [Process.entered, hphase]
      rfl
    have hint : intTensor (if rank = c.rootRank then c.bytes.length else 0) =
        some (intBytes (if rank = c.rootRank then c.bytes.length else 0)) := by
      rw [intTensor, if_pos]
      split_ifs
      · exact hsmall
      · decide
    have hroot : rank = c.rootRank →
        intBytes (if rank = c.rootRank then c.bytes.length else 0) = c.sizeOp.data :=
      fun hroot => congrArg intBytes (if_pos hroot)
    have hlen : (intBytes (if rank = c.rootRank then c.bytes.length else 0)).length =
        c.sizeOp.data.length := rfl
    obtain ⟨p', t, hp', hok, hpc⟩ := hp.enter h (hentered ▸ hsize) .size rfl hlen hroot
      (fun _ => rfl) (fun _ => by rw [hphase]; rfl)
    refine ⟨_, ?_, hok, hpc⟩
    rw [hint, bind_some]
    exact congrArg (bind · _) hp'
  | size t =>
    have hentered : p.entered = 2 * p.returned.length + 1 := by
      rw [Process.entered, hphase]
      rfl
    obtain ⟨o, ho, rfl⟩ := hout.resolve_left (by rw [hphase]; exact nofun)
    obtain rfl : o = c.sizeOp := by
      rw [hentered, Nat.add_sub_cancel, hsize] at ho
      exact (some.inj ho).symm
    have hint : tensorInt c.sizeOp.data = some c.bytes.length := tensorInt_intBytes hsmall
    have hlen : (if rank = c.rootRank then c.bytes else
        replicate c.bytes.length 0).length = c.dataOp.data.length := by
      split_ifs
      · rfl
      · exact length_replicate
    obtain ⟨p', t', hp', hok, hpc⟩ := hp.enter h (hentered ▸ hdata) .data rfl hlen
      (fun hroot => if_pos hroot) (fun _ => rfl) (fun _ => by rw [hphase]; rfl)
    refine ⟨_, ?_, hok, hpc⟩
    dsimp only [bind_some]
    by_cases hroot : rank = c.rootRank
    · rw [if_pos hroot] at hp' ⊢
      exact congrArg (bind · _) hp'
    · rw [if_neg hroot] at hp' ⊢
      rw [hint]
      exact congrArg (bind · _) hp'
  | data t =>
    have hentered : p.entered = 2 * p.returned.length + 2 := by
      rw [Process.entered, hphase]
      rfl
    obtain ⟨o, ho, rfl⟩ := hout.resolve_left (by rw [hphase]; exact nofun)
    obtain rfl : o = c.dataOp := by
      rw [hentered, Nat.add_sub_assoc (by decide), hdata] at ho
      exact (some.inj ho).symm
    have hbytes : (if rank = c.rootRank then c.bytes else c.dataOp.data) = c.bytes := ite_self _
    let p' : Process := { p with returned := p.returned ++ [c.bytes], phase := .idle }
    have hlen : p'.returned.length = p.returned.length + 1 := length_append
    have hentered' : p'.entered = p.entered := by
      rw [hentered, Process.entered, hlen]
      rfl
    refine ⟨p', ?_, ⟨hlen ▸ hlt, ?_, (fun t ht => nomatch ht), fun x => ?_, fun x => ?_⟩, ?_⟩
    · dsimp only [bind_some]
      rw [hbytes]
    · have htake : (b.calls.map (·.bytes)).take (p.returned.length + 1) =
          (b.calls.map (·.bytes)).take p.returned.length ++ [c.bytes] := by
        rw [take_add_one, getElem?_map, hc]
        rfl
      rw [hlen, htake, ← hp.returned]
    · rw [hentered']
      exact hp.rounds x
    · rw [hentered']
      exact hp.contexts x
    · rw [Process.pc, Process.pc, hlen, hphase]
      rfl

end Processes

end MegatronDPU.Torch.Broadcasts
