import MegatronDPU.Lib.Region
import MegatronDPU.Lib.Transition
import MegatronDPU.Worker.Pipeline

/-!
# A call of `push_pull` with one GPU

Every worker has one GPU and calls `push_pull` on a tensor. On the staged path a task copies its
partition from the device to the shared buffer, pushes and pulls there, and copies the result back.
With `DMLC_USE_GDR` a task only pushes and pulls. The loops of that path would use the tensor itself
if the task had no shared buffer, but `InitTensor` always allocates one: the data of the tensor is
not sent, and what is pulled does not reach the output.
-/

namespace MegatronDPU.Worker

open Lts Function List Option
open Server (Key)

variable {α : Type}

/-! ## Calls -/

inductive Device
  | cpu
  | gpu
  deriving DecidableEq

inductive Buffer
  | input
  | output
  | shared
  deriving DecidableEq

/-- The cells of the buffers of a worker, one for each element of the data type. -/
abbrev Memory (α : Type) := Buffer → ℕ → α

/-- `RoundUp`. -/
def roundUp (x y : ℕ) : ℕ := (x + y - 1) / y * y

/-- `_partition_bytes`, a `uint32_t`, after `Init`. -/
def partitionBound (partitionBytes localSize pagesize : ℕ) : ℕ :=
  roundUp partitionBytes (localSize * pagesize) % 2 ^ 32

/-- A `push_pull` of every worker on tensors of one size. -/
structure Call (α : Type) where
  numWorker : ℕ
  numWorker_pos : 0 < numWorker
  pcieSwitchSize : ℕ
  partitionBytes : ℕ
  pagesize : ℕ
  /-- Pages are made of words. -/
  dvd_pagesize : 8 ∣ pagesize
  /-- The bytes of an element. -/
  unitLen : ℕ
  unitLen_dvd : unitLen ∣ 8
  numElements : ℕ
  device : Device
  /-- The output tensor is the input tensor. -/
  inPlace : Bool
  /-- The buffers before the call. -/
  memory : ℕ → Memory α
  context : BPSContext
  tasks : List Task
  enqueued : enqueueTensor
    { partitionBound := partitionBound partitionBytes 1 pagesize, numWorker := numWorker }
    context (numElements * unitLen) (numElements * unitLen) = some tasks

/-- The pointers of a task, a `TensorTableEntry`. -/
structure Pointers where
  device : Device
  tensor : Buffer
  output : Buffer
  cpubuff : Option Buffer
  gpuPtr : Option Buffer

/-- The part of a partition that a process copies, as an offset in the partition and a length. -/
def copyRange (ncclSize ncclRank unitLen len : ℕ) : ℕ × ℕ :=
  let numElemPerGpu := len / ncclSize / unitLen
  let leftElem := len / unitLen - numElemPerGpu * ncclSize
  (ncclRank * numElemPerGpu * unitLen,
    numElemPerGpu * unitLen + if leftElem ≠ 0 ∧ ncclSize - 1 = ncclRank then leftElem * unitLen
      else 0)

/-- Where `RunCopyDevice2HostLoopOnce` copies from. -/
def Pointers.copySource (p : Pointers) (ncclSize : ℕ) : Option Buffer :=
  match p.device with
  | .cpu => p.gpuPtr
  | .gpu => some (if 1 < ncclSize then p.output else p.tensor)

/-- Where `CopyHost2Device` copies to. -/
def Pointers.copyTarget (p : Pointers) : Option Buffer :=
  match p.device with
  | .cpu => p.gpuPtr
  | .gpu => some p.output

/-- Where the push and pull loops read and write: those of GDR take the tensor only if there is no
shared buffer, the others check that there is one. -/
def Pointers.serverBuffer (p : Pointers) (useGdr : Bool) : Option Buffer :=
  if useGdr then some (p.cpubuff.getD p.tensor) else p.cpubuff

structure WorkerState (α : Type) where
  /-- The queue list of the task of each partition. -/
  remaining : ℕ → List QueueType
  memory : Memory α
  /-- What was pushed for each partition. -/
  pushed : ℕ → Option (List α)

namespace WorkerState

variable (x : WorkerState α)

def setBuffer (b : Buffer) (cells : ℕ → α) : WorkerState α :=
  { x with memory := update x.memory b cells }

def copy (dst src : Buffer) (off n : ℕ) : WorkerState α :=
  x.setBuffer dst (Region.write (x.memory dst) off (Region.read (x.memory src) off n))

def push (i : ℕ) (b : Buffer) (off n : ℕ) : WorkerState α :=
  { x with pushed := update x.pushed i (some (Region.read (x.memory b) off n)) }

def pull (b : Buffer) (off : ℕ) (answer : List α) : WorkerState α :=
  x.setBuffer b (Region.write (x.memory b) off answer)

/-- `FinishOrProceed`. -/
def proceed (i : ℕ) (rest : List QueueType) : WorkerState α :=
  { x with remaining := update x.remaining i rest }

end WorkerState

namespace Call

variable (call : Call α)

def outputBuffer : Buffer := if call.inPlace then .input else .output

/-- The pointers that `EnqueueTensor` gives the tasks, after `InitTensor`. -/
def pointers : Pointers where
  device := call.device
  tensor := .input
  output := call.outputBuffer
  -- `InitTensor` always allocates its own buffer
  cpubuff := some .shared
  gpuPtr := if call.device = .cpu then some .input else none

def machine (useGdr : Bool) : Machine := soleGpu call.numWorker useGdr call.pcieSwitchSize

def cell (byte : ℕ) : ℕ := byte / call.unitLen

def copyTask (useGdr : Bool) (task : Task) (dst src : Buffer) (x : WorkerState α) : WorkerState α :=
  let range := copyRange (call.machine useGdr).ncclSize 0 call.unitLen task.len
  x.copy dst src (call.cell (task.offset + range.1)) (call.cell range.2)

/-- The loop of a queue on a task. The pull has a result once the server has one. -/
def perform (useGdr : Bool) (i : ℕ) (task : Task) (answer : Option (List α))
    (x : WorkerState α) : QueueType → Option (WorkerState α)
  -- with one GPU there is no NCCL call
  | .reduce => some x
  | .broadcast => some x
  | .copyD2H => (call.pointers.copySource (call.machine useGdr).ncclSize).bind fun src =>
      call.pointers.cpubuff.map fun dst => call.copyTask useGdr task dst src x
  | .copyH2D => call.pointers.cpubuff.bind fun src =>
      call.pointers.copyTarget.map fun dst => call.copyTask useGdr task dst src x
  | .push => (call.pointers.serverBuffer useGdr).map fun b =>
      x.push i b (call.cell task.offset) (call.cell task.len)
  | .pull => (call.pointers.serverBuffer useGdr).bind fun b =>
      answer.map (x.pull b (call.cell task.offset))
  -- no other queue is in the list of a process with one GPU
  | _ => none

/-- The next stage of the task of partition `i`. -/
def advance (useGdr : Bool) (i : ℕ) (answer : Option (List α)) (x : WorkerState α) :
    Option (WorkerState α) :=
  call.tasks[i]?.bind fun task =>
    match x.remaining i with
    | [] => none
    | q :: rest => (call.perform useGdr i task answer x q).map (·.proceed i rest)

section Run

variable [AddCommMonoid α]

/-- What the server answers to pulls of partition `i`: nothing before all workers have pushed it,
then the sum of what they have pushed. -/
def answer (s : ℕ → WorkerState α) (i : ℕ) : Option (List α) :=
  call.tasks[i]?.bind fun task =>
    if ∀ v < call.numWorker, ((s v).pushed i).isSome then
      some ((range (call.cell task.len)).map fun k =>
        ∑ v ∈ Finset.range call.numWorker, (((s v).pushed i).getD []).getD k 0)
    else none

/-- The call on one of the two paths; a label is a worker and a partition. -/
def pushPull (useGdr : Bool) : System (ℕ → WorkerState α) (ℕ × ℕ) where
  init s := s = fun w => ⟨fun _ => (call.machine useGdr).queueList 0, call.memory w, fun _ => none⟩
  step s a :=
    if a.1 < call.numWorker then
      (call.advance useGdr a.2 (call.answer s a.2) (s a.1)).map (update s a.1)
    else none

def Finished (s : ℕ → WorkerState α) : Prop :=
  ∀ w < call.numWorker, ∀ i < call.tasks.length, (s w).remaining i = []

def output (s : ℕ → WorkerState α) (w c : ℕ) : α := (s w).memory call.outputBuffer c

def sum (c : ℕ) : α := ∑ w ∈ Finset.range call.numWorker, call.memory w .input c

/-- With GDR the outputs are those of the staged path: the sums of the inputs. -/
def Agree : Prop :=
  ∀ g s, Reach (call.pushPull true) Free g → call.Finished g →
    Reach (call.pushPull false) Free s → call.Finished s →
    ∀ w < call.numWorker, ∀ c < call.numElements,
      call.output g w c = call.output s w c ∧ call.output s w c = call.sum c

end Run

/-- The cell belongs to partition `i`. -/
def Covers (i c : ℕ) : Prop :=
  ∃ task, call.tasks[i]? = some task ∧
    call.cell task.offset ≤ c ∧ c < call.cell task.offset + call.cell task.len

def Overlapped (c : ℕ) : Prop := ∃ i j, i ≠ j ∧ call.Covers i c ∧ call.Covers j c

end Call

/-! ## One stage -/

section Stage

variable (call : Call α) {useGdr : Bool} {i : ℕ} {task : Task} {answer answer' : Option (List α)}
  {x y : WorkerState α} {q : QueueType}

theorem Call.unitLen_pos : 0 < call.unitLen := Nat.pos_of_dvd_of_pos call.unitLen_dvd (by decide)

def Call.target : Buffer := if call.device = .cpu then .input else call.outputBuffer

theorem Call.target_eq : call.target = .input ∨ call.target = call.outputBuffer := by
  unfold Call.target
  split_ifs
  · exact .inl rfl
  · exact .inr rfl

theorem Call.outputBuffer_ne_shared : call.outputBuffer ≠ .shared := by
  unfold Call.outputBuffer
  split_ifs <;> decide

theorem Call.target_ne_shared : call.target ≠ .shared := by
  unfold Call.target Call.outputBuffer
  split_ifs <;> decide

theorem Call.copyTask_eq (useGdr : Bool) (task : Task) (dst src : Buffer) (x : WorkerState α) :
    call.copyTask useGdr task dst src x =
      x.copy dst src (call.cell task.offset) (call.cell task.len) := by
  have hrange : copyRange (call.machine useGdr).ncclSize 0 call.unitLen task.len =
      (0, task.len / call.unitLen * call.unitLen) := by
    rw [Call.machine, soleGpu_ncclSize]
    simp [copyRange]
  unfold Call.copyTask Call.cell
  dsimp only
  rw [hrange, add_zero, Nat.mul_div_cancel _ call.unitLen_pos]

theorem Call.perform_copyD2H : call.perform useGdr i task answer x .copyD2H =
    some (x.copy .shared .input (call.cell task.offset) (call.cell task.len)) := by
  have hsrc : call.pointers.copySource (call.machine useGdr).ncclSize = some .input := by
    rw [Call.machine, soleGpu_ncclSize]
    unfold Pointers.copySource Call.pointers
    cases call.device <;> rfl
  rw [← call.copyTask_eq useGdr]
  show Option.bind _ _ = _
  rw [hsrc]
  rfl

theorem Call.perform_copyH2D : call.perform useGdr i task answer x .copyH2D =
    some (x.copy call.target .shared (call.cell task.offset) (call.cell task.len)) := by
  have hdst : call.pointers.copyTarget = some call.target := by
    unfold Pointers.copyTarget Call.pointers Call.target
    cases call.device <;> rfl
  rw [← call.copyTask_eq useGdr]
  show call.pointers.copyTarget.map (fun dst => call.copyTask useGdr task dst .shared x) = _
  rw [hdst, map_some]

/-- The shared buffer is never missing, so it is what both paths use. -/
theorem Call.serverBuffer_pointers : call.pointers.serverBuffer useGdr = some .shared := by
  cases useGdr <;> rfl

theorem Call.perform_push : call.perform useGdr i task answer x .push =
    some (x.push i .shared (call.cell task.offset) (call.cell task.len)) := by
  show Option.map _ _ = _
  rw [call.serverBuffer_pointers, map_some]

theorem Call.perform_pull : call.perform useGdr i task answer x .pull =
    answer.map (x.pull .shared (call.cell task.offset)) := by
  show Option.bind _ _ = _
  rw [call.serverBuffer_pointers, bind_some]

theorem copy_memory (x : WorkerState α) (dst src b : Buffer) (off n c : ℕ) :
    (x.copy dst src off n).memory b c =
      if b = dst ∧ off ≤ c ∧ c < off + n then x.memory src c else x.memory b c := by
  show update x.memory dst _ b c = _
  by_cases hb : b = dst
  · subst hb
    rw [update_self, Region.copy_apply]
    simp only [true_and]
  · rw [update_of_ne hb, if_neg fun h => hb h.1]

theorem Call.pushed_of_pull (h : call.perform useGdr i task answer x .pull = some y) :
    y.pushed = x.pushed := by
  rw [call.perform_pull] at h
  obtain ⟨xs, -, rfl⟩ := map_eq_some_iff.mp h
  rfl

/-- A worker has not gone on with partition `j`. -/
def Untouched (x y : WorkerState α) (j : ℕ) : Prop :=
  y.remaining j = x.remaining j ∧ y.pushed j = x.pushed j

theorem Untouched.trans {z : WorkerState α} {j : ℕ} (h : Untouched x y j) (h' : Untouched y z j) :
    Untouched x z j :=
  ⟨h'.1.trans h.1, h'.2.trans h.2⟩

section

variable (h : call.perform useGdr i task answer x q = some y)
include h

theorem Call.perform_cases :
    ((q = .reduce ∨ q = .broadcast) ∧ y = x) ∨
    (q = .copyD2H ∧ y = x.copy .shared .input (call.cell task.offset) (call.cell task.len)) ∨
    (q = .copyH2D ∧ y = x.copy call.target .shared (call.cell task.offset) (call.cell task.len)) ∨
    (q = .push ∧ y = x.push i .shared (call.cell task.offset) (call.cell task.len)) ∨
    (q = .pull ∧ ∃ xs, answer = some xs ∧ y = x.pull .shared (call.cell task.offset) xs) := by
  cases q with
  | reduce => exact .inl ⟨.inl rfl, (some.inj h).symm⟩
  | broadcast => exact .inl ⟨.inr rfl, (some.inj h).symm⟩
  | copyD2H =>
    rw [call.perform_copyD2H] at h
    exact .inr (.inl ⟨rfl, (some.inj h).symm⟩)
  | copyH2D =>
    rw [call.perform_copyH2D] at h
    exact .inr (.inr (.inl ⟨rfl, (some.inj h).symm⟩))
  | push =>
    rw [call.perform_push] at h
    exact .inr (.inr (.inr (.inl ⟨rfl, (some.inj h).symm⟩)))
  | pull =>
    rw [call.perform_pull] at h
    obtain ⟨xs, hxs, rfl⟩ := map_eq_some_iff.mp h
    exact .inr (.inr (.inr (.inr ⟨rfl, xs, hxs, rfl⟩)))
  | _ => cases h

theorem Call.perform_memory {b : Buffer} (hb : b ≠ .shared) (hkeep : q ≠ .copyH2D ∨ b ≠ call.target) :
    y.memory b = x.memory b := by
  obtain ⟨-, rfl⟩ | ⟨-, rfl⟩ | ⟨rfl, rfl⟩ | ⟨-, rfl⟩ | ⟨-, xs, -, rfl⟩ := call.perform_cases h
  · rfl
  · exact update_of_ne hb _ _
  · exact update_of_ne (hkeep.resolve_left fun h => h rfl) _ _
  · rfl
  · exact update_of_ne hb _ _

theorem Call.perform_remaining : y.remaining = x.remaining := by
  obtain ⟨-, rfl⟩ | ⟨-, rfl⟩ | ⟨-, rfl⟩ | ⟨-, rfl⟩ | ⟨-, xs, -, rfl⟩ := call.perform_cases h
  all_goals rfl

theorem Call.pushed_of_ne {j : ℕ} (hj : j ≠ i) : y.pushed j = x.pushed j := by
  obtain ⟨-, rfl⟩ | ⟨-, rfl⟩ | ⟨-, rfl⟩ | ⟨-, rfl⟩ | ⟨-, xs, -, rfl⟩ := call.perform_cases h
  · rfl
  · rfl
  · rfl
  · exact update_of_ne hj _ _
  · rfl

theorem Call.untouched_of_ne {j : ℕ} (hj : j ≠ i) (rest : List QueueType) :
    Untouched x (y.proceed i rest) j :=
  ⟨(update_of_ne hj _ _).trans (congrFun (call.perform_remaining h) j),
    show y.pushed j = x.pushed j from call.pushed_of_ne h hj⟩

end

theorem Call.queueList_eq (useGdr : Bool) : (call.machine useGdr).queueList 0 =
    if useGdr then [.push, .pull]
    else [.reduce, .copyD2H, .push, .pull, .copyH2D, .broadcast] :=
  queueList_soleGpu call.numWorker_pos useGdr

end Stage

/-! ## Runs -/

section Runs

variable [AddCommMonoid α] {call : Call α} {useGdr : Bool} {s t : ℕ → WorkerState α} {i w : ℕ}

/-- A step is one stage of one task on one worker. -/
theorem Call.step_cases {a : ℕ × ℕ} (h : (call.pushPull useGdr).step s a = some t) :
    a.1 < call.numWorker ∧ ∃ task q rest x, call.tasks[a.2]? = some task ∧
      (s a.1).remaining a.2 = q :: rest ∧
      call.perform useGdr a.2 task (call.answer s a.2) (s a.1) q = some x ∧
      t = update s a.1 (x.proceed a.2 rest) := by
  change (if a.1 < call.numWorker then _ else none) = _ at h
  by_cases hw : a.1 < call.numWorker
  swap
  · rw [if_neg hw] at h
    cases h
  rw [if_pos hw] at h
  obtain ⟨y, hy, rfl⟩ := map_eq_some_iff.mp h
  obtain ⟨task, htask, hy⟩ := bind_eq_some_iff.mp hy
  cases hl : (s a.1).remaining a.2 with
  | nil =>
    rw [hl] at hy
    cases hy
  | cons q rest =>
    rw [hl] at hy
    obtain ⟨x, hx, rfl⟩ := map_eq_some_iff.mp hy
    exact ⟨hw, task, q, rest, x, htask, rfl, hx, rfl⟩

/-- Buffers that are not the target of a copy keep their contents; with GDR there is no copy. -/
theorem Call.memory_of_reach {b : Buffer} (hb : b ≠ .shared)
    (hkeep : useGdr = true ∨ b ≠ call.target) (h : Reach (call.pushPull useGdr) Free s) (w : ℕ) :
    (s w).memory b = call.memory w b := by
  have hinv : ∀ w, (s w).memory b = call.memory w b ∧
      ∀ i, .copyH2D ∈ (s w).remaining i → useGdr = false := by
    refine h.invariant (P := fun s => ∀ w, (s w).memory b = call.memory w b ∧
      ∀ i, .copyH2D ∈ (s w).remaining i → useGdr = false) ?_ ?_
    · rintro s rfl w
      refine ⟨rfl, fun i hi => ?_⟩
      rw [call.queueList_eq] at hi
      cases useGdr with
      | false => rfl
      | true => simp at hi
    · intro s a t hs _ hstep v
      obtain ⟨-, task, q, rest, x, -, hl, hx, rfl⟩ := Call.step_cases hstep
      by_cases hv : v = a.1
      · subst hv
        have hq : q ≠ .copyH2D ∨ b ≠ call.target := by
          refine hkeep.imp_left fun hg hq => ?_
          have hfalse := (hs a.1).2 a.2 (by rw [hl, hq]; exact mem_cons_self)
          rw [hg] at hfalse
          cases hfalse
        rw [update_self]
        refine ⟨(call.perform_memory hx hb hq).trans (hs a.1).1, fun j hj => ?_⟩
        change _ ∈ update x.remaining a.2 rest j at hj
        by_cases hji : j = a.2
        · subst hji
          rw [update_self] at hj
          exact (hs a.1).2 a.2 (by rw [hl]; exact mem_cons_of_mem _ hj)
        · rw [update_of_ne hji, call.perform_remaining hx] at hj
          exact (hs a.1).2 j hj
      · rw [update_of_ne hv]
        exact hs v
  exact (hinv w).1

theorem Call.output_of_gdr (h : Reach (call.pushPull true) Free s) (w c : ℕ) :
    call.output s w c = call.memory w call.outputBuffer c := by
  exact congrFun (Call.memory_of_reach call.outputBuffer_ne_shared (.inl rfl) h w) c

/-! ### Rows

A row is one stage of a partition, taken by several workers one after the other. -/

theorem Call.answer_congr (h : ∀ v < call.numWorker, (t v).pushed i = (s v).pushed i) :
    call.answer t i = call.answer s i := by
  have hall : (∀ v < call.numWorker, ((t v).pushed i).isSome) ↔
      ∀ v < call.numWorker, ((s v).pushed i).isSome :=
    forall₂_congr fun v hv => by rw [h v hv]
  refine congrArg _ (funext fun task => ?_)
  refine if_congr hall (congrArg some (map_congr_left fun k _ => ?_)) rfl
  exact Finset.sum_congr rfl fun v hv => by rw [h v (Finset.mem_range.mp hv)]

section

variable {task : Task} {vs : List ℕ} {q : QueueType} {rest : List QueueType}
  (hs : Reach (call.pushPull useGdr) Free s) (htask : call.tasks[i]? = some task) (hnd : vs.Nodup)
  (hlt : ∀ v ∈ vs, v < call.numWorker) (hhead : ∀ v ∈ vs, (s v).remaining i = q :: rest)
include hs htask hnd hlt hhead

theorem Call.reach_row
    (hperf : ∀ v ∈ vs, call.perform useGdr i task (call.answer s i) (s v) q = some (t v)) :
    Reach (call.pushPull useGdr) Free
      fun v => if v ∈ vs then (t v).proceed i rest else s v := by
  induction vs with
  | nil => simpa using hs
  | cons w vs ih =>
    obtain ⟨hw, hnd⟩ := nodup_cons.mp hnd
    have hprev := ih hnd (fun v hv => hlt v (mem_cons_of_mem _ hv))
      (fun v hv => hhead v (mem_cons_of_mem _ hv))
      (fun v hv => hperf v (mem_cons_of_mem _ hv))
    -- the workers before `w` have not changed the answer that `w` sees
    have hanswer : call.perform useGdr i task
        (call.answer (fun v => if v ∈ vs then (t v).proceed i rest else s v) i) (s w) q =
        some (t w) := by
      rw [← hperf w mem_cons_self]
      by_cases hq : q = .pull
      · subst hq
        congr 1
        refine Call.answer_congr fun v _ => ?_
        by_cases hv : v ∈ vs
        · rw [if_pos hv]
          exact congrFun (call.pushed_of_pull (hperf v (mem_cons_of_mem _ hv))) i
        · rw [if_neg hv]
      · cases q with
        | pull => exact absurd rfl hq
        | _ => rfl
    have hstep : (call.pushPull useGdr).step
        (fun v => if v ∈ vs then (t v).proceed i rest else s v) (w, i) =
        some (fun v => if v ∈ w :: vs then (t v).proceed i rest else s v) := by
      change (if w < call.numWorker then _ else none) = _
      rw [if_pos (hlt w mem_cons_self)]
      unfold Call.advance
      dsimp only
      rw [htask, bind_some, if_neg hw, hhead w mem_cons_self]
      dsimp only
      rw [hanswer, map_some, map_some, Option.some.injEq]
      funext v
      by_cases hv : v = w
      · subst hv
        rw [update_self, if_pos mem_cons_self]
      · rw [update_of_ne hv]
        simp only [mem_cons, hv, false_or]
    exact hprev.step trivial hstep

theorem Call.exists_row
    (henabled : ∀ v ∈ vs, (call.perform useGdr i task (call.answer s i) (s v) q).isSome) :
    ∃ t, Reach (call.pushPull useGdr) Free t ∧
      (∀ v ∈ vs, ∃ y, call.perform useGdr i task (call.answer s i) (s v) q = some y ∧
        t v = y.proceed i rest) ∧
      ∀ v ∉ vs, t v = s v := by
  have hperf : ∀ v ∈ vs, call.perform useGdr i task (call.answer s i) (s v) q =
      some ((call.perform useGdr i task (call.answer s i) (s v) q).getD (s v)) := by
    intro v hv
    obtain ⟨y, hy⟩ := isSome_iff_exists.mp (henabled v hv)
    rw [hy, getD_some]
  exact ⟨_, Call.reach_row hs htask hnd hlt hhead hperf,
    fun v hv => ⟨_, hperf v hv, if_pos hv⟩, fun v hv => if_neg hv⟩

end

/-! ### Every call can be finished -/

/-- The queues of one GPU, where a pull comes after the push. -/
def runnable : Bool → List QueueType → Bool
  | _, [] => true
  | _, .push :: l => runnable true l
  | sent, .pull :: l => sent && runnable sent l
  | sent, .reduce :: l => runnable sent l
  | sent, .broadcast :: l => runnable sent l
  | sent, .copyD2H :: l => runnable sent l
  | sent, .copyH2D :: l => runnable sent l
  | _, _ => false

theorem Call.answer_isSome {task : Task} (htask : call.tasks[i]? = some task)
    (h : ∀ v < call.numWorker, ((s v).pushed i).isSome) : (call.answer s i).isSome := by
  unfold Call.answer
  rw [htask, bind_some, if_pos h]
  rfl

variable {l : List QueueType} {sent : Bool}

theorem runnable_tail {q : QueueType} (h : runnable sent (q :: l) = true) :
    runnable (sent || q == .push) l = true := by
  cases q with
  | push =>
    rw [show (sent || QueueType.push == .push) = true from Bool.or_true sent]
    exact h
  | pull =>
    rw [show (sent || QueueType.pull == .push) = sent from Bool.or_false sent]
    exact (Bool.and_eq_true_iff.mp h).2
  | reduce | broadcast | copyD2H | copyH2D =>
    exact (congrArg (runnable · l = true) (Bool.or_false sent)).mpr h
  | _ => cases h

section

omit [AddCommMonoid α]

theorem Call.perform_isSome {task : Task} {answer : Option (List α)} {q : QueueType}
    (hl : runnable sent (q :: l) = true) (hanswer : sent = true → answer.isSome)
    (x : WorkerState α) : (call.perform useGdr i task answer x q).isSome := by
  cases q with
  | reduce | broadcast => rfl
  | copyD2H => rw [call.perform_copyD2H]; rfl
  | copyH2D => rw [call.perform_copyH2D]; rfl
  | push => rw [call.perform_push]; rfl
  | pull =>
    rw [call.perform_pull, isSome_map]
    exact hanswer (Bool.and_eq_true_iff.mp hl).1
  | _ => cases hl

theorem Call.isSome_pushed {task : Task} {answer : Option (List α)} {x y : WorkerState α}
    {q : QueueType} (h : call.perform useGdr i task answer x q = some y)
    (hsent : (x.pushed i).isSome ∨ q = .push) : (y.pushed i).isSome := by
  obtain ⟨hq, rfl⟩ | ⟨rfl, rfl⟩ | ⟨rfl, rfl⟩ | ⟨-, rfl⟩ | ⟨rfl, xs, -, rfl⟩ := call.perform_cases h
  · refine hsent.resolve_right ?_
    rintro rfl
    rcases hq with hq | hq <;> cases hq
  · exact hsent.resolve_right (by decide)
  · exact hsent.resolve_right (by decide)
  · show (update x.pushed i (some _) i).isSome
    rw [update_self]
    rfl
  · exact hsent.resolve_right (by decide)

end

theorem Call.exists_drained {task : Task} (hs : Reach (call.pushPull useGdr) Free s)
    (htask : call.tasks[i]? = some task) (hhead : ∀ v < call.numWorker, (s v).remaining i = l)
    (hsent : sent = true → ∀ v < call.numWorker, ((s v).pushed i).isSome)
    (hl : runnable sent l = true) :
    ∃ t, Reach (call.pushPull useGdr) Free t ∧ ∀ v < call.numWorker, (t v).remaining i = [] ∧
      ∀ j, j ≠ i → Untouched (s v) (t v) j := by
  induction l generalizing s sent with
  | nil => exact ⟨s, hs, fun v hv => ⟨hhead v hv, fun _ _ => ⟨rfl, rfl⟩⟩⟩
  | cons q l ih =>
    obtain ⟨s', hs', hrow, -⟩ := Call.exists_row hs htask
      (nodup_range : (range call.numWorker).Nodup) (fun v hv => mem_range.mp hv)
      (fun v hv => hhead v (mem_range.mp hv))
      (fun v _ => Call.perform_isSome hl (fun h => Call.answer_isSome htask (hsent h)) (s v))
    have hnext : ∀ v < call.numWorker, (s' v).remaining i = l := by
      intro v hv
      obtain ⟨y, -, hy⟩ := hrow v (mem_range.mpr hv)
      rw [hy]
      exact update_self _ _ _
    have hsent' : (sent || q == .push) = true → ∀ v < call.numWorker, ((s' v).pushed i).isSome := by
      intro h v hv
      obtain ⟨y, hperf, hy⟩ := hrow v (mem_range.mpr hv)
      rw [hy]
      show (y.pushed i).isSome
      refine Call.isSome_pushed hperf ?_
      rcases Bool.or_eq_true_iff.mp h with h | h
      · exact .inl (hsent h v hv)
      · exact .inr (beq_iff_eq.mp h)
    obtain ⟨t, ht, hdone⟩ := ih hs' hnext hsent' (runnable_tail hl)
    refine ⟨t, ht, fun v hv => ⟨(hdone v hv).1, fun j hj => ?_⟩⟩
    obtain ⟨y, hperf, hy⟩ := hrow v (mem_range.mpr hv)
    refine Untouched.trans ?_ ((hdone v hv).2 j hj)
    rw [hy]
    exact call.untouched_of_ne hperf hj l

omit [AddCommMonoid α] in
theorem runnable_queueList (call : Call α) (useGdr : Bool) :
    runnable false ((call.machine useGdr).queueList 0) = true := by
  rw [call.queueList_eq]
  cases useGdr <;> rfl

theorem Call.exists_partitions_finished {ks : List ℕ}
    (hs : Reach (call.pushPull useGdr) Free s) (hnd : ks.Nodup)
    (hlt : ∀ k ∈ ks, k < call.tasks.length)
    (hfresh : ∀ k ∈ ks, ∀ v < call.numWorker,
      (s v).remaining k = (call.machine useGdr).queueList 0) :
    ∃ t, Reach (call.pushPull useGdr) Free t ∧ ∀ v < call.numWorker,
      (∀ k ∈ ks, (t v).remaining k = []) ∧
      ∀ j ∉ ks, Untouched (s v) (t v) j := by
  induction ks generalizing s with
  | nil => exact ⟨s, hs, fun v _ => ⟨fun k hk => (by cases hk), fun _ _ => ⟨rfl, rfl⟩⟩⟩
  | cons k ks ih =>
    obtain ⟨hk, hnd⟩ := nodup_cons.mp hnd
    obtain ⟨s', hs', hdone⟩ := Call.exists_drained hs
      (getElem?_eq_getElem (hlt k mem_cons_self)) (hfresh k mem_cons_self)
      (fun h => by cases h) (runnable_queueList call useGdr)
    have hfresh' : ∀ j ∈ ks, ∀ v < call.numWorker,
        (s' v).remaining j = (call.machine useGdr).queueList 0 := by
      intro j hj v hv
      have hne : j ≠ k := fun h => hk (h ▸ hj)
      rw [((hdone v hv).2 j hne).1]
      exact hfresh j (mem_cons_of_mem _ hj) v hv
    obtain ⟨t, ht, hrest⟩ := ih hs' hnd (fun j hj => hlt j (mem_cons_of_mem _ hj)) hfresh'
    refine ⟨t, ht, fun v hv => ⟨fun j hj => ?_, fun j hj => ?_⟩⟩
    · rcases mem_cons.mp hj with rfl | hj
      · rw [((hrest v hv).2 j hk).1]
        exact (hdone v hv).1
      · exact (hrest v hv).1 j hj
    · obtain ⟨hne, hnot⟩ := not_or.mp (mt mem_cons.mpr hj)
      exact ((hdone v hv).2 j hne).trans ((hrest v hv).2 j hnot)

theorem Call.exists_finished (call : Call α) (useGdr : Bool) :
    ∃ s, Reach (call.pushPull useGdr) Free s ∧ call.Finished s := by
  have hstart : Reach (call.pushPull useGdr) Free _ := .init rfl
  obtain ⟨t, ht, hdone⟩ := Call.exists_partitions_finished hstart
    (nodup_range : (range call.tasks.length).Nodup)
    (fun k hk => mem_range.mp hk) (fun _ _ _ _ => rfl)
  exact ⟨t, ht, fun w hw i hi => (hdone w hw).1 i (mem_range.mpr hi)⟩

end Runs

end MegatronDPU.Worker
