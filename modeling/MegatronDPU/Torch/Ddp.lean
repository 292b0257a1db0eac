import MegatronDPU.Lib.Dict
import MegatronDPU.Lib.Raise
import MegatronDPU.Server.Sums

/-!
# `byteps.torch.parallel.DistributedDataParallel`

A backward pass calls a hook for each parameter it used, the hook pushes the gradient, and
`synchronize()` afterwards pushes what has no handle yet and waits for all handles. A counter of the
process finds the last hook, which calls `synchronize()` as well. The last loop of `synchronize`
decompresses with the context that the loop before it has left.

`Replica` is the wrapper on one worker; `training` runs the workers in any interleaving. A wait
returns when every worker has pushed for its round.
-/

namespace MegatronDPU.Torch

open Raise Lts Finset Function List

/-! ## Tensors and compression -/

inductive Dtype
  | uint8
  | int32
  | int64
  | float16
  | bfloat16
  | float32
  | float64
  deriving DecidableEq, Repr

namespace Dtype

/-- `dtype.is_floating_point`. -/
def isFloatingPoint : Dtype → Bool
  | uint8 | int32 | int64 => false
  | float16 | bfloat16 | float32 | float64 => true

/-- `tensor.type()` on a GPU. -/
def typeName : Dtype → String
  | uint8 => "torch.cuda.ByteTensor"
  | int32 => "torch.cuda.IntTensor"
  | int64 => "torch.cuda.LongTensor"
  | float16 => "torch.cuda.HalfTensor"
  | bfloat16 => "torch.cuda.BFloat16Tensor"
  | float32 => "torch.cuda.FloatTensor"
  | float64 => "torch.cuda.DoubleTensor"

/-- The types for which `c_lib` has a function. -/
def bound : List Dtype := [uint8, int32, int64, float16, float32, float64]

end Dtype

/-- A contiguous tensor with contents `V`. -/
structure Tensor (V : Type) where
  dtype : Dtype
  data : V
  deriving DecidableEq

structure Arith (V : Type) where
  /-- `tensor.type(dtype)`, from one type to another. -/
  type : Dtype → Dtype → V → V
  /-- `tensor.div_(n)`. -/
  div : Dtype → V → ℕ → V
  /-- `tensor.floor_divide_(n)`. -/
  floorDivide : Dtype → V → ℕ → V

/-- `byteps.torch.compression.Compressor`. -/
structure Compressor (V : Type) where
  Context : Type
  compress : Tensor V → Tensor V × Context
  decompress : Tensor V → Context → Tensor V

section Compressors

variable {V : Type} (ar : Arith V)

def Tensor.type (t : Tensor V) (dtype : Dtype) : Tensor V := ⟨dtype, ar.type t.dtype dtype t.data⟩

/-- `Compression.none`. -/
def noneCompressor : Compressor V where
  Context := Unit
  compress t := (t, ())
  decompress t _ := t

/-- `Compression.fp16`. -/
def fp16Compressor : Compressor V where
  Context := Dtype
  compress t := (if t.dtype.isFloatingPoint then t.type ar .float16 else t, t.dtype)
  decompress t dtype := if dtype.isFloatingPoint then t.type ar dtype else t

/-- What the callback of `StartTask` does to the sum. -/
def Tensor.average (t : Tensor V) (size : ℕ) : Tensor V :=
  if t.dtype.isFloatingPoint then ⟨t.dtype, ar.div t.dtype t.data size⟩
  else ⟨t.dtype, ar.floorDivide t.dtype t.data size⟩

end Compressors

/-! ## The wrapper on one worker -/

/-- A model on `size` workers: its parameters that require a gradient. -/
structure Job (ι V : Type) where
  size : ℕ
  params : Finset ι
  dtype : ι → Dtype
  /-- Only floating point tensors require gradients. -/
  floating : ∀ p ∈ params, (dtype p).isFloatingPoint = true
  arith : Arith V
  compression : Compressor V

/-- One backward pass of a worker: the parameters it uses, in the order of their hooks, and the
gradients after it. -/
structure Iteration (ι V : Type) where
  hooks : List ι
  gradient : ι → V
  /-- The backward pass is inside `no_sync()`. -/
  noSync : Bool := false

/-- A handle with its context: the round of the name that the push belongs to. -/
structure Handle (Context : Type) where
  round : ℕ
  ctx : Context

inductive Instr (ι Context : Type)
  | hook (p : ι)
  | synchronize
  /-- The body of the loop over `missing_p`. -/
  | push (p : ι)
  /-- The loop that reads `_handles` for `handle` and `ctx`. -/
  | collect
  /-- The body of the last loop of `synchronize`, with the `ctx` it sees. -/
  | wait (p : ι) (round : ℕ) (ctx : Context)
  /-- `self._handles.clear()`. -/
  | clear

structure Replica (ι V Context : Type) where
  grad : ι → Tensor V
  /-- `self._handles`. -/
  handles : Dict ι (Handle Context)
  requireBackwardGradSync : Bool
  /-- `grad_count_` of the process. -/
  gradCount : ℕ
  /-- What was pushed under the name of a parameter, one tensor for each round. -/
  pushed : ι → List (Tensor V)
  /-- The iterations so far, the current one included. -/
  iterations : List (Iteration ι V)
  todo : List (Instr ι Context)

variable {ι V : Type} [DecidableEq ι]

namespace Job

/-- `self._requires_update`; these parameters have hooks. -/
def requiresUpdate (job : Job ι V) : Finset ι := if 1 < job.size then job.params else ∅

/-- `self._num_grads`, which is also `num_grads_` of the process. -/
def numGrads (job : Job ι V) : ℕ := if 1 < job.size then job.params.card else 1

abbrev Worker (job : Job ι V) : Type := Replica ι V job.compression.Context

variable (job : Job ι V)

/-- After `__init__`. -/
def start [Zero V] : job.Worker where
  grad p := ⟨job.dtype p, 0⟩
  handles := .empty
  requireBackwardGradSync := true
  gradCount := 0
  pushed _ := []
  iterations := []
  todo := []

/-- `loss.backward()` of an iteration, and the `synchronize()` after it. -/
def backward (r : job.Worker) (it : Iteration ι V) : job.Worker :=
  { r with
    grad := fun p => ⟨job.dtype p, it.gradient p⟩
    requireBackwardGradSync := !it.noSync
    iterations := r.iterations ++ [it]
    todo := (if 1 < job.size then it.hooks.map .hook else []) ++ [.synchronize] }

/-- `_push_pull_grad_group_sync` with `DoPushPullGroupSync`, and then
`self._handles[p] = (handle, ctx)`, as both callers do. Returns `grad_count` too. -/
def pushPullGradGroupSync (r : job.Worker) (p : ι) : Except PyError (job.Worker × ℕ) :=
  let compressed := job.compression.compress (r.grad p)
  require (compressed.1.dtype ∈ Dtype.bound)
      (.valueError ("Tensor type " ++ compressed.1.dtype.typeName ++ " is not supported.")) >>=
    fun _ =>
      .ok ({ r with
        handles := r.handles.set p ⟨(r.pushed p).length, compressed.2⟩
        gradCount := if r.gradCount + 1 = job.numGrads then 0 else r.gradCount + 1
        pushed := update r.pushed p (r.pushed p ++ [compressed.1]) }, r.gradCount + 1)

/-- The waits of the last loop of `synchronize`. Its `ctx` is the one that the loop before has
read last. -/
def waits (r : job.Worker) : List (Instr ι job.compression.Context) :=
  match r.handles.entries.getLast? with
  | none => []
  | some (_, last) => r.handles.entries.map fun entry => .wait entry.1 entry.2.round last.ctx

section System

variable [AddCommMonoid V]

/-- The output of a push: the average of what the workers have pushed in its round. -/
def output (s : Fin job.size → job.Worker) (w : Fin job.size) (p : ι) (round : ℕ) :
    Option (Tensor V) :=
  ((s w).pushed p)[round]?.map fun own =>
    Tensor.average job.arith
      ⟨own.dtype, ∑ v, ((((s v).pushed p)[round]?).map Tensor.data).getD 0⟩ job.size

/-- One instruction of worker `w`; `order` is the order in which a set is iterated over. Fails if
the code raises or has to wait. -/
def perform (s : Fin job.size → job.Worker) (w : Fin job.size) (order : List ι)
    (rest : List (Instr ι job.compression.Context)) :
    Instr ι job.compression.Context → Option job.Worker
  | .hook p =>
    if (s w).requireBackwardGradSync then
      (job.pushPullGradGroupSync (s w) p).toOption.map fun result =>
        -- the hook that completes the count synchronises
        { result.1 with todo := if result.2 = job.numGrads then .synchronize :: rest else rest }
    else some { s w with todo := rest }
  | .synchronize =>
    if order.Nodup ∧
        order.toFinset = job.requiresUpdate \ ((s w).handles.entries.map Prod.fst).toFinset then
      some { s w with todo := order.map .push ++ .collect :: rest }
    else none
  | .push p =>
    (job.pushPullGradGroupSync (s w) p).toOption.map fun result => { result.1 with todo := rest }
  | .collect => some { s w with todo := job.waits (s w) ++ .clear :: rest }
  | .wait p round ctx =>
    if ∀ v, round < ((s v).pushed p).length then
      (job.output s w p round).map fun output =>
        { s w with
          grad := update (s w).grad p (job.compression.decompress output ctx)
          todo := rest }
    else none
  | .clear => some { s w with handles := .empty, todo := rest }

/-- A worker starts its next iteration, or performs its next instruction. -/
inductive Label (ι V : Type) (size : ℕ)
  | backward (w : Fin size) (it : Iteration ι V)
  | perform (w : Fin size) (order : List ι)

def step (s : Fin job.size → job.Worker) : Label ι V job.size → Option (Fin job.size → job.Worker)
  | .backward w it =>
    if (s w).todo.isEmpty ∧ it.hooks.Nodup ∧ ∀ p ∈ it.hooks, p ∈ job.params then
      some (update s w (job.backward (s w) it))
    else none
  | .perform w order =>
    match (s w).todo with
    | [] => none
    | instr :: rest => (job.perform s w order rest instr).map (update s w)

def training : System (Fin job.size → job.Worker) (Label ι V job.size) where
  init s := s = fun _ => job.start
  step := job.step

end System

/-! ## One push for each iteration -/

def payload (it : Iteration ι V) (p : ι) : Tensor V :=
  (job.compression.compress ⟨job.dtype p, it.gradient p⟩).1

def context (it : Iteration ι V) (p : ι) : job.compression.Context :=
  (job.compression.compress ⟨job.dtype p, it.gradient p⟩).2

/-- A backward pass that synchronises leaves out a parameter. -/
def PartlyUsed (_ : Fin job.size → job.Worker) : Label ι V job.size → Prop
  | .backward _ it => it.noSync = true ∨ job.params = ∅ ∨ ∃ p ∈ job.params, p ∉ it.hooks
  | .perform _ _ => True

structure Regular : Prop where
  several : job.params = ∅ ∨ 1 < job.size
  bound : ∀ p ∈ job.params, ∀ x, (job.compression.compress ⟨job.dtype p, x⟩).1.dtype ∈ Dtype.bound
  context : ∀ p ∈ job.params, ∀ q ∈ job.params, ∀ x y,
    (job.compression.compress ⟨job.dtype p, x⟩).2 = (job.compression.compress ⟨job.dtype q, y⟩).2

/-- In the iteration `it` after the iterations `old`, the parameters `done` have been pushed. -/
structure Pushing (r : job.Worker) (old : List (Iteration ι V)) (it : Iteration ι V)
    (done : List ι) : Prop where
  iterations : r.iterations = old ++ [it]
  nodup : done.Nodup
  mem : ∀ p ∈ done, p ∈ job.params
  handles : r.handles.entries = done.map fun p => (p, ⟨old.length, job.context it p⟩)
  gradCount : r.gradCount = if done.length = job.params.card then 0 else done.length
  pushed : ∀ p ∈ job.params,
    r.pushed p = old.map (job.payload · p) ++ if p ∈ done then [job.payload it p] else []

def Computed (r : job.Worker) (it : Iteration ι V) : Prop :=
  ∀ p ∈ job.params, r.grad p = ⟨job.dtype p, it.gradient p⟩

variable {job} {s t : Fin job.size → job.Worker} {w : Fin job.size} {r r' : job.Worker}
  {old : List (Iteration ι V)} {it : Iteration ι V} {done rest order : List ι} {p : ι}

section

omit [DecidableEq ι]

theorem Regular.requiresUpdate (hreg : job.Regular) : job.requiresUpdate = job.params := by
  unfold Job.requiresUpdate
  rcases hreg.several with h | h
  · rw [h, ite_self]
  · rw [if_pos h]

theorem Regular.numGrads (hreg : job.Regular) (hp : p ∈ job.params) :
    job.numGrads = job.params.card := by
  rcases hreg.several with h | h
  · rw [h] at hp
    cases hp
  · exact if_pos h

end

/-! ### Pushes -/

theorem length_lt_card (hnd : done.Nodup) (hmem : ∀ q ∈ done, q ∈ job.params)
    (hp : p ∈ job.params) (hnot : p ∉ done) : done.length < job.params.card := by
  rw [← toFinset_card_of_nodup hnd]
  refine card_lt_card (Finset.ssubset_iff_subset_ne.mpr ⟨fun q hq => ?_, fun heq => ?_⟩)
  · exact hmem q (mem_toFinset.mp hq)
  · rw [← heq, mem_toFinset] at hp
    exact hnot hp

theorem Pushing.of_eq (h : job.Pushing r old it done) (hit : r'.iterations = r.iterations)
    (hh : r'.handles = r.handles) (hc : r'.gradCount = r.gradCount) (hp : r'.pushed = r.pushed) :
    job.Pushing r' old it done :=
  ⟨hit.trans h.iterations, h.nodup, h.mem, (congrArg Dict.entries hh).trans h.handles,
    hc.trans h.gradCount, fun p hmem => (congrFun hp p).trans (h.pushed p hmem)⟩

/-- The hook of a parameter pushes the payload of its iteration. -/
theorem Pushing.push (hreg : job.Regular) (h : job.Pushing r old it done)
    (hc : job.Computed r it) (hp : p ∈ job.params) (hnot : p ∉ done) :
    ∃ r', job.pushPullGradGroupSync r p = .ok (r', done.length + 1) ∧
      job.Pushing r' old it (done ++ [p]) ∧ r'.grad = r.grad ∧
      r'.requireBackwardGradSync = r.requireBackwardGradSync := by
  have hlt := length_lt_card h.nodup h.mem hp hnot
  have hcount : r.gradCount = done.length := by rw [h.gradCount, if_neg hlt.ne]
  have hold : r.pushed p = old.map (job.payload · p) := by
    rw [h.pushed p hp, if_neg hnot, append_nil]
  have hlen : (r.pushed p).length = old.length := by rw [hold, length_map]
  unfold pushPullGradGroupSync
  rw [hc p hp]
  rw [require_bind (hreg.bound p hp _), hcount]
  refine ⟨_, rfl, ⟨h.iterations, ?_, ?_, ?_, ?_, ?_⟩, rfl, rfl⟩
  · rw [← concat_eq_append]
    exact h.nodup.concat hnot
  · intro q hq
    rcases mem_append.mp hq with hq | hq
    · exact h.mem q hq
    · exact List.mem_singleton.mp hq ▸ hp
  · have hnew : p ∉ r.handles.entries.map Prod.fst := by
      rw [h.handles, List.map_map]
      simpa using hnot
    rw [Dict.entries_set_of_notMem hnew, h.handles, hlen, map_append]
    rfl
  · rw [hreg.numGrads hp, length_append]
    rfl
  · intro q hq
    dsimp only
    by_cases heq : q = p
    · subst heq
      rw [update_self, hold, if_pos (by simp)]
      rfl
    · rw [update_of_ne heq, h.pushed q hq]
      simp [heq]

theorem Pushing.waits (hreg : job.Regular) (h : job.Pushing r old it done) :
    job.waits r = done.map fun p => .wait p old.length (job.context it p) := by
  unfold Job.waits
  rw [h.handles, getLast?_map]
  cases hlast : done.getLast? with
  | none =>
    rw [getLast?_eq_none_iff] at hlast
    subst hlast
    rfl
  | some q =>
    have hq := h.mem q (mem_of_getLast? hlast)
    rw [Option.map_some]
    dsimp only
    rw [List.map_map]
    refine map_congr_left fun p hp => ?_
    exact congrArg (Instr.wait p old.length) (hreg.context q hq p (h.mem p hp) _ _)

theorem Pushing.pushed_all (h : job.Pushing r old it done) (hall : done.toFinset = job.params)
    (hp : p ∈ job.params) : r.pushed p = r.iterations.map (job.payload · p) := by
  rw [← hall, mem_toFinset] at hp
  rw [h.pushed p (h.mem p hp), if_pos hp, h.iterations, map_append]
  rfl

/-! ### Phases -/

section Phases

variable [AddCommMonoid V]

variable (job) in
/-- The average of one iteration of each worker, decompressed with the parameter's own context on
worker `w`. -/
def reduced (w : Fin job.size) (its : Fin job.size → Iteration ι V) (p : ι) : Tensor V :=
  job.compression.decompress
    (Tensor.average job.arith ⟨(job.payload (its w) p).dtype, ∑ v, (job.payload (its v) p).data⟩
      job.size)
    (job.context (its w) p)

variable (job) in
/-- The gradient of `p` on worker `w` is that of iteration `i` of all workers. -/
def Averaged (its : Fin job.size → List (Iteration ι V)) (w : Fin job.size) (r : job.Worker)
    (i : ℕ) (p : ι) : Prop :=
  ∃ round : Fin job.size → Iteration ι V,
    (∀ v, (its v)[i]? = some (round v)) ∧ r.grad p = job.reduced w round p

variable (job) in
/-- Where worker `w` is in its iteration. -/
inductive Phase (its : Fin job.size → List (Iteration ι V)) (w : Fin job.size) (r : job.Worker) :
    Prop
  | idle (todo : r.todo = []) (handles : r.handles.entries = []) (gradCount : r.gradCount = 0)
      (pushed : ∀ p ∈ job.params, r.pushed p = r.iterations.map (job.payload · p))
      (grad : ∀ old it, r.iterations = old ++ [it] →
        ∀ p ∈ job.params, job.Averaged its w r old.length p)
  | backward (old : List (Iteration ι V)) (it : Iteration ι V) (done rest : List ι)
      (todo : r.todo = rest.map .hook ++ [.synchronize])
      (pushing : job.Pushing r old it done) (computed : job.Computed r it)
      (sync : r.requireBackwardGradSync = !it.noSync)
      (hooks : (done ++ rest).Sublist it.hooks) (nodup : it.hooks.Nodup)
      (mem : ∀ p ∈ it.hooks, p ∈ job.params)
      (partly : it.noSync = true ∨ job.params = ∅ ∨ ∃ p ∈ job.params, p ∉ it.hooks)
  | missing (old : List (Iteration ι V)) (it : Iteration ι V) (done rest : List ι)
      (todo : r.todo = rest.map .push ++ [.collect])
      (pushing : job.Pushing r old it done) (computed : job.Computed r it)
      (nodup : (done ++ rest).Nodup) (all : (done ++ rest).toFinset = job.params)
  | waiting (old : List (Iteration ι V)) (it : Iteration ι V) (done rest : List ι)
      (todo : r.todo = (rest.map fun p => .wait p old.length (job.context it p)) ++ [.clear])
      (pushing : job.Pushing r old it (done ++ rest))
      (all : (done ++ rest).toFinset = job.params)
      (grad : ∀ p ∈ done, job.Averaged its w r old.length p)

variable {its its' : Fin job.size → List (Iteration ι V)}

theorem Phase.pushed_getElem? (h : job.Phase its w r) (hp : p ∈ job.params) {i : ℕ}
    (hi : i < (r.pushed p).length) :
    ∃ it, r.iterations[i]? = some it ∧ (r.pushed p)[i]? = some (job.payload it p) := by
  have hprefix : r.pushed p <+: r.iterations.map (job.payload · p) := by
    have hpush : ∀ {old it done}, job.Pushing r old it done →
        r.pushed p <+: r.iterations.map (job.payload · p) := by
      intro old it done h
      rw [h.pushed p hp, h.iterations, map_append]
      split_ifs
      · exact prefix_rfl
      · rw [append_nil]
        exact prefix_append _ _
    cases h with
    | idle _ _ _ pushed _ => exact pushed p hp ▸ prefix_rfl
    | backward _ _ _ _ _ pushing | missing _ _ _ _ _ pushing | waiting _ _ _ _ _ pushing =>
      exact hpush pushing
  have hsome := prefix_iff_getElem?.mp hprefix i hi
  rw [getElem?_map, Option.map_eq_some_iff] at hsome
  obtain ⟨it, hit, heq⟩ := hsome
  exact ⟨it, hit, by rw [getElem?_eq_getElem hi, heq]⟩

omit [DecidableEq ι] in
theorem Averaged.mono {i : ℕ} (h : job.Averaged its w r i p) (hits : ∀ v, its v <+: its' v) :
    job.Averaged its' w r i p := by
  obtain ⟨round, hround, hgrad⟩ := h
  refine ⟨round, fun v => ?_, hgrad⟩
  obtain ⟨hlt, heq⟩ := List.getElem?_eq_some_iff.mp (hround v)
  rw [prefix_iff_getElem?.mp (hits v) i hlt, heq]

theorem Phase.mono (h : job.Phase its w r) (hits : ∀ v, its v <+: its' v) : job.Phase its' w r := by
  cases h with
  | idle todo handles gradCount pushed grad =>
    exact .idle todo handles gradCount pushed fun old it h p hp => (grad old it h p hp).mono hits
  | backward old it done rest todo pushing computed sync hooks nodup mem partly =>
    exact .backward old it done rest todo pushing computed sync hooks nodup mem partly
  | missing old it done rest todo pushing computed nodup all =>
    exact .missing old it done rest todo pushing computed nodup all
  | waiting old it done rest todo pushing all grad =>
    exact .waiting old it done rest todo pushing all fun p hp => (grad p hp).mono hits

/-! ### Steps -/

variable (job) in
/-- A bound for the number of instructions that an instruction leads to. -/
def weight : Instr ι job.compression.Context → ℕ
  | .hook _ | .push _ | .wait _ _ _ | .clear => 1
  | .collect => job.params.card + 2
  | .synchronize => 2 * job.params.card + 4

variable (job) in
def remaining (r : job.Worker) : ℕ := (r.todo.map job.weight).sum

omit [DecidableEq ι] [AddCommMonoid V] in
theorem remaining_lt {instr : Instr ι job.compression.Context}
    {todo : List (Instr ι job.compression.Context)}
    (new : List (Instr ι job.compression.Context)) (h : r.todo = instr :: todo)
    (h' : r'.todo = new ++ todo) (hw : (new.map job.weight).sum < job.weight instr) :
    job.remaining r' < job.remaining r := by
  unfold remaining
  rw [h, h', map_append, sum_append, List.map_cons, List.sum_cons]
  omega

omit [AddCommMonoid V] in
theorem hook_count_ne (hreg : job.Regular) (hooks : (done ++ p :: rest).Sublist it.hooks)
    (nodup : it.hooks.Nodup) (mem : ∀ p ∈ it.hooks, p ∈ job.params)
    (hout : ∃ q ∈ job.params, q ∉ it.hooks) : done.length + 1 ≠ job.numGrads := by
  obtain ⟨q, hq, hnot⟩ := hout
  have hlen := hooks.length_le
  have hcard := length_lt_card nodup mem hq hnot
  rw [hreg.numGrads hq]
  rw [length_append, length_cons] at hlen
  omega

/-- What an instruction leads to: the next phase of the same iteration, with less to do. -/
structure Next (its : Fin job.size → List (Iteration ι V)) (w : Fin job.size) (r r' : job.Worker) :
    Prop where
  phase : job.Phase its w r'
  iterations : r'.iterations = r.iterations
  remaining : job.remaining r' < job.remaining r

section Perform

variable (its) (order) (hreg : job.Regular) (pushing : job.Pushing (s w) old it done)

include hreg pushing

theorem next_hook (htodo : (s w).todo = .hook p :: (rest.map .hook ++ [.synchronize]))
    (computed : job.Computed (s w) it)
    (sync : (s w).requireBackwardGradSync = !it.noSync)
    (hooks : (done ++ p :: rest).Sublist it.hooks) (nodup : it.hooks.Nodup)
    (mem : ∀ p ∈ it.hooks, p ∈ job.params)
    (partly : it.noSync = true ∨ job.params = ∅ ∨ ∃ p ∈ job.params, p ∉ it.hooks) :
    ∃ r', job.perform s w order (rest.map .hook ++ [.synchronize]) (.hook p) = some r' ∧
      Next its w (s w) r' := by
  have hp : p ∈ job.params := mem p (hooks.subset (by simp))
  unfold Job.perform
  dsimp only
  cases hno : it.noSync with
  | true =>
    have hsub : (done ++ rest).Sublist it.hooks :=
      ((sublist_cons_self p rest).append_left done).trans hooks
    have hreq : ¬(s w).requireBackwardGradSync = true := by rw [sync, hno]; decide
    rw [if_neg hreq]
    refine ⟨_, rfl, ?_, rfl, remaining_lt [] htodo rfl one_pos⟩
    exact .backward old it done rest rfl (pushing.of_eq rfl rfl rfl rfl) computed sync hsub nodup
      mem partly
  | false =>
    have hout : ∃ q ∈ job.params, q ∉ it.hooks := by
      rcases partly with h | h | h
      · rw [hno] at h
        cases h
      · rw [h] at hp
        cases hp
      · exact h
    have hnot : p ∉ done := by
      have hnd := nodup.sublist hooks
      rw [nodup_append] at hnd
      exact fun hmem => hnd.2.2 p hmem p (by simp) rfl
    have hsub : (done ++ [p] ++ rest).Sublist it.hooks := by
      rw [append_assoc]
      exact hooks
    obtain ⟨r', hr', hpush, hgrad, hreq⟩ := pushing.push hreg computed hp hnot
    rw [if_pos (by rw [sync, hno]; decide), hr']
    have hcount := hook_count_ne hreg hooks nodup mem hout
    refine ⟨_, rfl, ?_, ?_, remaining_lt [] htodo (if_neg hcount) one_pos⟩
    · exact .backward old it (done ++ [p]) rest (if_neg hcount) (hpush.of_eq rfl rfl rfl rfl)
        (fun q hq => (congrFun hgrad q).trans (computed q hq)) (hreq.trans sync) hsub nodup mem
        partly
    · exact hpush.iterations.trans pushing.iterations.symm

theorem next_synchronize (htodo : (s w).todo = [.synchronize]) (computed : job.Computed (s w) it)
    (horder : order.Nodup ∧ order.toFinset =
      job.requiresUpdate \ ((s w).handles.entries.map Prod.fst).toFinset) :
    ∃ r', job.perform s w order [] .synchronize = some r' ∧ Next its w (s w) r' := by
  unfold Job.perform
  rw [if_pos horder]
  obtain ⟨hnd, hset⟩ := horder
  have hkeys : (s w).handles.entries.map Prod.fst = done := by
    rw [pushing.handles, List.map_map]
    exact map_id'' (fun _ => rfl) done
  rw [hreg.requiresUpdate, hkeys] at hset
  have hdisj : ∀ p ∈ done, ∀ q ∈ order, p ≠ q := by
    rintro p hp q hq rfl
    rw [← mem_toFinset, hset, mem_sdiff, mem_toFinset] at hq
    exact hq.2 hp
  have hlen : order.length ≤ job.params.card := by
    rw [← toFinset_card_of_nodup hnd, hset]
    exact card_le_card sdiff_subset
  refine ⟨_, rfl, ?_, rfl, remaining_lt (order.map .push ++ [.collect]) htodo
    (by rw [append_assoc]; rfl) ?_⟩
  · refine .missing old it done order rfl (pushing.of_eq rfl rfl rfl rfl) computed
      (nodup_append.mpr ⟨pushing.nodup, hnd, hdisj⟩) ?_
    rw [toFinset_append, hset, union_sdiff_of_subset]
    exact fun p hp => pushing.mem p (mem_toFinset.mp hp)
  · simp [weight, comp_def]
    omega

theorem next_push (htodo : (s w).todo = .push p :: (rest.map .push ++ [.collect]))
    (computed : job.Computed (s w) it)
    (nodup : (done ++ p :: rest).Nodup) (all : (done ++ p :: rest).toFinset = job.params) :
    ∃ r', job.perform s w order (rest.map .push ++ [.collect]) (.push p) = some r' ∧
      Next its w (s w) r' := by
  have hp : p ∈ job.params := by
    rw [← all]
    simp
  have hnot : p ∉ done := fun hmem => (nodup_append.mp nodup).2.2 p hmem p (by simp) rfl
  obtain ⟨r', hr', hpush, hgrad, -⟩ := pushing.push hreg computed hp hnot
  unfold Job.perform
  dsimp only
  rw [hr']
  have hassoc : done ++ p :: rest = done ++ [p] ++ rest := by rw [append_assoc]; rfl
  rw [hassoc] at nodup all
  refine ⟨_, rfl, ?_, hpush.iterations.trans pushing.iterations.symm,
    remaining_lt [] htodo rfl one_pos⟩
  exact .missing old it (done ++ [p]) rest rfl (hpush.of_eq rfl rfl rfl rfl)
    (fun q hq => (congrFun hgrad q).trans (computed q hq)) nodup all

theorem next_collect (htodo : (s w).todo = [.collect]) (all : done.toFinset = job.params) :
    ∃ r', job.perform s w order [] .collect = some r' ∧ Next its w (s w) r' := by
  unfold Job.perform
  rw [pushing.waits hreg]
  have hlen : done.length = job.params.card := by
    rw [← all, toFinset_card_of_nodup pushing.nodup]
  refine ⟨_, rfl, ?_, rfl, remaining_lt
    ((done.map fun p => .wait p old.length (job.context it p)) ++ [.clear]) htodo
    (by rw [append_nil]) ?_⟩
  · exact .waiting old it [] done rfl (pushing.of_eq rfl rfl rfl rfl) all (by simp)
  · simp [weight, comp_def]
    omega

section

omit hreg pushing

theorem next_clear (htodo : (s w).todo = [.clear]) (pushing : job.Pushing (s w) old it done)
    (all : done.toFinset = job.params) (grad : ∀ p ∈ done, job.Averaged its w (s w) old.length p) :
    ∃ r', job.perform s w order [] .clear = some r' ∧ Next its w (s w) r' := by
  have hlen : done.length = job.params.card := by
    rw [← all, toFinset_card_of_nodup pushing.nodup]
  refine ⟨_, rfl, ?_, rfl, remaining_lt [] htodo rfl one_pos⟩
  refine .idle rfl rfl (pushing.gradCount.trans (if_pos hlen))
    (fun p hp => pushing.pushed_all all hp) fun old' it' heq p hp => ?_
  have hold : old' = old := append_inj_left' (heq.symm.trans pushing.iterations) rfl
  rw [← all, mem_toFinset] at hp
  rw [hold]
  exact grad p hp

theorem next_wait (hphase : ∀ v, job.Phase (fun v => (s v).iterations) v (s v))
    (htodo : (s w).todo = .wait p old.length (job.context it p) ::
      ((rest.map fun p => .wait p old.length (job.context it p)) ++ [.clear]))
    (pushing : job.Pushing (s w) old it (done ++ p :: rest))
    (all : (done ++ p :: rest).toFinset = job.params)
    (grad : ∀ p ∈ done, job.Averaged (fun v => (s v).iterations) w (s w) old.length p)
    (hpushed : ∀ v, old.length < ((s v).pushed p).length) :
    ∃ r', job.perform s w order
        ((rest.map fun p => .wait p old.length (job.context it p)) ++ [.clear])
        (.wait p old.length (job.context it p)) = some r' ∧
      Next (fun v => (s v).iterations) w (s w) r' := by
  have hp : p ∈ job.params := pushing.mem p (by simp)
  choose round hround hpay using fun v => (hphase v).pushed_getElem? hp (hpushed v)
  have hown : round w = it := by
    have hlast := hround w
    rw [pushing.iterations, getElem?_concat_length] at hlast
    exact (Option.some.inj hlast).symm
  have houtput : job.output s w p old.length = some (Tensor.average job.arith
      ⟨(job.payload (round w) p).dtype, ∑ v, (job.payload (round v) p).data⟩ job.size) := by
    unfold Job.output
    simp only [hpay, Option.map_some, Option.getD_some]
  unfold Job.perform
  dsimp only
  rw [if_pos hpushed, houtput]
  have hassoc : done ++ p :: rest = done ++ [p] ++ rest := by rw [append_assoc]; rfl
  have hnot : p ∉ done := fun hmem =>
    (nodup_append.mp pushing.nodup).2.2 p hmem p (by simp) rfl
  rw [hassoc] at pushing all
  refine ⟨_, rfl, ?_, rfl, remaining_lt [] htodo rfl one_pos⟩
  refine .waiting old it (done ++ [p]) rest rfl (pushing.of_eq rfl rfl rfl rfl) all fun q hq => ?_
  rcases mem_append.mp hq with hdone | hq
  · obtain ⟨round', hround', hgrad⟩ := grad q hdone
    have hne : q ≠ p := by
      rintro rfl
      exact hnot hdone
    refine ⟨round', hround', ?_⟩
    rw [← hgrad]
    exact update_of_ne hne _ _
  · obtain rfl := List.mem_singleton.mp hq
    refine ⟨round, hround, ?_⟩
    rw [reduced, hown]
    exact update_self _ _ _

end

end Perform

variable (job) in
def Inv (s : Fin job.size → job.Worker) : Prop :=
  ∀ w, job.Phase (fun v => (s v).iterations) w (s w)

theorem next_of_perform (hreg : job.Regular) (h : job.Inv s)
    {instr : Instr ι job.compression.Context} {todo : List (Instr ι job.compression.Context)}
    (htodo : (s w).todo = instr :: todo) (hr : job.perform s w order todo instr = some r') :
    Next (fun v => (s v).iterations) w (s w) r' := by
  -- a step that is known to lead to a next phase is this one
  have key : ∀ {i l}, (s w).todo = i :: l →
      (∃ r, job.perform s w order l i = some r ∧ Next (fun v => (s v).iterations) w (s w) r) →
      Next (fun v => (s v).iterations) w (s w) r' := by
    rintro i l hil ⟨r, hperf, hnext⟩
    obtain ⟨rfl, rfl⟩ := List.cons.inj (htodo.symm.trans hil)
    exact Option.some.inj (hperf.symm.trans hr) ▸ hnext
  cases h w with
  | idle htodo' => cases htodo.symm.trans htodo'
  | backward old it done rest htodo' pushing computed sync hooks nodup mem partly =>
    cases rest with
    | nil =>
      obtain ⟨rfl, rfl⟩ := List.cons.inj (htodo.symm.trans htodo')
      refine key htodo' (next_synchronize _ _ hreg pushing htodo' computed ?_)
      unfold Job.perform at hr
      dsimp only at hr
      split_ifs at hr with horder
      exact horder
    | cons p rest =>
      exact key htodo' (next_hook _ _ hreg pushing htodo' computed sync hooks nodup mem partly)
  | missing old it done rest htodo' pushing computed nodup all =>
    cases rest with
    | nil =>
      rw [append_nil] at all
      exact key htodo' (next_collect _ _ hreg pushing htodo' all)
    | cons p rest => exact key htodo' (next_push _ _ hreg pushing htodo' computed nodup all)
  | waiting old it done rest htodo' pushing all grad =>
    cases rest with
    | nil =>
      rw [append_nil] at all pushing
      exact key htodo' (next_clear _ _ htodo' pushing all grad)
    | cons p rest =>
      obtain ⟨rfl, rfl⟩ := List.cons.inj (htodo.symm.trans htodo')
      refine key htodo' (next_wait _ h htodo' pushing all grad ?_)
      unfold Job.perform at hr
      dsimp only at hr
      split_ifs at hr with hpushed
      exact hpushed

theorem phase_backward (h : job.Phase its w r) (htodo : r.todo = [])
    (nodup : it.hooks.Nodup) (mem : ∀ p ∈ it.hooks, p ∈ job.params)
    (partly : it.noSync = true ∨ job.params = ∅ ∨ ∃ p ∈ job.params, p ∉ it.hooks) :
    job.Phase its' w (job.backward r it) := by
  cases h with
  | idle _ handles gradCount pushed _ =>
    refine .backward r.iterations it [] (if 1 < job.size then it.hooks else []) ?_
      ⟨rfl, nodup_nil, by simp, handles, ?_, fun p hp => ?_⟩ (fun _ _ => rfl) rfl ?_ nodup mem
      partly
    · show _ ++ _ = _ ++ _
      split_ifs <;> rfl
    · rw [length_nil, ite_self]
      exact gradCount
    · rw [if_neg (by simp), append_nil]
      exact pushed p hp
    · split_ifs
      · exact List.Sublist.refl _
      · exact nil_sublist _
  | backward _ _ _ _ htodo' | missing _ _ _ _ htodo' | waiting _ _ _ _ htodo' =>
    simp [htodo] at htodo'

theorem inv_start : job.Inv fun _ => job.start :=
  fun _ => .idle rfl rfl rfl (fun _ _ => rfl) fun old it h => by simp [start] at h

theorem inv_update (h : job.Inv s) (hits : (s w).iterations <+: r'.iterations)
    (hphase : job.Phase (fun v => (update s w r' v).iterations) w r') :
    job.Inv (update s w r') := by
  intro v
  by_cases hv : v = w
  · subst hv
    rw [update_self]
    exact hphase
  · rw [update_of_ne hv]
    refine (h v).mono fun u => ?_
    by_cases hu : u = w
    · subst hu
      rw [update_self]
      exact hits
    · rw [update_of_ne hu]

omit [DecidableEq ι] [AddCommMonoid V] in
theorem iterations_update (hit : r'.iterations = (s w).iterations) :
    (fun v => (update s w r' v).iterations) = fun v => (s v).iterations := by
  funext v
  by_cases hv : v = w
  · subst hv
    rw [update_self, hit]
  · rw [update_of_ne hv]

theorem inv_step (hreg : job.Regular) (h : job.Inv s) {a : Label ι V job.size}
    (hg : job.PartlyUsed s a) (hstep : job.step s a = some t) : job.Inv t := by
  cases a with
  | backward w it =>
    unfold step at hstep
    dsimp only at hstep
    split_ifs at hstep with hc
    obtain rfl := Option.some.inj hstep
    obtain ⟨htodo, nodup, mem⟩ := hc
    exact inv_update h (prefix_append _ _)
      (phase_backward (h w) (List.isEmpty_iff.mp htodo) nodup mem hg)
  | perform w order =>
    unfold step at hstep
    dsimp only at hstep
    cases htodo : (s w).todo with
    | nil => rw [htodo] at hstep; cases hstep
    | cons instr rest =>
      rw [htodo] at hstep
      obtain ⟨r', hr, rfl⟩ := Option.map_eq_some_iff.mp hstep
      have hnext := next_of_perform hreg h htodo hr
      refine inv_update h (hnext.iterations ▸ prefix_rfl) ?_
      rw [iterations_update hnext.iterations]
      exact hnext.phase

/-- The invariant holds in every reachable state. -/
theorem inv_of_reach (hreg : job.Regular) (h : Reach job.training job.PartlyUsed s) :
    job.Inv s := by
  refine h.invariant (P := job.Inv) ?_ fun _ _ _ hi hg hs => inv_step hreg hi hg hs
  rintro _ rfl
  exact inv_start

/-! ### Progress -/

variable (job) in
/-- The next instruction of worker `w` can be performed. -/
def Enabled (s : Fin job.size → job.Worker) (w : Fin job.size) : Prop :=
  ∃ order instr todo r', (s w).todo = instr :: todo ∧
    job.perform s w order todo instr = some r'

/-- A worker can go on, or all its pushes are done and it waits for those of the others. -/
theorem Phase.enabled (hreg : job.Regular) (h : job.Inv s) (w : Fin job.size) : job.Enabled s w ∨
      ((∀ p ∈ job.params, (s w).pushed p = (s w).iterations.map (job.payload · p)) ∧
        ((s w).todo ≠ [] →
          (∀ v, ∀ p ∈ job.params, (s w).iterations.length ≤ ((s v).pushed p).length) →
          job.Enabled s w)) := by
  have enabled : ∀ {order i l}, (s w).todo = i :: l →
      (∃ r, job.perform s w order l i = some r ∧ Next (fun v => (s v).iterations) w (s w) r) →
      job.Enabled s w := by
    rintro order i l htodo ⟨r, hr, -⟩
    exact ⟨_, _, _, r, htodo, hr⟩
  cases h w with
  | idle todo _ _ pushed => exact .inr ⟨pushed, fun hbusy => absurd todo hbusy⟩
  | backward old it done rest todo pushing computed sync hooks nodup mem partly =>
    left
    cases rest with
    | nil =>
      exact enabled todo (next_synchronize _ _ hreg pushing todo computed
        ⟨nodup_toList _, toList_toFinset _⟩)
    | cons p rest =>
      exact enabled todo (next_hook [] _ hreg pushing todo computed sync hooks nodup mem partly)
  | missing old it done rest todo pushing computed nodup all =>
    left
    cases rest with
    | nil =>
      rw [append_nil] at all
      exact enabled todo (next_collect [] _ hreg pushing todo all)
    | cons p rest => exact enabled todo (next_push [] _ hreg pushing todo computed nodup all)
  | waiting old it done rest todo pushing all grad =>
    refine .inr ⟨fun p hp => pushing.pushed_all all hp, fun _ hready => ?_⟩
    cases rest with
    | nil => exact ⟨[], _, _, _, todo, rfl⟩
    | cons p rest =>
      have hp : p ∈ job.params := pushing.mem p (by simp)
      have hpushed : ∀ v, old.length < ((s v).pushed p).length := by
        intro v
        have hlen := hready v p hp
        rw [pushing.iterations, length_append] at hlen
        exact hlen
      exact enabled todo (next_wait [] h todo pushing all grad hpushed)

variable (job) in
def Performs (s t : Fin job.size → job.Worker) : Prop :=
  ∃ w order, job.step s (.perform w order) = some t

section

variable (hreg : job.Regular) (h : job.Inv s)
  (heq : ∀ v w, (s v).iterations.length = (s w).iterations.length)
include hreg h heq

theorem exists_performs (hbusy : (s w).todo ≠ []) :
    ∃ v r', job.Performs s (update s v r') ∧
      Next (fun v => (s v).iterations) v (s v) r' := by
  have henabled : ∃ v, job.Enabled s v := by
    by_contra hno
    rw [not_exists] at hno
    have hready : ∀ v, ∀ p ∈ job.params, (s w).iterations.length ≤ ((s v).pushed p).length := by
      intro v p hp
      obtain ⟨hpushed, -⟩ := (Phase.enabled hreg h v).resolve_left (hno v)
      rw [hpushed p hp, length_map, heq w v]
    exact hno w (((Phase.enabled hreg h w).resolve_left (hno w)).2 hbusy hready)
  obtain ⟨v, order, instr, todo, r', htodo, hr⟩ := henabled
  refine ⟨v, r', ⟨v, order, ?_⟩, next_of_perform hreg h htodo hr⟩
  unfold step
  dsimp only
  rw [htodo]
  exact congrArg (Option.map (update s v)) hr

/-- The run lemma: the workers come to the end of a common iteration. -/
theorem exists_run_idle : ∃ t, Relation.ReflTransGen job.Performs s t ∧
      ∀ w, (t w).todo = [] ∧ (t w).iterations = (s w).iterations := by
  -- on what the workers have still to do
  induction hn : ∑ w, job.remaining (s w) using Nat.strong_induction_on generalizing s with
  | _ n ih =>
    by_cases hidle : ∀ w, (s w).todo = []
    · exact ⟨s, .refl, fun w => ⟨hidle w, rfl⟩⟩
    obtain ⟨w, hbusy⟩ := not_forall.mp hidle
    obtain ⟨v, r', hperf, hnext⟩ := exists_performs hreg h heq hbusy
    have hits := iterations_update hnext.iterations
    have hless : ∑ w, job.remaining (update s v r' w) < n := by
      rw [← hn]
      refine sum_lt_sum (fun u _ => ?_) ⟨v, mem_univ v, ?_⟩
      · by_cases hu : u = v
        · subst hu
          rw [update_self]
          exact hnext.remaining.le
        · rw [update_of_ne hu]
      · rw [update_self]
        exact hnext.remaining
    obtain ⟨_, order, hstep⟩ := hperf
    have hinv := inv_step (a := .perform _ order) hreg h trivial hstep
    have hlen : ∀ u u', (update s v r' u).iterations.length =
        (update s v r' u').iterations.length := by
      intro u u'
      rw [congrFun hits u, congrFun hits u']
      exact heq u u'
    obtain ⟨t, hrun, ht⟩ := ih _ hless hinv hlen rfl
    refine ⟨t, .head ⟨_, order, hstep⟩ hrun, fun u => ⟨(ht u).1, ?_⟩⟩
    rw [(ht u).2, congrFun hits u]

end

/-! ### The documented use -/

variable (job) in
/-- The types of the parameters go with the compression: without one, `c_lib` has a function for
each type; with `Compression.fp16` there is only one type. -/
def Compressible : Prop :=
  (job.compression = noneCompressor ∧ ∀ p ∈ job.params, job.dtype p ≠ .bfloat16) ∨
    (job.compression = fp16Compressor job.arith ∧
      ∀ p ∈ job.params, ∀ q ∈ job.params, job.dtype p = job.dtype q)

omit [DecidableEq ι] [AddCommMonoid V] in
theorem regular_of_compressible (hseveral : job.params = ∅ ∨ 1 < job.size)
    (hcomp : job.Compressible) : job.Regular := by
  obtain ⟨size, params, dtype, floating, arith, compression⟩ := job
  rcases hcomp with ⟨hc, hdtype⟩ | ⟨hc, hdtype⟩
  · subst hc
    refine ⟨hseveral, fun p hp x => ?_, fun _ _ _ _ _ _ => rfl⟩
    have hne : dtype p ≠ .bfloat16 := hdtype p hp
    show dtype p ∈ Dtype.bound
    revert hne
    cases dtype p <;> simp [Dtype.bound]
  · dsimp only at hc
    subst hc
    refine ⟨hseveral, fun p hp x => ?_, fun p hp q hq _ _ => hdtype p hp q hq⟩
    show (if (dtype p).isFloatingPoint then _ else _ : Tensor V).dtype ∈ Dtype.bound
    rw [if_pos (floating p hp)]
    show Dtype.float16 ∈ Dtype.bound
    decide

/-- In every interleaving in which no synchronising backward pass uses all parameters, on more
than one worker and with types that go with the compression: a worker that is through with its
iterations has pushed each parameter once for each of them, and its gradients are the averages of
its last iteration, decompressed with their own contexts; and workers in the same iteration come
to its end. -/
theorem pushed_once_per_iteration (hseveral : job.params = ∅ ∨ 1 < job.size)
    (hcomp : job.Compressible) (h : Reach job.training job.PartlyUsed s) :
    (∀ w, (s w).todo = [] → ∀ p ∈ job.params,
      (s w).pushed p = (s w).iterations.map (job.payload · p) ∧
      ∀ old it, (s w).iterations = old ++ [it] →
        job.Averaged (fun v => (s v).iterations) w (s w) old.length p) ∧
    ((∀ v w, (s v).iterations.length = (s w).iterations.length) →
      ∃ t, Relation.ReflTransGen job.Performs s t ∧
        ∀ w, (t w).todo = [] ∧ (t w).iterations = (s w).iterations) := by
  have hreg := regular_of_compressible hseveral hcomp
  have hinv := inv_of_reach hreg h
  refine ⟨fun w hidle p hp => ?_, exists_run_idle hreg hinv⟩
  cases hinv w with
  | idle _ _ _ pushed grad => exact ⟨pushed p hp, fun old it heq => grad old it heq p hp⟩
  | backward _ _ _ _ todo | missing _ _ _ _ todo | waiting _ _ _ _ todo => simp [hidle] at todo

end Phases

end Job

def exact : Arith ℤ where
  type _ _ x := x
  div _ x n := x / n
  floorDivide _ x n := x / n

def twoParams : Job ℕ ℤ where
  size := 2
  params := {0, 1}
  dtype _ := .float32
  floating _ _ := rfl
  arith := exact
  compression := noneCompressor

/-- An iteration of both workers of `twoParams` in which one uses the first parameter and the other
one none. -/
def oneUsed : List (Job.Label ℕ ℤ 2) :=
  [.backward 0 ⟨[0], fun _ => 2, false⟩, .backward 1 ⟨[], fun _ => 4, false⟩] ++
    [.perform 0 [], .perform 0 [1], .perform 0 [], .perform 0 []] ++
    [.perform 1 [0, 1], .perform 1 [], .perform 1 [], .perform 1 []] ++
    [.perform 0 [], .perform 0 [], .perform 0 []]

instance : ∀ s a, Decidable (twoParams.PartlyUsed s a)
  | _, .backward _ it => inferInstanceAs (Decidable (it.noSync = true ∨ twoParams.params = ∅ ∨
      ∃ p ∈ twoParams.params, p ∉ it.hooks))
  | _, .perform _ _ => inferInstanceAs (Decidable True)

theorem pushed_once_per_iteration_two :
    ∃ s, Reach twoParams.training twoParams.PartlyUsed s ∧ (s (0 : Fin 2)).todo.length = 0 ∧
      (s (0 : Fin 2)).iterations.length = 1 ∧
      (s (0 : Fin 2)).pushed 0 = (s (0 : Fin 2)).iterations.map (twoParams.payload · 0) := by
  obtain ⟨s, hs, htodo, hit⟩ := exists_reach (S := twoParams.training) (G := twoParams.PartlyUsed)
    (P := fun s => (s (0 : Fin 2)).todo.length = 0 ∧ (s (0 : Fin 2)).iterations.length = 1)
    (.init rfl) oneUsed (by decide)
  refine ⟨s, hs, htodo, hit, ?_⟩
  exact ((Job.pushed_once_per_iteration (.inr (by decide)) (.inl ⟨rfl, by decide⟩) hs).1 (0 : Fin 2)
    (length_eq_zero_iff.mp htodo) 0 (by decide)).1

def oneParam : Job ℕ ℤ := { twoParams with params := {0}, floating := fun _ _ => rfl }

/-- Worker `0` uses the parameter, worker `1` does not and goes on to its second iteration. -/
def allUsed : List (Job.Label ℕ ℤ 2) :=
  [.backward 0 ⟨[0], fun _ => 2, false⟩, .backward 1 ⟨[], fun _ => 4, false⟩] ++
    [.perform 0 [], .perform 0 [], .perform 0 []] ++
    [.perform 1 [0], .perform 1 [], .perform 1 [], .perform 1 [], .perform 1 []] ++
    [.perform 0 [], .perform 0 []] ++
    [.backward 1 ⟨[], fun _ => 9, false⟩, .perform 1 [0], .perform 1 []] ++
    [.perform 0 [0], .perform 0 [], .perform 0 [], .perform 0 [], .perform 0 []]

/-- Worker `0` uses the parameter, so it pushes twice in its first iteration; the second push meets
the second iteration of worker `1`, and the gradient `6` mixes both: the average of the first
iteration is `(2 + 4) / 2`. -/
theorem used_gradients_pushed_twice :
    ∃ s, Reach oneParam.training Free s ∧ (s (0 : Fin 2)).todo.length = 0 ∧
      (s (0 : Fin 2)).iterations.length = 1 ∧
      ((s (0 : Fin 2)).pushed 0).map Tensor.data = [2, 3] ∧ (s (0 : Fin 2)).grad 0 = ⟨.float32, 6⟩ := by
  exact exists_reach (S := oneParam.training) (G := Free) (.init rfl) allUsed (by decide)

/-! ## The rounds of the server -/

section Rounds

variable {α : Type} [AddCommMonoid α] {len : ℕ}

/-- The group of the key of a parameter with `len` elements, after what the workers have pushed. -/
def nameGroup (job : Job ι (Fin len → α)) (hsize : 0 < job.size)
    (s : Fin job.size → job.Worker) (p : ι) : Server.KeyGroup α where
  workers := range job.size
  workers_nonempty := ⟨0, Finset.mem_range.mpr hsize⟩
  dtype := 0
  kwargs := none
  initPayload _ := replicate len 0
  payload w r := List.ofFn (if h : w < job.size then
    ((((s ⟨w, h⟩).pushed p)[r]?).map Tensor.data).getD 0 else 0)

omit [DecidableEq ι] in
/-- What a wait averages is the sum with which the server answers the pulls of that round. -/
theorem output_eq_roundSum {job : Job ι (Fin len → α)} (hsize : 0 < job.size)
    {s : Fin job.size → job.Worker} {w : Fin job.size} {p : ι} {round : ℕ}
    {output : Tensor (Fin len → α)} (h : job.output s w p round = some output) :
    ∃ dtype sum, output = Tensor.average job.arith ⟨dtype, sum⟩ job.size ∧
      List.ofFn sum = Server.roundSum (nameGroup job hsize s p) len round := by
  obtain ⟨own, -, rfl⟩ := Option.map_eq_some_iff.mp h
  refine ⟨_, _, rfl, ?_⟩
  congr 1
  funext i
  simp only [nameGroup, Finset.sum_apply, sum_range, Fin.is_lt, dif_pos]
  refine sum_congr rfl fun v _ => ?_
  rw [getD_eq_getElem?_getD, List.getElem?_ofFn, dif_pos i.isLt]
  rfl

end Rounds

end MegatronDPU.Torch
