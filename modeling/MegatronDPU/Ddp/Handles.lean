import MegatronDPU.Ddp.Buckets

/-!
# Who waits for a gradient reduction

With `overlap_grad_reduce` a bucket group starts its reduction when the last of its gradients is
registered, keeps what it has to wait for in `grad_reduce_handle`, and waits in `finish_grad_sync`.
`start_grad_sync` takes BytePS if it is enabled and the distributed optimizer is not;
`finish_grad_sync` only looks at whether BytePS is enabled.

A log holds the communications that were issued and, with the call that was used for it, those that
were waited for.
-/

namespace MegatronDPU.Ddp.Handles

open Raise Lts List Option

/-- `DistributedDataParallelConfig`, with the number of optimizer instances. -/
structure Config extends DdpConfig where
  numDistributedOptimizerInstances : ℕ := 1
  instances_pos : 0 < numDistributedOptimizerInstances := by decide

/-- The calls by which a communication is waited for: `wait()` of a coalescing manager,
`synchronize` of BytePS, `wait_stream` on the communication stream. -/
inductive Api
  | manager
  | byteps
  | stream
  deriving DecidableEq

/-- A collective that was issued. -/
structure Work where
  api : Api
  id : ℕ
  deriving DecidableEq

/-- What happens to collectives, in order. -/
inductive Event
  | issue (work : Work)
  | wait (api : Api) (work : Work)
  deriving DecidableEq

/-- What `grad_reduce_handle` can be: a `_CoalescingManager` or a list of BytePS handles. -/
inductive Handle
  | manager (work : Work)
  | list (handles : List Work)
  deriving DecidableEq

/-- The collectives behind a handle. -/
def Handle.works : Handle → List Work
  | .manager work => [work]
  | .list handles => handles

/-- A bucket group while training. `nextWork` numbers communications and BytePS handles,
`handleMap` holds the handles of this group that `synchronize` still knows. The works on the
communication stream are those that the default stream has not waited for. `startCalls` counts the
calls of `start_grad_sync`. -/
structure State where
  startCalls : ℕ := 0
  nextWork : ℕ := 0
  handleMap : List Work := []
  communicationStream : Option (List Work) := none
  interInstanceGroup : Bool := false
  paramsWithGrad : Finset Param := ∅
  isLastMicrobatch : Bool := true
  gradReduceHandle : Option Handle := none
  log : List Event := []
  deriving DecidableEq

variable (cfg : Config) (group : BucketGroup)

/-- `self.params`. -/
def params : Finset Param := (group.buckets.flatMap Bucket.params).toFinset

/-- A new bucket group, after `DistributedDataParallel` has given it the communication stream. -/
def init : Except PyError State := do
  if 1 < cfg.numDistributedOptimizerInstances then
    require (cfg.useDistributedOptimizer = true)
      (.assertionError "Partial DistOpt cannot be used without DistOpt")
    return { communicationStream := some [], interInstanceGroup := true }
  else return {}

/-! ## Issuing and waiting -/

namespace State

variable (s : State)

def newWork (api : Api) : Work := ⟨api, s.nextWork⟩

/-- Issues a collective. -/
def issue (api : Api) : State :=
  { s with nextWork := s.nextWork + 1, log := s.log ++ [.issue (s.newWork api)] }

/-- Waits for a collective. -/
def wait (api : Api) (work : Work) : State := { s with log := s.log ++ [.wait api work] }

/-- `push_pull_async_inplace`; the handle is `s.newWork .byteps`. -/
def pushPullAsyncInplace : State :=
  { s.issue .byteps with handleMap := s.handleMap ++ [s.newWork .byteps] }

/-- `synchronize` returns at once for a handle it does not know. -/
def synchronize (handle : Work) : State :=
  if handle ∈ s.handleMap then
    { s.wait .byteps handle with handleMap := s.handleMap.erase handle }
  else s

end State

/-! ## `start_grad_sync` and `finish_grad_sync` -/

/-- Communication is asynchronous with one optimizer instance only. -/
def asyncOp : Bool := cfg.overlapGradReduce && cfg.numDistributedOptimizerInstances == 1

/-- The communication runs on its own stream. -/
def onStream : Bool := decide (1 < cfg.numDistributedOptimizerInstances) && cfg.overlapGradReduce

/-- The condition by which `start_grad_sync` takes BytePS. -/
def startsByteps : Bool := !cfg.useDistributedOptimizer && cfg.useDpuReduce

/-- A push-pull for each bucket. -/
def bytepsAsync (s : State) (buckets : List Bucket) : List Work × State :=
  buckets.foldl (fun (handles, s) _ => (handles ++ [s.newWork .byteps], s.pushPullAsyncInplace))
    ([], s)

/-- `byteps_allreduce_inplace` for each bucket. -/
def bytepsSync (s : State) (buckets : List Bucket) : State :=
  buckets.foldl (fun s _ => s.pushPullAsyncInplace.synchronize (s.newWork .byteps)) s

/-- A `with` block of a coalescing manager that is not asynchronous: it waits at its end, on the
stream it runs on. -/
def coalescedSync (s : State) : State :=
  if onStream cfg then { s.issue .stream with
    communicationStream := s.communicationStream.map (· ++ [s.newWork .stream]) }
  else (s.issue .manager).wait .manager (s.newWork .manager)

/-- `start_grad_sync` under the coalescing manager. -/
def startCoalesced (s : State) : Except PyError State := do
  if asyncOp cfg then
    return { s.issue .manager with gradReduceHandle := some (.manager (s.newWork .manager)) }
  let s := coalescedSync cfg s
  -- several instances: a second all-reduce, across them
  if cfg.useDistributedOptimizer ∧ 1 < cfg.numDistributedOptimizerInstances then
    require (s.interInstanceGroup = true) .assertionError
    return { coalescedSync cfg s with gradReduceHandle := none }
  return { s with gradReduceHandle := none }

/-- The body of `start_grad_sync`. -/
def startBody (s : State) : Except PyError State := do
  require (s.gradReduceHandle = none)
    (.assertionError "Should not have multiple communication calls outstanding at once")
  require (onStream cfg = true → s.communicationStream.isSome = true)
    (.attributeError "'NoneType' object has no attribute 'wait_stream'")
  if startsByteps cfg then
    if asyncOp cfg then
      let (handles, s) := bytepsAsync s group.buckets
      return { s with gradReduceHandle := some (.list handles) }
    else return { bytepsSync s group.buckets with gradReduceHandle := none }
  else startCoalesced cfg s

/-- `start_grad_sync`. -/
def startGradSync (s : State) : Except PyError State :=
  startBody cfg group { s with startCalls := s.startCalls + 1 }

/-- `wait_stream`: the default stream waits for everything on the communication stream. -/
def waitStream (s : State) : Except PyError State :=
  match s.communicationStream with
  | none => .error (.attributeError "'NoneType' object has no attribute 'cuda_stream'")
  | some works =>
    .ok { works.foldl (fun s work => s.wait .stream work) s with communicationStream := some [] }

/-- How many gradients are there, for the texts of the assertions. -/
def available (s : State) : String :=
  "(" ++ toString s.paramsWithGrad.card ++ "/" ++ toString (params group).card ++
    " params have grad available)"

/-- `finish_grad_sync`. -/
def finishGradSync (s : State) : Except PyError State :=
  if cfg.overlapGradReduce = false then startGradSync cfg group s
  else if 1 < cfg.numDistributedOptimizerInstances then waitStream s
  else if cfg.useDpuReduce = false then
    match s.gradReduceHandle with
    | none => .error (.assertionError
        ("Communication call has not been issued for this bucket " ++ available group s))
    | some (.manager work) => .ok { s.wait .manager work with gradReduceHandle := none }
    | some (.list _) => .error (.attributeError "'list' object has no attribute 'wait'")
  else
    match s.gradReduceHandle with
    | none => .error (.assertionError
        ("BytePS Communication call has not been issued for this bucket " ++ available group s))
    | some (.list handles) => .ok { handles.foldl State.synchronize s with gradReduceHandle := none }
    | some (.manager _) => .error (.typeError "'_CoalescingManager' object is not iterable")

/-- `register_grad_ready`. -/
def registerGradReady (p : Param) (s : State) : Except PyError State := do
  require (cfg.overlapGradReduce = true) (.assertionError
    "register_grad_ready() should only be called when overlap_grad_reduce is True")
  if s.isLastMicrobatch then
    require (p ∈ params group) (.assertionError "Param is not in the bucket group")
    require (p ∉ s.paramsWithGrad) (.assertionError "Cannot set grad twice")
    let s := { s with paramsWithGrad := insert p s.paramsWithGrad }
    if s.paramsWithGrad.card = (params group).card then startGradSync cfg group s
    else return s
  else return s

/-! ## Training -/

/-- `backward` is the hook of a parameter, `noSync` enters or leaves the context manager, `other`
is a communication of another bucket group, `finish` ends an iteration. -/
inductive Op
  | backward (p : Param)
  | noSync (entered : Bool)
  | other
  | finish
  deriving DecidableEq

/-- The hook of a parameter whose gradient has been accumulated. -/
def backwardPostHook (p : Param) (s : State) : Except PyError State :=
  if p ∈ params group ∧ cfg.overlapGradReduce = true then registerGradReady cfg group p s else .ok s

/-- `reset`, by `zero_grad_buffer` before the next iteration. -/
def State.reset (s : State) : State := { s with paramsWithGrad := ∅, isLastMicrobatch := true }

/-- An operation of the training loop. -/
def step (s : State) : Op → Except PyError State
  | .backward p => backwardPostHook cfg group p s
  | .noSync entered => .ok { s with isLastMicrobatch := !entered }
  | .other => .ok { s with nextWork := s.nextWork + 1 }
  | .finish => (finishGradSync cfg group s).map State.reset

def training : System State Op where
  init s := init cfg = .ok s
  step s op := (step cfg group s op).toOption

/-- A registered gradient has completed the group; without overlap nothing is registered. -/
def State.Complete (s : State) : Prop :=
  cfg.overlapGradReduce = true → s.paramsWithGrad.Nonempty ∧ s.paramsWithGrad = params group

/-- The collectives issued, in order. -/
def issued (log : List Event) : List Work :=
  log.filterMap fun
    | .issue work => some work
    | .wait _ _ => none

/-- The waits, in order. -/
def waited (log : List Event) : List (Api × Work) :=
  log.filterMap fun
    | .issue _ => none
    | .wait api work => some (api, work)

def tags (works : List Work) : List (Api × Work) := works.map fun work => (work.api, work)

/-- `finish_grad_sync` returns, everything issued has been waited for once and by its own API, and
the handle is `None`. -/
def FinishOk (s : State) : Prop :=
  ∃ t, finishGradSync cfg group s = .ok t ∧ t.gradReduceHandle = none ∧
    waited t.log = tags (issued t.log)

/-! ## Settling -/

variable {cfg} {group} {s t : State} {log : List Event} {works rest : List Work}

@[simp] theorem issued_append (l l' : List Event) : issued (l ++ l') = issued l ++ issued l' :=
  filterMap_append

@[simp] theorem waited_append (l l' : List Event) : waited (l ++ l') = waited l ++ waited l' :=
  filterMap_append

@[simp] theorem tags_append (l l' : List Work) : tags (l ++ l') = tags l ++ tags l' :=
  map_append

/-- The works that were issued are those that were waited for, and then the pending ones. -/
def Settled (log : List Event) (pending : List Work) : Prop :=
  waited log ++ tags pending = tags (issued log)

def waits (works : List Work) : List Event := works.map fun work => .wait work.api work

def balanced (works : List Work) : List Event :=
  works.flatMap fun work => [.issue work, .wait work.api work]

theorem Settled.issue (h : Settled log rest) (works : List Work) :
    Settled (log ++ works.map .issue) (rest ++ works) := by
  have hissued : issued (works.map .issue) = works := filterMap_map.trans filterMap_some
  have hwaited : waited (works.map .issue) = [] :=
    filterMap_map.trans (filterMap_eq_nil_iff.mpr fun _ _ => rfl)
  unfold Settled at h ⊢
  rw [waited_append, issued_append, hissued, hwaited, append_nil, tags_append, tags_append, ← h,
    append_assoc]

/-- Waiting for works settles them. -/
theorem Settled.wait (h : Settled log (works ++ rest)) : Settled (log ++ waits works) rest := by
  have hissued : issued (waits works) = [] :=
    filterMap_map.trans (filterMap_eq_nil_iff.mpr fun _ _ => rfl)
  have hwaited : waited (waits works) = tags works :=
    filterMap_map.trans (congrFun filterMap_eq_map works)
  unfold Settled at h ⊢
  rw [waited_append, issued_append, hissued, hwaited, append_nil, ← h, tags_append, append_assoc]

theorem Settled.balanced (h : Settled log []) (works : List Work) :
    Settled (log ++ balanced works) [] := by
  induction works generalizing log with
  | nil =>
    rw [Handles.balanced, flatMap_nil, append_nil]
    exact h
  | cons work works ih =>
    have hissue : Settled (log ++ [.issue work]) ([work] ++ []) := h.issue [work]
    have hone : Settled (log ++ [.issue work] ++ [.wait work.api work]) [] := hissue.wait
    have hrest := ih hone
    rwa [append_assoc, append_assoc] at hrest

/-! ## Loops over handles -/

theorem bytepsAsync_spec (buckets : List Bucket) :
    ∃ n handles, (∀ work ∈ handles, work.api = .byteps) ∧
      bytepsAsync s buckets = (handles, { s with
        nextWork := n
        handleMap := s.handleMap ++ handles
        log := s.log ++ handles.map .issue }) := by
  -- the loop, from any accumulator
  suffices h : ∀ (acc : List Work) (u : State), ∃ n handles,
      (∀ work ∈ handles, work.api = .byteps) ∧
      buckets.foldl (fun (x : List Work × State) (_ : Bucket) =>
        (x.1 ++ [x.2.newWork .byteps], x.2.pushPullAsyncInplace)) (acc, u) =
      (acc ++ handles, { u with
        nextWork := n
        handleMap := u.handleMap ++ handles
        log := u.log ++ handles.map .issue }) from h [] s
  induction buckets with
  | nil =>
    intro acc u
    exact ⟨u.nextWork, [], nofun, by simp⟩
  | cons bucket buckets ih =>
    intro acc u
    obtain ⟨n, handles, hapi, h⟩ := ih (acc ++ [u.newWork .byteps]) u.pushPullAsyncInplace
    refine ⟨n, u.newWork .byteps :: handles, ?_, ?_⟩
    · rintro work (_ | ⟨_, hmem⟩)
      · rfl
      · exact hapi work hmem
    · rw [foldl_cons, h]
      simp [State.pushPullAsyncInplace, State.issue]

theorem bytepsSync_spec (buckets : List Bucket) (h : s.handleMap = []) :
    ∃ n works, bytepsSync s buckets = { s with nextWork := n, log := s.log ++ balanced works } := by
  induction buckets generalizing s with
  | nil => exact ⟨s.nextWork, [], by simp [bytepsSync, balanced]⟩
  | cons bucket buckets ih =>
    have hone : s.pushPullAsyncInplace.synchronize (s.newWork .byteps) =
        { s with nextWork := s.nextWork + 1, log := s.log ++ balanced [s.newWork .byteps] } := by
      simp [State.pushPullAsyncInplace, State.synchronize, State.issue, State.wait, h, balanced,
        State.newWork]
    rw [bytepsSync, foldl_cons, hone, ← bytepsSync]
    obtain ⟨n, works, hrest⟩ := ih
      (s := { s with nextWork := s.nextWork + 1, log := s.log ++ balanced [s.newWork .byteps] }) h
    refine ⟨n, s.newWork .byteps :: works, ?_⟩
    rw [hrest]
    simp [balanced]

theorem synchronize_all (handles : List Work) (h : s.handleMap = handles)
    (hapi : ∀ work ∈ handles, work.api = .byteps) :
    handles.foldl State.synchronize s =
      { s with handleMap := [], log := s.log ++ waits handles } := by
  induction handles generalizing s with
  | nil => rw [foldl_nil, waits, map_nil, append_nil, ← h]
  | cons handle handles ih =>
    have hone : s.synchronize handle = { s with
        handleMap := handles
        log := s.log ++ [.wait handle.api handle] } := by
      simp [State.synchronize, State.wait, h, hapi handle]
    rw [foldl_cons, hone, ih rfl fun work hw => hapi work (mem_cons_of_mem _ hw)]
    simp [waits]

theorem wait_all (works : List Work) (hapi : ∀ work ∈ works, work.api = .stream) :
    works.foldl (fun s work => s.wait .stream work) s = { s with log := s.log ++ waits works } := by
  induction works generalizing s with
  | nil => simp [waits]
  | cons work works ih =>
    rw [foldl_cons, ih fun w hw => hapi w (mem_cons_of_mem _ hw)]
    simp [State.wait, waits, hapi work]

/-! ## Books of a bucket group -/

/-- The collectives that are not waited for yet. -/
def State.pending (s : State) : List Work :=
  (s.gradReduceHandle.map Handle.works).getD [] ++ s.communicationStream.getD []

/-- The handles that BytePS keeps for the group are those of `grad_reduce_handle`. -/
def Handle.byteps : Option Handle → List Work
  | some (.list handles) => handles
  | _ => []

/-- The handle is of the backend that `start_grad_sync` takes. -/
def Handle.Of (cfg : Config) : Handle → Prop
  | .manager work => startsByteps cfg = false ∧ work.api = .manager
  | .list handles => startsByteps cfg = true ∧ ∀ work ∈ handles, work.api = .byteps

variable (cfg) in
/-- What holds whenever no function of the group is running. -/
structure Books (s : State) : Prop where
  settled : Settled s.log s.pending
  handleMap : s.handleMap = Handle.byteps s.gradReduceHandle
  handle : ∀ handle, s.gradReduceHandle = some handle → asyncOp cfg = true ∧ handle.Of cfg
  stream : s.communicationStream.isSome = true ↔ 1 < cfg.numDistributedOptimizerInstances
  streamed : ∀ works, s.communicationStream = some works → ∀ work ∈ works, work.api = .stream
  idle : cfg.overlapGradReduce = false → s.communicationStream.getD [] = []
  interInstance : s.interInstanceGroup = true ↔ 1 < cfg.numDistributedOptimizerInstances

theorem Books.update (hb : Books cfg s) (startCalls nextWork : ℕ) (paramsWithGrad : Finset Param)
    (isLastMicrobatch : Bool) :
    Books cfg { s with startCalls, nextWork, paramsWithGrad, isLastMicrobatch } :=
  ⟨hb.settled, hb.handleMap, hb.handle, hb.stream, hb.streamed, hb.idle, hb.interInstance⟩

theorem mode_cases (cfg : Config) :
    cfg.overlapGradReduce = false ∧ asyncOp cfg = false ∧ onStream cfg = false ∨
    cfg.overlapGradReduce = true ∧ cfg.numDistributedOptimizerInstances = 1 ∧
      asyncOp cfg = true ∧ onStream cfg = false ∨
    cfg.overlapGradReduce = true ∧ 1 < cfg.numDistributedOptimizerInstances ∧
      asyncOp cfg = false ∧ onStream cfg = true := by
  have hpos := cfg.instances_pos
  unfold asyncOp onStream
  cases cfg.overlapGradReduce with
  | false => simp
  | true =>
    rcases Nat.lt_or_eq_of_le (Nat.succ_le_of_lt hpos) with h | h
    · simp [h, ne_of_gt h]
    · simp [← h]

section Start

variable (group) (hb : Books cfg s)

include hb

theorem Books.handle_eq_none (h : asyncOp cfg = false) : s.gradReduceHandle = none := by
  cases hhandle : s.gradReduceHandle with
  | none => rfl
  | some handle =>
    have hasync := (hb.handle handle hhandle).1
    rw [h] at hasync
    cases hasync

theorem Books.stream_eq_none (h : cfg.numDistributedOptimizerInstances = 1) :
    s.communicationStream = none := by
  rw [← not_isSome_iff_eq_none, hb.stream, h]
  decide

theorem start_sync (hlap : cfg.overlapGradReduce = false) : ∃ n works, startBody cfg group s =
      .ok { s with nextWork := n, log := s.log ++ balanced works } := by
  have hasync : asyncOp cfg = false := by rw [asyncOp, hlap, Bool.false_and]
  have hstream : onStream cfg = false := by rw [onStream, hlap, Bool.and_false]
  have hnone := hb.handle_eq_none hasync
  have hcoal : ∀ u : State, coalescedSync cfg u = { u with
      nextWork := u.nextWork + 1
      log := u.log ++ balanced [u.newWork .manager] } := by
    intro u
    rw [coalescedSync, hstream, if_neg (by decide)]
    simp [State.issue, State.wait, balanced, State.newWork]
  unfold startBody
  rw [require_bind hnone, require_bind (fun h => absurd h (by rw [hstream]; decide))]
  cases hbps : startsByteps cfg with
  | true =>
    have hmap : s.handleMap = [] := by rw [hb.handleMap, hnone]; rfl
    obtain ⟨n, works, hsync⟩ := bytepsSync_spec group.buckets hmap
    refine ⟨n, works, ?_⟩
    rw [if_pos rfl, hasync, if_neg (by decide), hsync, ← hnone]
    rfl
  | false =>
    rw [if_neg (by decide), startCoalesced, hasync, if_neg (by decide)]
    split_ifs with hinst
    · refine ⟨s.nextWork + 1 + 1, [⟨.manager, s.nextWork⟩, ⟨.manager, s.nextWork + 1⟩], ?_⟩
      rw [require_bind (by rw [hcoal]; exact hb.interInstance.mpr hinst.2), hcoal, hcoal, ← hnone]
      simp [balanced, State.newWork]
      rfl
    · refine ⟨s.nextWork + 1, [⟨.manager, s.nextWork⟩], ?_⟩
      rw [hcoal, ← hnone]
      rfl

theorem start_async (hasync : asyncOp cfg = true) (hnone : s.gradReduceHandle = none) :
    ∃ n handle, startBody cfg group s = .ok { s with
        nextWork := n
        handleMap := Handle.byteps (some handle)
        gradReduceHandle := some handle
        log := s.log ++ handle.works.map .issue } ∧ handle.Of cfg := by
  have hmap : s.handleMap = [] := by rw [hb.handleMap, hnone]; rfl
  have hstream : onStream cfg = false := by
    simp only [asyncOp, Bool.and_eq_true, beq_iff_eq] at hasync
    rw [onStream, hasync.2]
    rfl
  unfold startBody
  rw [require_bind hnone, require_bind (fun h => absurd h (by rw [hstream]; decide))]
  cases hbps : startsByteps cfg with
  | true =>
    obtain ⟨n, handles, hapi, h⟩ := bytepsAsync_spec (s := s) group.buckets
    refine ⟨n, .list handles, ?_, hbps, hapi⟩
    rw [if_pos rfl, if_pos hasync, h, hmap]
    rfl
  | false =>
    refine ⟨s.nextWork + 1, .manager (s.newWork .manager), ?_, hbps, rfl⟩
    rw [if_neg (by decide), startCoalesced, if_pos hasync]
    exact congrArg Except.ok (congrArg (fun l => { s.issue .manager with
      handleMap := l
      gradReduceHandle := some (.manager (s.newWork .manager)) }) hmap)

theorem start_stream (hcfg : cfg.useDistributedOptimizer = true) (hstream : onStream cfg = true)
    {old : List Work} (hold : s.communicationStream = some old) :
    ∃ n works, startBody cfg group s = .ok { s with
        nextWork := n
        communicationStream := some (old ++ works)
        log := s.log ++ works.map .issue } ∧ ∀ work ∈ works, work.api = .stream := by
  have hinst := hstream
  simp only [onStream, Bool.and_eq_true, decide_eq_true_eq] at hinst
  have hasync : asyncOp cfg = false := by
    rw [asyncOp, Bool.and_eq_false_iff, beq_eq_false_iff_ne]
    exact .inr hinst.1.ne'
  have hbps : startsByteps cfg = false := by rw [startsByteps, hcfg]; rfl
  have hnone := hb.handle_eq_none hasync
  have hcoal : ∀ u : State, coalescedSync cfg u = { u with
      nextWork := u.nextWork + 1
      communicationStream := u.communicationStream.map (· ++ [u.newWork .stream])
      log := u.log ++ [.issue (u.newWork .stream)] } := by
    intro u
    rw [coalescedSync, if_pos hstream]
    rfl
  refine ⟨s.nextWork + 1 + 1, [⟨.stream, s.nextWork⟩, ⟨.stream, s.nextWork + 1⟩], ?_, by simp⟩
  unfold startBody
  rw [require_bind hnone, require_bind fun _ => hb.stream.mpr hinst.1, hbps,
    if_neg (by decide), startCoalesced, hasync, if_neg (by decide), if_pos ⟨hcfg, hinst.1⟩,
    require_bind (by rw [hcoal]; exact hb.interInstance.mpr hinst.1), hcoal, hcoal, hold, ← hnone]
  simp [State.newWork]
  rfl

theorem Books.balanced (hlap : cfg.overlapGradReduce = false) (n : ℕ) (works : List Work) :
    Books cfg { s with nextWork := n, log := s.log ++ Handles.balanced works } := by
  have hpend : s.pending = [] := by
    rw [State.pending, hb.handle_eq_none (by rw [asyncOp, hlap, Bool.false_and]), hb.idle hlap]
    rfl
  have hset := hb.settled
  rw [hpend] at hset
  refine ⟨?_, hb.handleMap, hb.handle, hb.stream, hb.streamed, hb.idle, hb.interInstance⟩
  show Settled _ s.pending
  rw [hpend]
  exact hset.balanced works

theorem startBody_spec
    (hcfg : 1 < cfg.numDistributedOptimizerInstances → cfg.useDistributedOptimizer = true)
    (hnone : s.gradReduceHandle = none) :
    ∃ t, startBody cfg group s = .ok t ∧ Books cfg t ∧
      t.gradReduceHandle.isSome = asyncOp cfg ∧ t.paramsWithGrad = s.paramsWithGrad ∧
      t.isLastMicrobatch = s.isLastMicrobatch ∧ t.startCalls = s.startCalls := by
  have hset := hb.settled
  rcases mode_cases cfg with
    ⟨hlap, hasync, -⟩ | ⟨hlap, hinst, hasync, -⟩ | ⟨hlap, hinst, hasync, hstream⟩
  · obtain ⟨n, works, h⟩ := start_sync group hb hlap
    exact ⟨_, h, hb.balanced hlap n works, by rw [hasync, hnone]; rfl, rfl, rfl, rfl⟩
  · obtain ⟨n, handle, h, hof⟩ := start_async group hb hasync hnone
    have hno := hb.stream_eq_none hinst
    refine ⟨_, h, ⟨?_, rfl, ?_, hb.stream, hb.streamed, hb.idle, hb.interInstance⟩, hasync.symm,
      rfl, rfl, rfl⟩
    · rw [State.pending, hnone, hno] at hset
      show Settled _ (handle.works ++ s.communicationStream.getD [])
      rw [hno, getD_none, append_nil]
      exact hset.issue handle.works
    · rintro _ ⟨⟩
      exact ⟨hasync, hof⟩
  · obtain ⟨old, hold⟩ := Option.isSome_iff_exists.mp (hb.stream.mpr hinst)
    obtain ⟨n, works, h, hapi⟩ := start_stream group hb (hcfg hinst) hstream hold
    refine ⟨_, h, ⟨?_, hb.handleMap, hb.handle, iff_of_true rfl hinst, ?_, ?_, hb.interInstance⟩,
      by rw [hasync, hnone]; rfl, rfl, rfl, rfl⟩
    · rw [State.pending, hold] at hset
      show Settled _ ((s.gradReduceHandle.map Handle.works).getD [] ++ (old ++ works))
      rw [← append_assoc]
      exact hset.issue works
    · rintro _ ⟨⟩ work hmem
      exact (mem_append.mp hmem).elim (hb.streamed old hold work) (hapi work)
    · intro hno
      rw [hlap] at hno
      cases hno

/-- `start_grad_sync` returns if no handle is left, and then there is one iff the communication is
asynchronous. -/
theorem start_spec
    (hcfg : 1 < cfg.numDistributedOptimizerInstances → cfg.useDistributedOptimizer = true)
    (hnone : s.gradReduceHandle = none) :
    ∃ t, startGradSync cfg group s = .ok t ∧ Books cfg t ∧
      t.gradReduceHandle.isSome = asyncOp cfg ∧ t.paramsWithGrad = s.paramsWithGrad ∧
      t.isLastMicrobatch = s.isLastMicrobatch ∧ t.startCalls = s.startCalls + 1 :=
  startBody_spec group (hb.update (s.startCalls + 1) _ _ _) hcfg hnone

end Start

/-! ## Finishing -/

/-- `start_grad_sync` and `finish_grad_sync` take different backends. -/
def Disagree (cfg : Config) : Prop :=
  cfg.useDistributedOptimizer = true ∧ cfg.overlapGradReduce = true ∧ cfg.useDpuReduce = true ∧
    cfg.numDistributedOptimizerInstances = 1

instance : DecidablePred Disagree := fun _ => inferInstanceAs (Decidable (_ ∧ _))

theorem finish_async (hb : Books cfg s) (hlap : cfg.overlapGradReduce = true)
    (hinst : cfg.numDistributedOptimizerInstances = 1) :
    (∃ t, finishGradSync cfg group s = .ok t) ↔
      s.gradReduceHandle.isSome = true ∧ ¬ Disagree cfg := by
  unfold finishGradSync
  rw [if_neg (by rw [hlap]; decide), if_neg (by rw [hinst]; decide)]
  cases hhandle : s.gradReduceHandle with
  | none => cases cfg.useDpuReduce <;> simp
  | some handle =>
    have hof := (hb.handle handle hhandle).2
    cases handle with
    | manager work =>
      have hbps := hof.1
      unfold startsByteps at hbps
      cases hdpu : cfg.useDpuReduce with
      | false => simp [Disagree, hdpu]
      | true =>
        rw [hdpu, Bool.and_true, Bool.not_eq_false'] at hbps
        simp [Disagree, hdpu, hbps, hlap, hinst]
    | list handles =>
      have hbps := hof.1
      simp only [startsByteps, Bool.and_eq_true, Bool.not_eq_true'] at hbps
      simp [Disagree, hbps.1, hbps.2]

theorem finish_ok (hb : Books cfg s) (h : finishGradSync cfg group s = .ok t) :
    Books cfg t ∧ t.gradReduceHandle = none ∧ t.pending = [] := by
  have hset := hb.settled
  unfold finishGradSync at h
  rcases mode_cases cfg with
    ⟨hlap, hasync, -⟩ | ⟨hlap, hinst, hasync, -⟩ | ⟨hlap, hinst, hasync, hstream⟩
  · have hb' := hb.update (s.startCalls + 1) s.nextWork s.paramsWithGrad s.isLastMicrobatch
    obtain ⟨n, works, hstart⟩ := start_sync group hb' hlap
    rw [if_pos hlap, startGradSync, hstart] at h
    cases h
    have hnone := hb.handle_eq_none hasync
    refine ⟨hb'.balanced hlap n works, hnone, ?_⟩
    show (s.gradReduceHandle.map Handle.works).getD [] ++ s.communicationStream.getD [] = []
    rw [hnone, hb.idle hlap]
    rfl
  · have hno := hb.stream_eq_none hinst
    rw [if_neg (by rw [hlap]; decide), if_neg (by rw [hinst]; decide)] at h
    -- in either branch the works of the handle are waited for and the handle is dropped
    suffices hwait : ∃ handle, s.gradReduceHandle = some handle ∧
        t = { s with handleMap := [], gradReduceHandle := none, log := s.log ++ waits handle.works } by
      obtain ⟨handle, hhandle, rfl⟩ := hwait
      refine ⟨⟨?_, rfl, nofun, hb.stream, hb.streamed, hb.idle, hb.interInstance⟩, rfl, ?_⟩
      · rw [State.pending, hhandle, hno] at hset
        rw [hno]
        exact hset.wait
      · rw [hno]
        rfl
    have hmap := hb.handleMap
    cases hhandle : s.gradReduceHandle with
    | none => cases hdpu : cfg.useDpuReduce <;> simp [hhandle, hdpu] at h
    | some handle =>
      have hof := (hb.handle handle hhandle).2
      rw [hhandle] at hmap h
      cases handle with
      | manager work =>
        cases hdpu : cfg.useDpuReduce with
        | true => simp [hdpu] at h
        | false =>
          rw [hdpu, if_pos rfl] at h
          cases h
          refine ⟨_, rfl, ?_⟩
          rw [State.wait, waits, hmap, Handle.works, map_singleton, hof.2]
          rfl
      | list handles =>
        cases hdpu : cfg.useDpuReduce with
        | false => simp [hdpu] at h
        | true =>
          rw [hdpu, if_neg (by decide)] at h
          dsimp only at h
          rw [synchronize_all handles hmap hof.2] at h
          cases h
          exact ⟨_, rfl, rfl⟩
  · obtain ⟨old, hold⟩ := Option.isSome_iff_exists.mp (hb.stream.mpr hinst)
    rw [if_neg (by rw [hlap]; decide), if_pos hinst, waitStream, hold] at h
    dsimp only at h
    rw [wait_all old (hb.streamed old hold)] at h
    cases h
    have hnone := hb.handle_eq_none hasync
    refine ⟨⟨?_, hb.handleMap, hb.handle, iff_of_true rfl hinst, ?_, fun _ => rfl, hb.interInstance⟩,
      hnone, ?_⟩
    · rw [State.pending, hnone, hold] at hset
      show Settled _ ((s.gradReduceHandle.map Handle.works).getD [] ++ [])
      rw [hnone]
      exact Settled.wait (by simpa using hset)
    · rintro _ ⟨⟩
      nofun
    · show (s.gradReduceHandle.map Handle.works).getD [] ++ [] = []
      rw [hnone]
      rfl

/-! ## All runs -/

variable (cfg group) in
/-- The books and the gradients: there is a handle iff a registered gradient completed the group
and the communication is asynchronous. -/
structure Inv (s : State) : Prop where
  books : Books cfg s
  subset : s.paramsWithGrad ⊆ params group
  complete : s.gradReduceHandle.isSome = true → s.paramsWithGrad = params group
  started : asyncOp cfg = true → s.paramsWithGrad.Nonempty → s.paramsWithGrad = params group →
    s.gradReduceHandle.isSome = true

/-- The constructor's own check, and the books that it leaves. -/
theorem init_spec (h : init cfg = .ok s) :
    (1 < cfg.numDistributedOptimizerInstances → cfg.useDistributedOptimizer = true) ∧
      Inv cfg group s := by
  unfold init at h
  split_ifs at h with hinst
  · obtain ⟨hopt, h⟩ := require_bind_eq_ok.mp h
    cases h
    refine ⟨fun _ => hopt, ⟨⟨rfl, rfl, by simp, iff_of_true rfl hinst, by simp, fun _ => rfl,
      iff_of_true rfl hinst⟩, Finset.empty_subset _, by simp, ?_⟩⟩
    intro _ hne
    exact absurd hne Finset.not_nonempty_empty
  · cases h
    refine ⟨fun h => absurd h hinst, ⟨⟨rfl, rfl, by simp, iff_of_false (by decide) hinst, by simp,
      fun _ => rfl, iff_of_false (by decide) hinst⟩, Finset.empty_subset _, by simp, ?_⟩⟩
    intro _ hne
    exact absurd hne Finset.not_nonempty_empty

section

variable (hcfg : 1 < cfg.numDistributedOptimizerInstances → cfg.useDistributedOptimizer = true)
  (hi : Inv cfg group s)
include hcfg hi

omit hcfg in
/-- A group that is not complete has started nothing. -/
theorem Inv.handle_none {p : Param} (hp : p ∈ params group) (hnew : p ∉ s.paramsWithGrad) :
    s.gradReduceHandle = none := by
  rw [← not_isSome_iff_eq_none]
  intro hsome
  rw [hi.complete hsome] at hnew
  exact hnew hp

/-- A gradient that is ready keeps the books. -/
theorem Inv.register {p : Param} (h : registerGradReady cfg group p s = .ok t) :
    Inv cfg group t := by
  obtain ⟨hlap, h⟩ := require_bind_eq_ok.mp h
  split_ifs at h with hlast
  · obtain ⟨hp, h⟩ := require_bind_eq_ok.mp h
    obtain ⟨hnew, h⟩ := require_bind_eq_ok.mp h
    have hsub : insert p s.paramsWithGrad ⊆ params group := Finset.insert_subset hp hi.subset
    have hnone := hi.handle_none hp hnew
    have hb := hi.books.update s.startCalls s.nextWork (insert p s.paramsWithGrad)
      s.isLastMicrobatch
    dsimp only at h
    split_ifs at h with hcard
    · obtain ⟨u, hu, hbooks, hsome, hparams, -⟩ := start_spec group hb hcfg hnone
      rw [hu] at h
      cases h
      have heq : t.paramsWithGrad = params group := by
        rw [hparams]
        exact Finset.eq_of_subset_of_card_le hsub hcard.ge
      exact ⟨hbooks, heq.le, fun _ => heq, fun hasync _ _ => hsome.trans hasync⟩
    · cases h
      refine ⟨hb, hsub, fun hsome => ?_, fun _ _ heq => ?_⟩
      · rw [hnone] at hsome
        cases hsome
      · exact absurd (congrArg Finset.card heq) hcard
  · cases h
    exact hi

/-- Every call of the training loop keeps the books and the gradients in step. -/
theorem Inv.step {op : Op} (h : step cfg group s op = .ok t) : Inv cfg group t := by
  cases op with
  | backward p =>
    rw [Handles.step, backwardPostHook] at h
    split_ifs at h with hp
    · exact hi.register hcfg h
    · cases h
      exact hi
  | noSync | other =>
    cases h
    exact ⟨hi.books.update _ _ _ _, hi.subset, hi.complete, hi.started⟩
  | finish =>
    rw [Handles.step] at h
    cases hfin : finishGradSync cfg group s with
    | error e => rw [hfin] at h; cases h
    | ok u =>
      rw [hfin] at h
      cases h
      obtain ⟨hb, hnone, -⟩ := finish_ok hi.books hfin
      refine ⟨hb.update _ _ _ _, Finset.empty_subset _, fun hsome => ?_, ?_⟩
      · rw [State.reset, hnone] at hsome
        cases hsome
      · intro _ hne
        exact absurd hne Finset.not_nonempty_empty

end

/-- The books are kept in every reachable state. -/
theorem inv_of_reach (h : Reach (training cfg group) Free s) :
    (1 < cfg.numDistributedOptimizerInstances → cfg.useDistributedOptimizer = true) ∧
      Inv cfg group s := by
  refine h.invariant (P := fun s => (_ → _) ∧ Inv cfg group s) (fun s hs => init_spec hs) ?_
  intro s op t hs _ hstep
  exact ⟨hs.1, hs.2.step hs.1 (eq_ok_of_toOption hstep)⟩

def twoParams : BucketGroup where
  buckets := [⟨[⟨1, 4, .bfloat16, false, true, true, false⟩, ⟨0, 4, .bfloat16, false, true, true,
    false⟩], 0, 8, 8, 1, 0⟩]
  groupSize := 2

def twoMicrobatches : List Op :=
  [.noSync true, .backward ⟨0, 4, .bfloat16, false, true, true, false⟩, .noSync false,
    .backward ⟨0, 4, .bfloat16, false, true, true, false⟩, .other,
    .backward ⟨1, 4, .bfloat16, false, true, true, false⟩]

/-- BytePS with overlap, with or without the distributed optimizer. -/
def Config.overlapped (useDistributedOptimizer : Bool) : Config :=
  { DdpConfig.byteps with overlapGradReduce := true, useDistributedOptimizer }

end MegatronDPU.Ddp.Handles
