import Mathlib.Data.List.ReduceOption
import MegatronDPU.Torch.Optimizer

/-!
# `byteps.torch.cross_barrier`

The training thread takes the lock of a parameter, pushes its gradient and puts the handle on a
queue; a second thread takes handles off the queue, puts those back that are not finished, and for
the others updates the parameter and releases the lock. Hooks before the forward pass of a module
wait for the locks of its parameters.

A push-pull is applied, or on the queue, or in the hands of the poller, or lost with a poller that
raised; until it is applied its parameter is locked (`Linked`). The last step waits for an empty
queue and misses the handle that the poller is looking at, and its closure runs when the poller is
gone. Modules with children have no hook.
-/

namespace MegatronDPU.Torch

open Lts
open Option hiding or_assoc

/-! ## Modules -/

/-- `torch.nn.Module`: an object with parameters of its own and children. -/
inductive Module (ι : Type)
  | node (id : ℕ) (params : List ι) (children : List (Module ι))

namespace Module

variable {ι : Type}

def id : Module ι → ℕ
  | node id _ _ => id

def params : Module ι → List ι
  | node _ params _ => params

def children : Module ι → List (Module ι)
  | node _ _ children => children

mutual

/-- `mod.parameters()`. -/
def parameters : Module ι → List ι
  | node _ params children => params ++ parametersOf children

def parametersOf : List (Module ι) → List ι
  | [] => []
  | mod :: mods => mod.parameters ++ parametersOf mods

end

mutual

def size : Module ι → ℕ
  | node _ _ children => sizeOf children + 1

def sizeOf : List (Module ι) → ℕ
  | [] => 0
  | mod :: mods => mod.size + sizeOf mods

end

/-- The loop of `_register_forward_hooks` over its stack, for at most `fuel` rounds. -/
def walk : ℕ → List (Module ι) → List (Module ι)
  | 0, _ => []
  | _, [] => []
  | fuel + 1, mod :: q =>
    if mod.children.isEmpty then mod :: walk fuel q else walk fuel (mod.children.reverse ++ q)

/-- `submodules` of `_register_forward_hooks`. -/
def submodules (model : Module ι) : List (Module ι) :=
  walk model.size model.children.reverse

inductive In (mod : Module ι) : Module ι → Prop
  | self : In mod mod
  | child {m c : Module ι} : c ∈ m.children → In mod c → In mod m

theorem sizeOf_append (mods mods' : List (Module ι)) :
    sizeOf (mods ++ mods') = sizeOf mods + sizeOf mods' := by
  induction mods with
  | nil => exact (zero_add _).symm
  | cons mod mods ih =>
    rw [List.cons_append, sizeOf, sizeOf, ih, add_assoc]

theorem sizeOf_reverse (mods : List (Module ι)) : sizeOf mods.reverse = sizeOf mods := by
  induction mods with
  | nil => rfl
  | cons mod mods ih =>
    rw [List.reverse_cons, sizeOf_append, ih, sizeOf, sizeOf, sizeOf, add_zero, add_comm]

theorem size_eq (mod : Module ι) : mod.size = sizeOf mod.children + 1 := by
  cases mod
  rw [size]
  rfl

theorem mem_walk {mod t : Module ι} {fuel : ℕ} {q : List (Module ι)} (hfuel : sizeOf q ≤ fuel)
    (hleaf : mod.children = []) (ht : t ∈ q) (hin : mod.In t) : mod ∈ walk fuel q := by
  induction fuel generalizing q t with
  | zero =>
    cases q with
    | nil => cases ht
    | cons top q =>
      rw [sizeOf, size_eq] at hfuel
      omega
  | succ fuel ih =>
    cases q with
    | nil => cases ht
    | cons top q =>
      rw [sizeOf, size_eq] at hfuel
      rw [walk]
      split_ifs with hempty
      · rcases List.mem_cons.mp ht with rfl | ht
        · cases hin with
          | self => exact List.mem_cons_self
          | child hc _ =>
            rw [List.isEmpty_iff.mp hempty] at hc
            cases hc
        · exact List.mem_cons_of_mem _ (ih (by omega) ht hin)
      · have hfuel' : sizeOf (top.children.reverse ++ q) ≤ fuel := by
          rw [sizeOf_append, sizeOf_reverse]
          omega
        rcases List.mem_cons.mp ht with rfl | ht
        · cases hin with
          | self => exact absurd (List.isEmpty_iff.mpr hleaf) hempty
          | child hc hin =>
            exact ih hfuel' (List.mem_append_left _ (List.mem_reverse.mpr hc)) hin
        · exact ih hfuel' (List.mem_append_right _ ht) hin

theorem mem_submodules {mod model c : Module ι} (hleaf : mod.children = [])
    (hc : c ∈ model.children) (hin : mod.In c) : mod ∈ model.submodules := by
  refine mem_walk ?_ hleaf (List.mem_reverse.mpr hc) hin
  rw [sizeOf_reverse, size_eq]
  exact Nat.le_succ _

end Module

/-! ## Threads -/

inductive OptimClass
  | sgd
  | adam
  | rmsprop
  | other
  deriving DecidableEq

/-- A call of `CrossBarrier`. -/
structure CrossBarrier (ι : Type) where
  model : Module ι
  opt : DistributedOptimizer ι
  optimClass : OptimClass
  /-- `num_steps`. -/
  finalStep : ℕ := 10 ^ 6

inductive BarrierInstr (ι : Type)
  /-- `_push_pull_grad_async`, up to the lock. -/
  | acquire (p : ι)
  /-- `_push_pull_grad_async` from there on, and `self._handles[p] = (handle, ctx)`. -/
  | issue (p : ι)
  /-- The second loop of `_synchronize`. -/
  | delayed
  /-- `pre_forward_hook` for a parameter. -/
  | wait (p : ι)
  /-- The module reads its parameters. -/
  | read (mod : Module ι)
  /-- `while not self._event_queue.empty()`. -/
  | awaitEmpty
  /-- `self._event_queue.put((None, None, None))`. -/
  | putStop
  /-- `self._poller.join()`. -/
  | join
  /-- `closure()` with any passes, or none if there is no closure. -/
  | closure
  /-- The end of `step()`. -/
  | ret

/-- Where `_poll` stands. -/
inductive Poller (ι : Type)
  | idle
  /-- An entry is off the queue. -/
  | got (p : ι) (handle : ℕ)
  /-- `poll` has returned true. -/
  | finished (p : ι) (handle : ℕ)
  /-- The parameter is updated. -/
  | updated (p : ι) (handle : ℕ)
  | exited
  /-- The class of the optimizer is not known. -/
  | raised (p : ι) (handle : ℕ)

/-- What the running poller has in its hands. -/
def Poller.entry {ι : Type} : Poller ι → Option (ι × ℕ)
  | got p handle | finished p handle | updated p handle => some (p, handle)
  | idle | exited | raised _ _ => none

/-- What the poller had in its hands when it raised. -/
def Poller.lost {ι : Type} : Poller ι → Option (ι × ℕ)
  | raised p handle => some (p, handle)
  | idle | got _ _ | finished _ _ | updated _ _ | exited => none

/-- `self._poller.is_alive()`. -/
def Poller.isAlive {ι : Type} : Poller ι → Bool
  | idle | got _ _ | finished _ _ | updated _ _ => true
  | exited | raised _ _ => false

/-- Both threads. A handle is the place of its push-pull in `opt.pushed`. -/
structure World (ι : Type) where
  opt : OptimizerState ι
  /-- The locks that are held. -/
  locks : ι → Bool := fun _ => false
  /-- `_event_queue`; `none` tells the poller to stop. -/
  eventQueue : List (Option (ι × ℕ)) := []
  /-- `_step`. -/
  stepCount : ℕ := 0
  todo : List (BarrierInstr ι) := []
  poller : Poller ι := .idle
  /-- The push-pulls that are finished, and those whose result was applied. -/
  completed : Finset ℕ := ∅
  applied : Finset ℕ := ∅
  /-- The exception that has ended the training thread. -/
  error : Option PyError := none

/-- The training thread is outside of `step()` or in its closure, where passes are run. -/
def World.runsPasses {ι : Type} (s : World ι) : Bool :=
  match s.todo with
  | [] | .closure :: _ => true
  | _ => false

namespace CrossBarrier

variable {ι : Type} [DecidableEq ι] (c : CrossBarrier ι)

/-- The modules with forward hooks. -/
def hooked : List ℕ := if 1 < c.opt.size then c.model.submodules.map Module.id else []

/-- `__init__`. -/
def init : Except PyError (World ι) := c.opt.init.map fun opt => { opt }

/-- What `__init__` leaves when it does not raise. -/
def start : World ι where
  opt := {
    parameterNames := c.opt.parameterNames
    pushPullDelay := c.opt.pushPullDelay
    requiresUpdate := c.opt.requiresUpdate }

/-! ## The training thread -/

/-- The hook of a parameter, when a backward pass has its gradient. -/
def hook (s : World ι) (p : ι) : World ι :=
  match DistributedOptimizer.countDown s.opt p with
  | .error e => { s with error := some e }
  | .ok (opt, delay) =>
    if delay = 0 then { s with opt, todo := .acquire p :: s.todo }
    else { s with opt := { opt with handles := opt.handles.set p none } }

/-- The forward pass of a module, without those of its children. -/
def forward (s : World ι) (mod : Module ι) : World ι :=
  { s with
    todo := (if mod.id ∈ c.hooked then mod.parameters.map .wait else []) ++ .read mod :: s.todo }

/-- `step(closure)`; `order` is the order in which `missing_p` is iterated over. -/
def step (s : World ι) (order : List ι) : World ι :=
  if 1 < c.opt.size ∧ 0 < s.stepCount then
    { s with
      todo := order.map .acquire ++ .delayed ::
        if s.stepCount = c.finalStep then [.awaitEmpty, .putStop, .join, .closure, .ret]
        else [.closure, .ret] }
  else { s with stepCount := s.stepCount + 1 }

/-- The training thread carries out an instruction, or is blocked. -/
def perform (s : World ι) (rest : List (BarrierInstr ι)) : BarrierInstr ι → Option (World ι)
  | .acquire p =>
    if s.locks p then none
    else some { s with locks := Function.update s.locks p true, todo := .issue p :: rest }
  | .issue p =>
    match DistributedOptimizer.pushPull s.opt p (c.opt.compression.compress (c.opt.dtype p))
      "Gradient." with
    | .error e => some { s with error := some e }
    | .ok (opt, name) =>
      some { s with
        opt := { opt with handles := opt.handles.set p (some name) }
        eventQueue := s.eventQueue ++ [some (p, s.opt.pushed.length)]
        todo := rest }
  | .delayed =>
    let missing := s.opt.handles.entries.filter fun entry => entry.2.isNone
    some { s with todo := (missing.map fun entry => .acquire entry.1) ++ rest }
  | .wait p =>
    -- a parameter of no group has no lock
    if p ∈ c.opt.params ∧ s.locks p then none
    else some { s with opt := { s.opt with handles := s.opt.handles.erase p }, todo := rest }
  | .read _ => some { s with todo := rest }
  | .awaitEmpty => if s.eventQueue.isEmpty then some { s with todo := rest } else none
  | .putStop => some { s with eventQueue := s.eventQueue ++ [none], todo := rest }
  | .join => if s.poller.isAlive then none else some { s with todo := rest }
  | .closure => some { s with todo := rest }
  | .ret => some { s with stepCount := s.stepCount + 1, todo := rest }

/-! ## The poller -/

/-- The next step of `_poll`. -/
def poll (s : World ι) : Option (World ι) :=
  match s.poller with
  | .idle =>
    match s.eventQueue with
    | [] => none
    | none :: queue => some { s with eventQueue := queue, poller := .exited }
    | some (p, handle) :: queue => some { s with eventQueue := queue, poller := .got p handle }
  | .got p handle =>
    if handle ∈ s.completed then some { s with poller := .finished p handle }
    else some { s with eventQueue := s.eventQueue ++ [some (p, handle)], poller := .idle }
  | .finished p handle =>
    let opt := { s.opt with
      pushPullDelay := s.opt.pushPullDelay.set p c.opt.backwardPassesPerStep }
    if c.optimClass = .other then some { s with opt, poller := .raised p handle }
    else some { s with opt, applied := insert handle s.applied, poller := .updated p handle }
  | .updated p _ => some { s with locks := Function.update s.locks p false, poller := .idle }
  | .exited | .raised _ _ => none

/-! ## Runs -/

/-- What happens next, in one of the threads or at the servers. -/
inductive Label (ι : Type)
  | hook (p : ι)
  | forward (mod : Module ι)
  | step (order : List ι)
  /-- The next instruction of the training thread. -/
  | perform
  | poll
  /-- A push-pull is finished. -/
  | complete (handle : ℕ)

/-- One step of the threads. -/
def act (s : World ι) : Label ι → Option (World ι)
  | .hook p =>
    if s.runsPasses ∧ s.error.isNone ∧ p ∈ s.opt.requiresUpdate then some (hook s p) else none
  | .forward mod =>
    if s.runsPasses ∧ s.error.isNone then some (c.forward s mod) else none
  | .step order =>
    if s.todo.isEmpty ∧ s.error.isNone ∧ order.Nodup ∧
        order.toFinset = s.opt.requiresUpdate \ (s.opt.handles.entries.map Prod.fst).toFinset then
      some (c.step s order)
    else none
  | .perform =>
    match s.error, s.todo with
    | none, instr :: rest => c.perform s rest instr
    | _, _ => none
  | .poll => c.poll s
  | .complete handle =>
    if handle < s.opt.pushed.length then some { s with completed := insert handle s.completed }
    else none

/-- The training thread goes through passes and steps in any order, next to the poller. -/
def runs : System (World ι) (Label ι) where
  init s := c.init = .ok s
  step := c.act

/-! ## What steps do -/

/-- The cases of `perform`. -/
inductive Performs (s : World ι) (rest : List (BarrierInstr ι)) : BarrierInstr ι → World ι → Prop
  | acquire {p : ι} (hfree : s.locks p = false) : Performs s rest (.acquire p)
      { s with locks := Function.update s.locks p true, todo := .issue p :: rest }
  | issue {p : ι} {name : String} : Performs s rest (.issue p)
      { s with
        opt := { s.opt with
          pushed := s.opt.pushed ++ [(p, name)]
          handles := s.opt.handles.set p (some name) }
        eventQueue := s.eventQueue ++ [some (p, s.opt.pushed.length)]
        todo := rest }
  | raise {p : ι} {e : PyError} : Performs s rest (.issue p) { s with error := some e }
  | delayed : Performs s rest .delayed
      { s with
        todo := ((s.opt.handles.entries.filter fun entry => entry.2.isNone).map fun entry =>
          .acquire entry.1) ++ rest }
  | wait {p : ι} (hfree : p ∈ c.opt.params → s.locks p = false) : Performs s rest (.wait p)
      { s with opt := { s.opt with handles := s.opt.handles.erase p }, todo := rest }
  | read {mod : Module ι} : Performs s rest (.read mod) { s with todo := rest }
  | awaitEmpty (hempty : s.eventQueue = []) : Performs s rest .awaitEmpty { s with todo := rest }
  | putStop : Performs s rest .putStop
      { s with eventQueue := s.eventQueue ++ [none], todo := rest }
  | join (hdown : s.poller.isAlive = false) : Performs s rest .join { s with todo := rest }
  | closure : Performs s rest .closure { s with todo := rest }
  | ret : Performs s rest .ret { s with stepCount := s.stepCount + 1, todo := rest }

variable {c} {s t : World ι}

theorem performs {instr : BarrierInstr ι} {rest : List (BarrierInstr ι)}
    (h : c.perform s rest instr = some t) : c.Performs s rest instr t := by
  cases instr with
  | acquire p =>
    dsimp only [perform] at h
    split_ifs at h with hlock
    exact some.inj h ▸ .acquire (Bool.eq_false_iff.mpr hlock)
  | issue p =>
    dsimp only [perform] at h
    cases hpush : DistributedOptimizer.pushPull s.opt p
        (c.opt.compression.compress (c.opt.dtype p)) "Gradient." with
    | error e =>
      rw [hpush] at h
      exact some.inj h ▸ .raise
    | ok done =>
      obtain ⟨opt, name⟩ := done
      rw [hpush] at h
      obtain rfl := DistributedOptimizer.pushPull_eq_ok hpush
      exact some.inj h ▸ .issue
  | delayed => exact some.inj h ▸ .delayed
  | wait p =>
    dsimp only [perform] at h
    split_ifs at h with hlock
    rw [not_and, Bool.not_eq_true] at hlock
    exact some.inj h ▸ .wait hlock
  | read mod => exact some.inj h ▸ .read
  | awaitEmpty =>
    dsimp only [perform] at h
    split_ifs at h with hempty
    exact some.inj h ▸ .awaitEmpty (List.isEmpty_iff.mp hempty)
  | putStop => exact some.inj h ▸ .putStop
  | join =>
    dsimp only [perform] at h
    split_ifs at h with halive
    exact some.inj h ▸ .join (Bool.eq_false_iff.mpr halive)
  | closure => exact some.inj h ▸ .closure
  | ret => exact some.inj h ▸ .ret

/-- The cases of `poll`. -/
inductive Polls (c : CrossBarrier ι) (s : World ι) : World ι → Prop
  | stop {queue : List (Option (ι × ℕ))} (hpoller : s.poller = .idle)
      (hqueue : s.eventQueue = none :: queue) :
      Polls c s { s with eventQueue := queue, poller := .exited }
  | get {queue : List (Option (ι × ℕ))} {p : ι} {handle : ℕ} (hpoller : s.poller = .idle)
      (hqueue : s.eventQueue = some (p, handle) :: queue) :
      Polls c s { s with eventQueue := queue, poller := .got p handle }
  | finish {p : ι} {handle : ℕ} (hpoller : s.poller = .got p handle) :
      Polls c s { s with poller := .finished p handle }
  | putBack {p : ι} {handle : ℕ} (hpoller : s.poller = .got p handle) :
      Polls c s { s with eventQueue := s.eventQueue ++ [some (p, handle)], poller := .idle }
  | raise {p : ι} {handle : ℕ} {delay : Dict ι ℤ} (hpoller : s.poller = .finished p handle)
      (hclass : c.optimClass = .other) :
      Polls c s { s with
        opt := { s.opt with pushPullDelay := delay }
        poller := .raised p handle }
  | update {p : ι} {handle : ℕ} {delay : Dict ι ℤ} (hpoller : s.poller = .finished p handle) :
      Polls c s { s with
        opt := { s.opt with pushPullDelay := delay }
        applied := insert handle s.applied
        poller := .updated p handle }
  | release {p : ι} {handle : ℕ} (hpoller : s.poller = .updated p handle) :
      Polls c s { s with locks := Function.update s.locks p false, poller := .idle }

theorem polls (h : c.poll s = some t) : c.Polls s t := by
  unfold poll at h
  split at h
  · rename_i hpoller
    split at h
    · cases h
    · rename_i hqueue
      exact some.inj h ▸ .stop hpoller hqueue
    · rename_i hqueue
      exact some.inj h ▸ .get hpoller hqueue
  · rename_i hpoller
    split_ifs at h
    · exact some.inj h ▸ .finish hpoller
    · exact some.inj h ▸ .putBack hpoller
  · rename_i hpoller
    split_ifs at h with hclass
    · exact some.inj h ▸ .raise hpoller hclass
    · exact some.inj h ▸ .update hpoller
  · rename_i hpoller
    exact some.inj h ▸ .release hpoller
  · cases h
  · cases h

/-- All steps; the training thread starts something new when it has nothing to do or runs the
closure. -/
inductive Acts (c : CrossBarrier ι) (s : World ι) : Label ι → World ι → Prop
  | raise {p : ι} {e : PyError} (hopen : s.runsPasses = true) :
      Acts c s (.hook p) { s with error := some e }
  | push {p : ι} {opt : OptimizerState ι} {delay : Dict ι ℤ} {fired : ι → ℕ}
      (hopen : s.runsPasses = true) (hp : p ∈ s.opt.requiresUpdate)
      (hcount : DistributedOptimizer.countDown s.opt p = .ok (opt, 0))
      (hopt : opt = { s.opt with pushPullDelay := delay, fired := fired }) :
      Acts c s (.hook p) { s with opt, todo := .acquire p :: s.todo }
  | postpone {p : ι} {delay : Dict ι ℤ} {fired : ι → ℕ} (hopen : s.runsPasses = true)
      (hp : p ∈ s.opt.requiresUpdate) :
      Acts c s (.hook p) { s with
        opt := { s.opt with
          pushPullDelay := delay
          fired := fired
          handles := s.opt.handles.set p none } }
  | forward {mod : Module ι} (hopen : s.runsPasses = true) : Acts c s (.forward mod) { s with
        todo := (if mod.id ∈ c.hooked then mod.parameters.map .wait else []) ++
          .read mod :: s.todo }
  | synchronize {order : List ι} (hidle : s.todo = [])
      (horder : ∀ p ∈ order, p ∈ s.opt.requiresUpdate) : Acts c s (.step order) { s with
        todo := order.map .acquire ++ .delayed ::
          if s.stepCount = c.finalStep then [.awaitEmpty, .putStop, .join, .closure, .ret]
          else [.closure, .ret] }
  | plain {order : List ι} (hidle : s.todo = []) :
      Acts c s (.step order) { s with stepCount := s.stepCount + 1 }
  | perform {instr : BarrierInstr ι} {rest : List (BarrierInstr ι)}
      (htodo : s.todo = instr :: rest) {t : World ι} (hperforms : c.Performs s rest instr t) :
      Acts c s .perform t
  | poll {t : World ι} (hpolls : c.Polls s t) : Acts c s .poll t
  | complete {handle : ℕ} :
      Acts c s (.complete handle) { s with completed := insert handle s.completed }

theorem acts {a : Label ι} (h : c.act s a = some t) : c.Acts s a t := by
  cases a with
  | hook p =>
    dsimp only [act] at h
    split_ifs at h with hrun
    obtain rfl := some.inj h
    unfold hook
    cases hcount : DistributedOptimizer.countDown s.opt p with
    | error e => exact .raise hrun.1
    | ok counted =>
      obtain ⟨opt, d⟩ := counted
      obtain ⟨delay, hopt⟩ := DistributedOptimizer.countDown_eq_ok hcount
      dsimp only
      split_ifs with hzero
      · exact .push hrun.1 hrun.2.2 (hzero ▸ hcount) hopt
      · subst hopt
        exact .postpone hrun.1 hrun.2.2
  | forward mod =>
    dsimp only [act] at h
    split_ifs at h with hrun
    exact some.inj h ▸ .forward hrun.1
  | step order =>
    dsimp only [act] at h
    split_ifs at h with hrun
    obtain ⟨hidle, -, -, horder⟩ := hrun
    obtain rfl := some.inj h
    unfold step
    by_cases hstep : 1 < c.opt.size ∧ 0 < s.stepCount
    · rw [if_pos hstep]
      refine .synchronize (List.isEmpty_iff.mp hidle) fun p hp => ?_
      have hmem : p ∈ order.toFinset := List.mem_toFinset.mpr hp
      rw [horder] at hmem
      exact (Finset.mem_sdiff.mp hmem).1
    · rw [if_neg hstep]
      exact .plain (List.isEmpty_iff.mp hidle)
  | perform =>
    dsimp only [act] at h
    split at h
    · rename_i htodo
      exact .perform htodo (performs h)
    · cases h
  | poll => exact .poll (polls h)
  | complete handle =>
    dsimp only [act] at h
    split_ifs at h
    exact some.inj h ▸ .complete

end CrossBarrier

/-! ## Entries and locks -/

namespace World

open Function List

variable {ι : Type}

/-- The entries on the queue and in the hands of the running poller. -/
def entries (s : World ι) : List (ι × ℕ) := s.eventQueue.reduceOption ++ s.poller.entry.toList

/-- The entries, and the one that was lost with a poller that raised. -/
def owed (s : World ι) : List (ι × ℕ) := s.entries ++ s.poller.lost.toList

/-- A parameter is locked while an entry is owed, of which there is one at most; a push-pull that was
not applied has one. -/
structure Linked (s : World ι) : Prop where
  nodup : (s.owed.map Prod.fst).Nodup
  locked : ∀ e ∈ s.owed, s.locks e.1 = true
  held : ∀ p, s.locks p = true →
    (∃ rest, s.todo = .issue p :: rest) ∨ p ∈ s.owed.map Prod.fst
  issuing : ∀ p rest, s.todo = .issue p :: rest →
    s.locks p = true ∧ p ∉ s.owed.map Prod.fst
  tail : ∀ p, .issue p ∉ s.todo.tail
  outstanding : ∀ handle e, s.opt.pushed[handle]? = some e →
    handle ∈ s.applied ∨ (e.1, handle) ∈ s.owed
  updated : ∀ p handle, s.poller = .updated p handle → handle ∈ s.applied

namespace Linked

variable {s s' : World ι} {p : ι} {rest : List (BarrierInstr ι)}

theorem of_perm (h : s.Linked) (hperm : s'.owed.Perm s.owed) (hlocks : s'.locks = s.locks)
    (htodo : s'.todo = s.todo)
    (hpushed : s'.opt.pushed = s.opt.pushed) (happlied : s.applied ⊆ s'.applied)
    (hupdated : ∀ p handle, s'.poller = .updated p handle → handle ∈ s'.applied) :
    s'.Linked where
  nodup := (hperm.map Prod.fst).nodup_iff.mpr h.nodup
  locked e he := hlocks ▸ h.locked e (hperm.subset he)
  held q hq := by
    rw [hlocks] at hq
    rw [htodo, (hperm.map Prod.fst).mem_iff]
    exact h.held q hq
  issuing q rest hq := by
    rw [hlocks, (hperm.map Prod.fst).mem_iff]
    exact h.issuing q rest (htodo ▸ hq)
  tail := htodo ▸ h.tail
  outstanding handle e he := by
    rw [hperm.mem_iff]
    exact (h.outstanding handle e (hpushed ▸ he)).imp_left fun hmem => happlied hmem
  updated := hupdated

theorem of_todo (h : s.Linked) (hold : ∀ p rest, s.todo ≠ .issue p :: rest)
    (hnew : ∀ p, .issue p ∉ s'.todo) (hentries : s'.owed = s.owed)
    (hlocks : s'.locks = s.locks)
    (hpushed : s'.opt.pushed = s.opt.pushed) (happlied : s'.applied = s.applied)
    (hpoller : s'.poller = s.poller) : s'.Linked where
  nodup := hentries ▸ h.nodup
  locked e he := hlocks ▸ h.locked e (hentries ▸ he)
  held q hq := by
    rw [hlocks] at hq
    rw [hentries]
    obtain ⟨rest, hrest⟩ | hq := h.held q hq
    · exact absurd hrest (hold q rest)
    · exact .inr hq
  issuing q rest hq := absurd (hq ▸ mem_cons_self) (hnew q)
  tail q hq := hnew q (mem_of_mem_tail hq)
  outstanding handle e he := by
    rw [happlied, hentries]
    exact h.outstanding handle e (hpushed ▸ he)
  updated q handle hq := happlied ▸ h.updated q handle (hpoller ▸ hq)

theorem acquire [DecidableEq ι] (h : s.Linked) (htodo : s.todo = .acquire p :: rest)
    (hfree : s.locks p = false) : Linked { s with
      locks := update s.locks p true
      todo := .issue p :: rest } where
  nodup := h.nodup
  locked e he := by
    show update s.locks p true e.1 = true
    by_cases hp : e.1 = p
    · rw [hp, update_self]
    · rw [update_of_ne hp]
      exact h.locked e he
  held q hq := by
    change update s.locks p true q = true at hq
    by_cases hp : q = p
    · subst hp
      exact .inl ⟨rest, rfl⟩
    · rw [update_of_ne hp] at hq
      obtain ⟨rest', hrest⟩ | hq := h.held q hq
      · rw [htodo] at hrest
        cases hrest
      · exact .inr hq
  issuing q rest' hq := by
    obtain ⟨heq, -⟩ := List.cons.inj hq
    obtain rfl := BarrierInstr.issue.inj heq
    refine ⟨update_self .., fun hmem => ?_⟩
    obtain ⟨e, he, rfl⟩ := mem_map.mp hmem
    have hlocked := h.locked e he
    rw [hfree] at hlocked
    cases hlocked
  tail q := by
    have htail := h.tail q
    rwa [htodo] at htail
  outstanding := h.outstanding
  updated := h.updated

theorem perm_concat (queue : List (Option (ι × ℕ))) (e : ι × ℕ) (l : List (ι × ℕ)) :
    ((queue ++ [some e]).reduceOption ++ l).Perm (e :: (queue.reduceOption ++ l)) := by
  rw [reduceOption_append, reduceOption_singleton, append_assoc]
  exact perm_middle

theorem issue {opt : OptimizerState ι} {name : String} (h : s.Linked)
    (htodo : s.todo = .issue p :: rest) (hpushed : opt.pushed = s.opt.pushed ++ [(p, name)]) :
    Linked { s with
      opt
      eventQueue := s.eventQueue ++ [some (p, s.opt.pushed.length)]
      todo := rest } := by
  have hperm : (World.owed { s with
      opt
      eventQueue := s.eventQueue ++ [some (p, s.opt.pushed.length)]
      todo := rest }).Perm ((p, s.opt.pushed.length) :: s.owed) :=
    (perm_concat ..).append_right _
  obtain ⟨hlocked, hnew⟩ := h.issuing p rest htodo
  have htail : ∀ q, .issue q ∉ rest := by
    intro q
    have htail := h.tail q
    rwa [htodo] at htail
  constructor
  · rw [(hperm.map Prod.fst).nodup_iff, map_cons, nodup_cons]
    exact ⟨hnew, h.nodup⟩
  · intro e he
    rcases mem_cons.mp (hperm.subset he) with rfl | he
    · exact hlocked
    · exact h.locked e he
  · intro q hq
    rw [(hperm.map Prod.fst).mem_iff, map_cons, mem_cons]
    obtain ⟨rest', hrest⟩ | hq := h.held q hq
    · rw [htodo] at hrest
      exact .inr (.inl (BarrierInstr.issue.inj (List.cons.inj hrest).1).symm)
    · exact .inr (.inr hq)
  · intro q rest' hq
    have hrest : rest = .issue q :: rest' := hq
    exact absurd (hrest ▸ mem_cons_self) (htail q)
  · exact fun q hq => htail q (mem_of_mem_tail hq)
  · intro handle e he
    rw [hperm.mem_iff, mem_cons]
    change opt.pushed[handle]? = some e at he
    rw [hpushed] at he
    rcases Nat.lt_trichotomy handle s.opt.pushed.length with hlt | rfl | hgt
    · rw [getElem?_append_left hlt] at he
      exact (h.outstanding handle e he).imp_right .inr
    · rw [getElem?_concat_length] at he
      obtain rfl := some.inj he
      exact .inr (.inl rfl)
    · rw [getElem?_eq_none (by simpa using hgt)] at he
      cases he
  · exact h.updated

theorem release [DecidableEq ι] {handle : ℕ} (h : s.Linked)
    (hpoller : s.poller = .updated p handle) :
    Linked { s with locks := update s.locks p false, poller := .idle } := by
  have hentries : s.owed = s.eventQueue.reduceOption ++ [(p, handle)] := by
    unfold World.owed World.entries
    rw [hpoller]
    exact append_nil _
  have hidle : World.owed { s with
      locks := update s.locks p false
      poller := .idle } = s.eventQueue.reduceOption := (append_nil _).trans (append_nil _)
  have hnodup := h.nodup
  rw [hentries, map_append, map_singleton, nodup_append] at hnodup
  have hp : p ∉ s.eventQueue.reduceOption.map Prod.fst := fun hmem =>
    hnodup.2.2 p hmem p (mem_singleton_self p) rfl
  have hother : ∀ q, q ≠ p → (q ∈ s.owed.map Prod.fst ↔
      q ∈ s.eventQueue.reduceOption.map Prod.fst) := by
    intro q hq
    rw [hentries, map_append, mem_append, map_singleton, mem_singleton]
    exact or_iff_left hq
  constructor
  · rw [hidle]
    exact hnodup.1
  · rw [hidle]
    intro e he
    have hne : e.1 ≠ p := fun heq => hp (heq ▸ mem_map.mpr ⟨e, he, rfl⟩)
    show update s.locks p false e.1 = true
    rw [update_of_ne hne]
    exact h.locked e (hentries ▸ mem_append_left _ he)
  · intro q hq
    change update s.locks p false q = true at hq
    by_cases hqp : q = p
    · rw [hqp, update_self] at hq
      cases hq
    · rw [update_of_ne hqp] at hq
      rw [hidle, ← hother q hqp]
      exact h.held q hq
  · intro q rest hq
    obtain ⟨hlocked, hnew⟩ := h.issuing q rest hq
    have hqp : q ≠ p := by
      rintro rfl
      refine hnew ?_
      rw [hentries, map_append]
      exact mem_append_right _ (mem_singleton_self _)
    rw [hidle, ← hother q hqp]
    refine ⟨?_, hnew⟩
    show update s.locks p false q = true
    rwa [update_of_ne hqp]
  · exact h.tail
  · intro handle' e he
    rw [hidle]
    rcases h.outstanding handle' e he with happlied | hmem
    · exact .inl happlied
    · rw [hentries, mem_append, mem_singleton] at hmem
      rcases hmem with hmem | hmem
      · exact .inr hmem
      · exact .inl ((Prod.mk.inj hmem).2 ▸ h.updated p handle hpoller)
  · intro q handle' hq
    cases hq

end Linked

end World

namespace CrossBarrier

open List

variable {ι : Type} [DecidableEq ι] {c : CrossBarrier ι} {s t : World ι}

omit [DecidableEq ι] in
/-- An instruction of another kind than those put in front was there before. -/
theorem mem_of_mem_map_append {κ : Type} {f : κ → BarrierInstr ι} {l : List κ}
    {rest : List (BarrierInstr ι)} {instr : BarrierInstr ι} (hmem : instr ∈ l.map f ++ rest)
    (hne : ∀ x, f x ≠ instr) : instr ∈ rest := by
  refine (mem_append.mp hmem).resolve_left fun hmap => ?_
  obtain ⟨x, -, heq⟩ := mem_map.mp hmap
  exact hne x heq

theorem linked_poll (h : s.Linked) (hpoll : c.Polls s t) : t.Linked := by
  have hholds : ∀ {poller : Poller ι} {entry : ι × ℕ}, s.poller = poller →
      poller.entry = some entry → poller.lost = none →
      s.owed = s.eventQueue.reduceOption ++ [entry] := by
    intro poller entry hpoller hentry hlost
    unfold World.owed World.entries
    rw [hpoller, hentry, hlost]
    exact append_nil _
  have hidle : s.poller = .idle → s.owed = s.eventQueue.reduceOption := by
    intro hpoller
    unfold World.owed World.entries
    rw [hpoller]
    exact (append_nil _).trans (append_nil _)
  cases hpoll with
  | stop hpoller hqueue =>
    refine h.of_perm ?_ rfl rfl rfl subset_rfl nofun
    rw [hidle hpoller, hqueue, reduceOption_cons_of_none]
    exact .of_eq ((append_nil _).trans (append_nil _))
  | get hpoller hqueue =>
    refine h.of_perm ?_ rfl rfl rfl subset_rfl nofun
    rw [hidle hpoller, hqueue, reduceOption_cons_of_some]
    exact (Perm.of_eq (append_nil _)).trans perm_append_comm
  | finish hpoller =>
    refine h.of_perm ?_ rfl rfl rfl subset_rfl nofun
    rw [hholds hpoller rfl rfl]
    exact .of_eq (append_nil _)
  | raise hpoller =>
    -- the entry goes from the hands of the poller to what is lost
    refine h.of_perm ?_ rfl rfl rfl subset_rfl nofun
    rw [hholds hpoller rfl rfl]
    exact .of_eq (congrArg (· ++ _) (append_nil _))
  | putBack hpoller =>
    refine h.of_perm ?_ rfl rfl rfl subset_rfl nofun
    rw [hholds hpoller rfl rfl]
    refine (Perm.of_eq (append_nil _)).trans ((World.Linked.perm_concat s.eventQueue _ []).trans ?_)
    rw [append_nil]
    exact (perm_append_singleton _ _).symm
  | update hpoller =>
    refine h.of_perm ?_ rfl rfl rfl (Finset.subset_insert _ _) ?_
    · rw [hholds hpoller rfl rfl]
      exact .of_eq (append_nil _)
    · intro q handle hq
      obtain ⟨-, rfl⟩ := Poller.updated.inj hq
      exact Finset.mem_insert_self _ _
  | release hpoller => exact h.release hpoller

theorem linked_perform {instr : BarrierInstr ι} {rest : List (BarrierInstr ι)} (h : s.Linked)
    (htodo : s.todo = instr :: rest) (hperforms : c.Performs s rest instr t) : t.Linked := by
  have htail : ∀ p, .issue p ∉ rest := by
    intro p
    have htail := h.tail p
    rwa [htodo] at htail
  -- all but the locks and the push
  have hother : (∀ p, instr ≠ .issue p) → ∀ p rest', s.todo ≠ .issue p :: rest' := by
    intro hne p rest' heq
    rw [htodo] at heq
    exact hne p (List.cons.inj heq).1
  cases hperforms with
  | acquire hfree => exact h.acquire htodo hfree
  | issue => exact h.issue htodo rfl
  | raise => exact h.of_perm (.refl _) rfl rfl rfl subset_rfl h.updated
  | delayed =>
    refine h.of_todo (hother nofun) (fun p hmem => ?_) rfl rfl rfl rfl rfl
    exact htail p (mem_of_mem_map_append hmem nofun)
  | putStop =>
    refine h.of_todo (hother nofun) htail ?_ rfl rfl rfl rfl
    unfold World.owed World.entries
    rw [reduceOption_append, reduceOption_cons_of_none, reduceOption_nil, append_nil]
  | wait | read | awaitEmpty | join | closure | ret =>
    exact h.of_todo (hother nofun) htail rfl rfl rfl rfl rfl

omit [DecidableEq ι] in
theorem todo_of_runsPasses (h : s.runsPasses = true) :
    s.todo = [] ∨ ∃ rest, s.todo = .closure :: rest := by
  unfold World.runsPasses at h
  split at h
  · exact .inl ‹_›
  · exact .inr ⟨_, ‹_›⟩
  · cases h

omit [DecidableEq ι] in
theorem not_issue_of_runsPasses (h : s.Linked) (hopen : s.runsPasses = true) :
    (∀ p rest, s.todo ≠ .issue p :: rest) ∧ ∀ p, .issue p ∉ s.todo := by
  rcases todo_of_runsPasses hopen with hidle | ⟨rest, hclosure⟩
  · rw [hidle]
    exact ⟨nofun, fun _ => not_mem_nil⟩
  · have htail := h.tail
    rw [hclosure] at htail ⊢
    exact ⟨nofun, fun p hmem => htail p ((mem_cons.mp hmem).resolve_left nofun)⟩

theorem linked_act {a : Label ι} (h : s.Linked) (hacts : c.Acts s a t) : t.Linked := by
  cases hacts with
  | raise hopen | postpone hopen =>
    obtain ⟨hold, hnone⟩ := not_issue_of_runsPasses h hopen
    exact h.of_todo hold hnone rfl rfl rfl rfl rfl
  | push hopen _ _ hopt =>
    subst hopt
    obtain ⟨hold, hnone⟩ := not_issue_of_runsPasses h hopen
    refine h.of_todo hold (fun p hmem => ?_) rfl rfl rfl rfl rfl
    exact hnone p ((mem_cons.mp hmem).resolve_left nofun)
  | forward hopen =>
    obtain ⟨hold, hnone⟩ := not_issue_of_runsPasses h hopen
    refine h.of_todo hold (fun p hmem => ?_) rfl rfl rfl rfl rfl
    split_ifs at hmem
    · simp only [mem_append, List.mem_map, mem_cons, reduceCtorEq, and_false, exists_false,
        false_or] at hmem
      exact hnone p hmem
    · exact hnone p ((mem_cons.mp hmem).resolve_left nofun)
  | synchronize htodo =>
    refine h.of_todo (fun _ _ => htodo ▸ nofun) (fun p hmem => ?_) rfl rfl rfl rfl rfl
    split_ifs at hmem <;> simp at hmem
  | plain htodo =>
    exact h.of_todo (fun _ _ => htodo ▸ nofun) (fun p => htodo ▸ not_mem_nil) rfl rfl rfl rfl rfl
  | perform htodo hperforms => exact linked_perform h htodo hperforms
  | poll hpolls => exact linked_poll h hpolls
  | complete => exact h.of_perm (.refl _) rfl rfl rfl subset_rfl h.updated

theorem eq_start (h : c.init = .ok s) : s = c.start := by
  unfold init at h
  cases hinit : c.opt.init with
  | error e =>
    rw [hinit] at h
    cases h
  | ok opt =>
    rw [hinit] at h
    obtain rfl := Except.ok.inj h
    obtain ⟨-, hopt⟩ := Raise.require_bind_eq_ok.mp hinit
    obtain rfl := Except.ok.inj hopt
    rfl

theorem init_eq (h : c.opt.Named) : c.init = .ok c.start := by
  unfold init
  rw [DistributedOptimizer.exists_init h]
  rfl

theorem linked_start (c : CrossBarrier ι) : c.start.Linked := by
  constructor <;> intros <;> first
    | exact nodup_nil
    | contradiction
    | exact not_mem_nil

theorem linked_of_reach {G : World ι → Label ι → Prop} (h : Reach c.runs G s) : s.Linked :=
  h.invariant (P := World.Linked) (fun _ hs => eq_start hs ▸ linked_start c)
    fun _ _ _ hlinked _ hstep => linked_act hlinked (acts hstep)

/-! ## The last step -/

/-- Not one of the instructions at the end of `step()`. -/
def isPlain : BarrierInstr ι → Bool
  | .acquire _ | .issue _ | .delayed | .wait _ | .read _ => true
  | .awaitEmpty | .putStop | .join | .closure | .ret => false

/-- An instruction of a forward pass. -/
def isForward : BarrierInstr ι → Bool
  | .wait _ | .read _ => true
  | _ => false

/-- The poller runs, and has no entry in its hands that it may put back. -/
def isQuiet : Poller ι → Bool
  | .idle | .finished _ _ | .updated _ _ => true
  | .got _ _ | .exited | .raised _ _ => false

/-- `step()` looks at the queue while the poller holds an entry that it has not seen finished. -/
def overlooks (s : World ι) : Label ι → Bool
  | .perform =>
    match s.todo, s.poller with
    | .awaitEmpty :: _, .got _ _ => true
    | _, _ => false
  | _ => false

/-- The closure of the last `step()` starts a push-pull, when the poller is gone. -/
def pushesLate (c : CrossBarrier ι) (s : World ι) : Label ι → Bool
  | .hook p =>
    match s.todo, DistributedOptimizer.countDown s.opt p with
    | .closure :: _, .ok (_, delay) => s.stepCount = c.finalStep && delay = 0
    | _, _ => false
  | _ => false

/-- The last step overlooks no entry, and its closure starts no push-pull. -/
def Watched (c : CrossBarrier ι) (s : World ι) (a : Label ι) : Prop :=
  overlooks s a = false ∧ c.pushesLate s a = false

instance (s : World ι) (a : Label ι) : Decidable (c.Watched s a) :=
  inferInstanceAs (Decidable (_ ∧ _))

/-- Where the last step stands: before its wait for the queue, after it, after the stop marker, in
the closure after the end of the poller, and at its end. -/
inductive Phase (c : CrossBarrier ι) (s : World ι) : Prop
  | running {l u : List (BarrierInstr ι)} (htodo : s.todo = l ++ u)
      (hplain : ∀ instr ∈ l, isPlain instr = true)
      (htail : u = [] ∨ (u = [.closure, .ret] ∨ u = [.ret]) ∧ s.stepCount ≠ c.finalStep ∨
        u = [.awaitEmpty, .putStop, .join, .closure, .ret] ∧ s.stepCount = c.finalStep)
      (hrun : s.stepCount ≤ c.finalStep → none ∉ s.eventQueue ∧ s.poller.isAlive = true)
  | empty (htodo : s.todo = [.putStop, .join, .closure, .ret]) (hfinal : s.stepCount = c.finalStep)
      (hqueue : s.eventQueue = []) (hquiet : isQuiet s.poller = true)
  | stopping (htodo : s.todo = [.join, .closure, .ret]) (hfinal : s.stepCount = c.finalStep)
      (hstop : s.eventQueue = [none] ∧ isQuiet s.poller = true ∨
        s.eventQueue = [] ∧ s.poller = .exited)
  | closing {l : List (BarrierInstr ι)} (htodo : s.todo = l ++ [.closure, .ret])
      (hforward : ∀ instr ∈ l, isForward instr = true) (hfinal : s.stepCount = c.finalStep)
      (hqueue : s.eventQueue = []) (hpoller : s.poller = .exited)
  | stopped (htodo : s.todo = [.ret]) (hfinal : s.stepCount = c.finalStep)
      (hqueue : s.eventQueue = []) (hpoller : s.poller = .exited)

omit [DecidableEq ι] in
theorem phase_idle (h : c.Phase s) (hidle : s.todo = []) :
    s.stepCount ≤ c.finalStep → none ∉ s.eventQueue ∧ s.poller.isAlive = true := by
  cases h with
  | running htodo hplain htail hrun => exact hrun
  | empty htodo | stopping htodo | stopped htodo =>
    rw [htodo] at hidle
    cases hidle
  | closing htodo =>
    rw [htodo] at hidle
    exact absurd hidle (by simp)

omit [DecidableEq ι] in
/-- Passes are run outside of `step()`, in the closure of a step that is not the last, or in that of
the last. -/
theorem phase_passes (h : c.Phase s) (hopen : s.runsPasses = true) :
    (s.todo = [] ∨ s.todo = [.closure, .ret] ∧ s.stepCount ≠ c.finalStep) ∧
        (s.stepCount ≤ c.finalStep → none ∉ s.eventQueue ∧ s.poller.isAlive = true) ∨
      s.todo = [.closure, .ret] ∧ s.stepCount = c.finalStep ∧ s.eventQueue = [] ∧
        s.poller = .exited := by
  rcases todo_of_runsPasses hopen with hidle | ⟨rest, hclosure⟩
  · exact .inl ⟨.inl hidle, phase_idle h hidle⟩
  · cases h with
    | running htodo hplain htail hrun =>
      rename_i l u
      cases l with
      | cons instr l =>
        obtain ⟨rfl, -⟩ := List.cons.inj (hclosure.symm.trans htodo)
        cases hplain _ mem_cons_self
      | nil =>
        rw [nil_append] at htodo
        rw [htodo] at hclosure
        rcases htail with rfl | ⟨rfl | rfl, hstep⟩ | ⟨rfl, -⟩
        · cases hclosure
        · exact .inl ⟨.inr ⟨htodo, hstep⟩, hrun⟩
        · cases hclosure
        · cases hclosure
    | empty htodo | stopping htodo | stopped htodo =>
      rw [htodo] at hclosure
      cases hclosure
    | closing htodo hforward hfinal hqueue hpoller =>
      rename_i l
      cases l with
      | cons instr l =>
        obtain ⟨rfl, -⟩ := List.cons.inj (hclosure.symm.trans htodo)
        cases hforward _ mem_cons_self
      | nil => exact .inr ⟨htodo, hfinal, hqueue, hpoller⟩

theorem phase_perform {instr : BarrierInstr ι} {rest : List (BarrierInstr ι)} (h : c.Phase s)
    (htodo : s.todo = instr :: rest) (hwatched : c.Watched s .perform)
    (hperforms : c.Performs s rest instr t) : c.Phase t := by
  cases h with
  | running htodo' hplain htail hrun =>
    rename_i l u
    rw [htodo] at htodo'
    cases l with
    | cons instr' l =>
      obtain ⟨rfl, rfl⟩ := List.cons.inj htodo'
      have hplain' : ∀ instr ∈ l, isPlain instr = true := fun i hi =>
        hplain i (mem_cons_of_mem _ hi)
      cases hperforms with
      | acquire =>
        refine .running (l := .issue _ :: l) rfl (fun i hi => ?_) htail hrun
        rcases mem_cons.mp hi with rfl | hi
        · rfl
        · exact hplain' i hi
      | issue =>
        refine .running rfl hplain' htail fun hle => ⟨fun hmem => ?_, (hrun hle).2⟩
        rcases mem_append.mp hmem with hmem | hmem
        · exact (hrun hle).1 hmem
        · cases mem_singleton.mp hmem
      | raise => exact .running htodo hplain htail hrun
      | delayed =>
        refine .running (l := _ ++ l) (append_assoc ..).symm (fun i hi => ?_) htail hrun
        rcases mem_append.mp hi with hi | hi
        · obtain ⟨_, _, rfl⟩ := mem_map.mp hi
          rfl
        · exact hplain' i hi
      | wait | read => exact .running rfl hplain' htail hrun
      | awaitEmpty | putStop | join | closure | ret => cases hplain _ mem_cons_self
    | nil =>
      rcases htail with rfl | ⟨rfl | rfl, hstep⟩ | ⟨rfl, hstep⟩
      · cases htodo'
      · obtain ⟨rfl, rfl⟩ := List.cons.inj htodo'
        cases hperforms with
        | closure => exact .running (l := []) rfl nofun (.inr (.inl ⟨.inr rfl, hstep⟩)) hrun
      · obtain ⟨rfl, rfl⟩ := List.cons.inj htodo'
        cases hperforms with
        | ret =>
          refine .running (l := []) (u := []) rfl nofun (.inl rfl) fun hle => hrun ?_
          dsimp only at hle
          omega
      · obtain ⟨rfl, rfl⟩ := List.cons.inj htodo'
        cases hperforms with
        | awaitEmpty hempty =>
          obtain ⟨-, halive⟩ := hrun hstep.le
          refine .empty rfl hstep hempty ?_
          have hlooks := hwatched.1
          unfold overlooks at hlooks
          rw [htodo] at hlooks
          revert halive hlooks
          cases s.poller <;> simp [Poller.isAlive, isQuiet]
  | empty htodo' hfinal hqueue hquiet =>
    obtain ⟨rfl, rfl⟩ := List.cons.inj (htodo.symm.trans htodo')
    cases hperforms with
    | putStop => exact .stopping rfl hfinal (.inl ⟨by rw [hqueue]; rfl, hquiet⟩)
  | stopping htodo' hfinal hstop =>
    obtain ⟨rfl, rfl⟩ := List.cons.inj (htodo.symm.trans htodo')
    cases hperforms with
    | join hdown =>
      rcases hstop with ⟨-, hquiet⟩ | ⟨hqueue, hpoller⟩
      · revert hquiet hdown
        cases s.poller <;> simp [Poller.isAlive, isQuiet]
      · exact .closing (l := []) rfl nofun hfinal hqueue hpoller
  | closing htodo' hforward hfinal hqueue hpoller =>
    rename_i l
    rw [htodo] at htodo'
    cases l with
    | nil =>
      obtain ⟨rfl, rfl⟩ := List.cons.inj htodo'
      cases hperforms with
      | closure => exact .stopped rfl hfinal hqueue hpoller
    | cons instr' l =>
      obtain ⟨rfl, rfl⟩ := List.cons.inj htodo'
      have hrest : ∀ instr ∈ l, isForward instr = true := fun i hi =>
        hforward i (mem_cons_of_mem _ hi)
      cases hperforms with
      | wait | read => exact .closing rfl hrest hfinal hqueue hpoller
      | acquire | issue | raise | delayed | awaitEmpty | putStop | join | closure | ret =>
        cases hforward _ mem_cons_self
  | stopped htodo' hfinal hqueue hpoller =>
    obtain ⟨rfl, rfl⟩ := List.cons.inj (htodo.symm.trans htodo')
    cases hperforms with
    | ret =>
      refine .running (l := []) (u := []) rfl nofun (.inl rfl) fun hle => ?_
      dsimp only at hle
      omega

theorem poller_ne_exited (h : c.Polls s t) : s.poller ≠ .exited := by
  intro hexited
  cases h with
  | stop hp | get hp | finish hp | putBack hp | raise hp | update hp | release hp =>
    rw [hp] at hexited
    cases hexited

theorem phase_poll (hclass : c.optimClass ≠ .other) (h : c.Phase s) (hpolls : c.Polls s t) :
    c.Phase t := by
  cases h with
  | running htodo hplain htail hrun =>
    cases hpolls with
    | stop hpoller hqueue =>
      refine .running htodo hplain htail fun hle => absurd ?_ (hrun hle).1
      rw [hqueue]
      exact mem_cons_self
    | get hpoller hqueue =>
      refine .running htodo hplain htail fun hle => ⟨fun hmem => (hrun hle).1 ?_, rfl⟩
      rw [hqueue]
      exact mem_cons_of_mem _ hmem
    | putBack hpoller =>
      refine .running htodo hplain htail fun hle => ⟨fun hmem => ?_, rfl⟩
      rcases mem_append.mp hmem with hmem | hmem
      · exact (hrun hle).1 hmem
      · cases mem_singleton.mp hmem
    | raise hpoller hother => exact absurd hother hclass
    | finish | update | release =>
      exact .running htodo hplain htail fun hle => ⟨(hrun hle).1, rfl⟩
  | empty htodo hfinal hqueue hquiet =>
    cases hpolls with
    | stop hpoller hqueue' | get hpoller hqueue' =>
      rw [hqueue] at hqueue'
      cases hqueue'
    | finish hpoller | putBack hpoller =>
      rw [hpoller] at hquiet
      cases hquiet
    | raise hpoller hother => exact absurd hother hclass
    | update | release => exact .empty htodo hfinal hqueue rfl
  | stopping htodo hfinal hstop =>
    rcases hstop with ⟨hqueue, hquiet⟩ | ⟨hqueue, hexited⟩
    · cases hpolls with
      | stop hpoller hqueue' =>
        obtain ⟨-, rfl⟩ := List.cons.inj (hqueue.symm.trans hqueue')
        exact .stopping htodo hfinal (.inr ⟨rfl, rfl⟩)
      | get hpoller hqueue' => cases (List.cons.inj (hqueue.symm.trans hqueue')).1
      | finish hpoller | putBack hpoller =>
        rw [hpoller] at hquiet
        cases hquiet
      | raise hpoller hother => exact absurd hother hclass
      | update | release => exact .stopping htodo hfinal (.inl ⟨hqueue, rfl⟩)
    · exact absurd hexited (poller_ne_exited hpolls)
  | closing _ _ _ _ hexited | stopped _ _ _ hexited =>
    exact absurd hexited (poller_ne_exited hpolls)

omit [DecidableEq ι] in
/-- Plain instructions are put before a todo list at which passes are run. -/
theorem phase_of_passes {l : List (BarrierInstr ι)} (hplain : ∀ instr ∈ l, isPlain instr = true)
    (htodo : t.todo = l ++ s.todo) (hcount : t.stepCount = s.stepCount)
    (hqueue : t.eventQueue = s.eventQueue) (hpoller : t.poller = s.poller)
    (h : (s.todo = [] ∨ s.todo = [.closure, .ret] ∧ s.stepCount ≠ c.finalStep) ∧
      (s.stepCount ≤ c.finalStep → none ∉ s.eventQueue ∧ s.poller.isAlive = true)) :
    c.Phase t := by
  rw [← hcount, ← hqueue, ← hpoller] at h
  exact .running htodo hplain (h.1.imp_right fun hstep => .inl ⟨.inl hstep.1, hstep.2⟩) h.2

theorem phase_act {a : Label ι} (hclass : c.optimClass ≠ .other) (h : c.Phase s)
    (hwatched : c.Watched s a) (hacts : c.Acts s a t) : c.Phase t := by
  cases hacts with
  | raise hopen | postpone hopen =>
    rcases phase_passes h hopen with hrun | ⟨htodo, hfinal, hqueue, hpoller⟩
    · exact phase_of_passes (l := []) nofun rfl rfl rfl rfl hrun
    · exact .closing (l := []) htodo nofun hfinal hqueue hpoller
  | @push p _ _ _ hopen _ hcount =>
    rcases phase_passes h hopen with hrun | ⟨htodo, hfinal, -⟩
    · refine phase_of_passes (l := [.acquire p]) (fun i hi => ?_) rfl rfl rfl rfl hrun
      exact mem_singleton.mp hi ▸ rfl
    · -- the closure of the last step does not get here
      have hlate := hwatched.2
      simp [pushesLate, htodo, hcount, hfinal] at hlate
  | @forward mod hopen =>
    have hforward : ∀ i ∈ (if mod.id ∈ c.hooked then mod.parameters.map BarrierInstr.wait else []) ++
        [.read mod], isForward i = true := by
      intro i hi
      rcases mem_append.mp hi with hi | hi
      · split_ifs at hi
        · obtain ⟨_, _, rfl⟩ := mem_map.mp hi
          rfl
        · cases hi
      · exact mem_singleton.mp hi ▸ rfl
    rcases phase_passes h hopen with hrun | ⟨htodo, hfinal, hqueue, hpoller⟩
    · refine phase_of_passes (fun i hi => ?_) (append_cons ..) rfl rfl rfl hrun
      have hi := hforward i hi
      cases i <;> first | rfl | cases hi
    · refine .closing ?_ hforward hfinal hqueue hpoller
      rw [← htodo]
      exact append_cons ..
  | @synchronize order hidle =>
    have hrun := phase_idle h hidle
    refine .running (l := order.map .acquire ++ [.delayed]) (append_cons ..) (fun i hi => ?_)
      ?_ hrun
    · rcases mem_append.mp hi with hi | hi
      · obtain ⟨_, _, rfl⟩ := mem_map.mp hi
        rfl
      · exact mem_singleton.mp hi ▸ rfl
    · split_ifs with hfinal
      · exact .inr (.inr ⟨rfl, hfinal⟩)
      · exact .inr (.inl ⟨.inl rfl, hfinal⟩)
  | plain hidle =>
    have hrun := phase_idle h hidle
    refine .running (l := []) (u := []) hidle nofun (.inl rfl) fun hle => hrun ?_
    dsimp only at hle
    omega
  | perform htodo hperforms => exact phase_perform h htodo hwatched hperforms
  | poll hpolls => exact phase_poll hclass h hpolls
  | complete =>
    cases h with
    | running htodo hplain htail hrun => exact .running htodo hplain htail hrun
    | empty htodo hfinal hqueue hquiet => exact .empty htodo hfinal hqueue hquiet
    | stopping htodo hfinal hstop => exact .stopping htodo hfinal hstop
    | closing htodo hforward hfinal hqueue hpoller =>
      exact .closing htodo hforward hfinal hqueue hpoller
    | stopped htodo hfinal hqueue hpoller => exact .stopped htodo hfinal hqueue hpoller

theorem phase_start (c : CrossBarrier ι) : c.Phase c.start :=
  .running (l := []) (u := []) rfl nofun (.inl rfl) fun _ => ⟨not_mem_nil, rfl⟩

/-- The training thread is at the end of the last `step()`. -/
def returns (c : CrossBarrier ι) (s : World ι) : Bool :=
  match s.todo with
  | [.ret] => s.stepCount == c.finalStep
  | _ => false

omit [DecidableEq ι] in
theorem owed_of_returns (h : c.Phase s) (hret : c.returns s = true) :
    s.owed = [] ∧ ∀ p rest, s.todo ≠ .issue p :: rest := by
  unfold returns at hret
  split at hret
  · rename_i htodo
    have hfinal : s.stepCount = c.finalStep := beq_iff_eq.mp hret
    rw [htodo]
    refine ⟨?_, nofun⟩
    cases h with
    | running htodo' hplain htail hrun =>
      rename_i l u
      rw [htodo] at htodo'
      rcases htail with rfl | ⟨-, hne⟩ | ⟨rfl, -⟩
      · rw [append_nil] at htodo'
        cases hplain .ret (htodo' ▸ mem_cons_self)
      · exact absurd hfinal hne
      · have hlen := congrArg length htodo'
        simp at hlen
    | empty htodo' | stopping htodo' =>
      rw [htodo] at htodo'
      cases htodo'
    | closing htodo' =>
      have hlen := congrArg length (htodo.symm.trans htodo')
      simp at hlen
    | stopped _ _ hqueue hpoller =>
      unfold World.owed World.entries
      rw [hqueue, hpoller]
      rfl
  · cases hret

/-- If the last step never looks at the queue while the poller holds an entry, and its closure starts
no push-pull, all push-pulls are applied and all their locks released when it returns. -/
theorem all_applied_of_reach (c : CrossBarrier ι) (hclass : c.optimClass ≠ .other) (s : World ι)
    (h : Reach c.runs c.Watched s) (hret : c.returns s = true) :
    ∀ handle e, s.opt.pushed[handle]? = some e → handle ∈ s.applied ∧ s.locks e.1 = false := by
  have hphase : c.Phase s := h.invariant (P := c.Phase)
    (fun s (hs : c.init = .ok s) => eq_start hs ▸ phase_start c)
    fun _ _ _ hphase hwatched hstep => phase_act hclass hphase hwatched (acts hstep)
  have hlinked := linked_of_reach h
  obtain ⟨howed, hissue⟩ := owed_of_returns hphase hret
  intro handle e he
  constructor
  · rcases hlinked.outstanding handle e he with happlied | hmem
    · exact happlied
    · rw [howed] at hmem
      cases hmem
  · rw [← Bool.not_eq_true]
    intro hlocked
    rcases hlinked.held e.1 hlocked with ⟨rest, htodo⟩ | hmem
    · exact hissue e.1 rest htodo
    · rw [howed] at hmem
      cases hmem

/-- One parameter and one training step after the broadcast. -/
def oneStep : CrossBarrier ℕ where
  model := .node 0 [0] [.node 1 [] []]
  opt :=
    { paramGroups := [[0]]
      disjoint := by simp
      requiresGrad := fun _ => true
      dtype := fun _ => .float32
      namedParameters := some [("weight", 0)]
      size := 2 }
  optimClass := .sgd
  finalStep := 1

theorem oneStep_init : oneStep.init = .ok oneStep.start := by
  refine init_eq fun l hl => ?_
  obtain rfl := some.inj hl
  decide

/-- The poller has released the lock before the last step looks at the queue, and the closure of the
step runs a forward pass. -/
theorem all_applied_oneStep : ∃ s, Reach oneStep.runs oneStep.Watched s ∧
    oneStep.returns s = true ∧ s.opt.pushed = [(0, "Gradient.weight")] ∧ 0 ∈ s.applied ∧
      s.locks 0 = false := by
  obtain ⟨s, hs, hret, hpushed⟩ := exists_reach (S := oneStep.runs) (G := oneStep.Watched)
    (P := fun s => oneStep.returns s = true ∧ s.opt.pushed = [(0, "Gradient.weight")])
    (.init oneStep_init)
    [.step [0], .step [0], .perform, .perform, .complete 0, .poll, .poll, .poll, .poll, .perform,
      .perform, .perform, .poll, .perform, .forward oneStep.model, .perform, .perform]
    (by decide)
  have happlied := all_applied_of_reach oneStep (by decide) s hs hret 0 (0, "Gradient.weight")
  rw [hpushed] at happlied
  exact ⟨s, hs, hret, hpushed, happlied rfl⟩

/-- The poller puts an unfinished entry back behind the stop marker. -/
theorem last_step_drops_entry : ∃ s, Reach oneStep.runs Free s ∧ oneStep.returns s = true ∧
    s.opt.pushed = [(0, "Gradient.weight")] ∧ 0 ∉ s.applied ∧ s.locks 0 = true :=
  exists_reach (S := oneStep.runs) (G := Free) (.init oneStep_init)
    [.step [0], .step [0], .perform, .perform, .perform, .poll, .perform, .perform, .poll, .poll,
      .perform, .perform]
    (by decide)

/-- A poller that raised is one of an optimizer of another class. -/
theorem lost_eq_none_of_reach {G : World ι → Label ι → Prop} (hclass : c.optimClass ≠ .other)
    (h : Reach c.runs G s) : s.poller.lost = none := by
  refine h.invariant (P := fun s => s.poller.lost = none)
    (fun s (hs : c.init = .ok s) => eq_start hs ▸ rfl) fun s a t hlost _ hstep => ?_
  cases acts hstep with
  | poll hpolls =>
    cases hpolls with
    | raise _ hother => exact absurd hother hclass
    | stop | get | finish | putBack | update | release => rfl
  | perform _ hperforms => cases hperforms <;> exact hlost
  | raise | push | postpone | forward | synchronize | plain | complete => exact hlost

/-- Parameters are pushed that require an update, and no others. -/
structure Routed (c : CrossBarrier ι) (s : World ι) : Prop where
  update : s.opt.requiresUpdate = c.opt.requiresUpdate
  keys : ∀ p v, s.opt.handles.get? p = some v → p ∈ c.opt.requiresUpdate
  todo : ∀ p, .acquire p ∈ s.todo ∨ .issue p ∈ s.todo → p ∈ c.opt.requiresUpdate
  pushed : ∀ e ∈ s.opt.pushed, e.1 ∈ c.opt.requiresUpdate

/-- No instruction pushes a parameter that requires no update. -/
theorem Routed.perform {instr : BarrierInstr ι} {rest : List (BarrierInstr ι)} (h : c.Routed s)
    (htodo : s.todo = instr :: rest) (hperforms : c.Performs s rest instr t) : c.Routed t := by
  have hrest : ∀ p, .acquire p ∈ rest ∨ .issue p ∈ rest → p ∈ c.opt.requiresUpdate := by
    intro p hp
    refine h.todo p ?_
    rw [htodo]
    exact hp.imp (mem_cons_of_mem _) (mem_cons_of_mem _)
  cases hperforms with
  | @acquire p =>
    have hp : p ∈ c.opt.requiresUpdate := h.todo p (.inl (htodo ▸ mem_cons_self))
    refine ⟨h.update, h.keys, fun q hq => ?_, h.pushed⟩
    rcases hq with hq | hq <;> rcases mem_cons.mp hq with heq | hq
    · cases heq
    · exact hrest q (.inl hq)
    · exact BarrierInstr.issue.inj heq ▸ hp
    · exact hrest q (.inr hq)
  | @issue p name =>
    have hp : p ∈ c.opt.requiresUpdate := h.todo p (.inr (htodo ▸ mem_cons_self))
    refine ⟨h.update, fun q v hq => ?_, hrest, fun e he => ?_⟩
    · change (s.opt.handles.set p (some name)).get? q = some v at hq
      rw [Dict.get?_set] at hq
      split_ifs at hq with hqp
      · exact hqp ▸ hp
      · exact h.keys q v hq
    · rcases mem_append.mp he with he | he
      · exact h.pushed e he
      · exact mem_singleton.mp he ▸ hp
  | raise => exact ⟨h.update, h.keys, h.todo, h.pushed⟩
  | delayed =>
    refine ⟨h.update, h.keys, fun q hq => ?_, h.pushed⟩
    rcases hq with hq | hq <;> rcases mem_append.mp hq with hq | hq
    · obtain ⟨entry, hentry, heq⟩ := mem_map.mp hq
      have hget := Dict.mem_entries_iff.mp (mem_of_mem_filter hentry)
      exact BarrierInstr.acquire.inj heq ▸ h.keys _ _ hget
    · exact hrest q (.inl hq)
    · obtain ⟨_, _, heq⟩ := mem_map.mp hq
      cases heq
    · exact hrest q (.inr hq)
  | @wait p =>
    refine ⟨h.update, fun q v hq => ?_, hrest, h.pushed⟩
    change (s.opt.handles.erase p).get? q = some v at hq
    rw [Dict.get?_erase] at hq
    split_ifs at hq
    exact h.keys q v hq
  | read | awaitEmpty | putStop | join | closure | ret =>
    exact ⟨h.update, h.keys, hrest, h.pushed⟩

/-- No thread pushes a parameter that requires no update. -/
theorem Routed.act {a : Label ι} (h : c.Routed s) (hacts : c.Acts s a t) : c.Routed t := by
  cases hacts with
  | raise | plain | complete => exact ⟨h.update, h.keys, h.todo, h.pushed⟩
  | push _ hp _ hopt =>
    subst hopt
    refine ⟨h.update, h.keys, fun q hq => ?_, h.pushed⟩
    rcases hq with hq | hq <;> rcases mem_cons.mp hq with heq | hq
    · exact BarrierInstr.acquire.inj heq ▸ h.update ▸ hp
    · exact h.todo q (.inl hq)
    · cases heq
    · exact h.todo q (.inr hq)
  | @postpone p _ _ hidle hp =>
    refine ⟨h.update, fun q v hq => ?_, h.todo, h.pushed⟩
    change (s.opt.handles.set p none).get? q = some v at hq
    rw [Dict.get?_set] at hq
    split_ifs at hq with hqp
    · exact hqp ▸ h.update ▸ hp
    · exact h.keys q v hq
  | forward =>
    refine ⟨h.update, h.keys, fun q hq => ?_, h.pushed⟩
    refine h.todo q ?_
    split_ifs at hq <;> simpa using hq
  | @synchronize order hidle horder =>
    refine ⟨h.update, h.keys, fun q hq => ?_, h.pushed⟩
    have hmem : q ∈ order := by
      split_ifs at hq <;> simpa using hq
    exact h.update ▸ horder q hmem
  | perform htodo hperforms => exact h.perform htodo hperforms
  | poll hpolls =>
    cases hpolls with
    | stop | get | finish | putBack | raise | update | release =>
      exact ⟨h.update, h.keys, h.todo, h.pushed⟩

theorem routed_of_reach {G : World ι → Label ι → Prop} (h : Reach c.runs G s) : c.Routed s :=
  h.invariant (P := c.Routed)
    (fun s (hs : c.init = .ok s) => eq_start hs ▸ ⟨rfl, nofun, nofun, nofun⟩)
    fun _ _ _ hrouted _ hstep => hrouted.act (acts hstep)

end CrossBarrier

/-- All push-pulls of a parameter that were issued are applied. -/
def World.Settled {ι : Type} (s : World ι) (p : ι) : Prop :=
  ∀ handle e, s.opt.pushed[handle]? = some e → e.1 = p → handle ∈ s.applied

def World.reading {ι : Type} (s : World ι) : Option (Module ι) :=
  match s.todo with
  | .read mod :: _ => some mod
  | _ => none

namespace CrossBarrier

open List

variable {ι : Type} [DecidableEq ι] {c : CrossBarrier ι} {s t : World ι}

omit [DecidableEq ι] in
theorem settled_mono {p : ι} (h : s.Settled p) (hpushed : t.opt.pushed = s.opt.pushed)
    (happlied : s.applied ⊆ t.applied) : t.Settled p :=
  fun handle e he hp => happlied (h handle e (hpushed ▸ he) hp)

theorem settled_of_free {p : ι} (hlinked : s.Linked) (hrouted : c.Routed s)
    (hfree : p ∈ c.opt.params → s.locks p = false) : s.Settled p := by
  rintro handle e he rfl
  rcases hlinked.outstanding handle e he with happlied | hmem
  · exact happlied
  · have hparam : e.1 ∈ c.opt.params := by
      have hupdate := hrouted.pushed e (mem_of_getElem? he)
      unfold DistributedOptimizer.requiresUpdate at hupdate
      split_ifs at hupdate
      · exact mem_of_mem_filter (mem_toFinset.mp hupdate)
      · cases hupdate
    have hlocked := hlinked.locked _ hmem
    rw [hfree hparam] at hlocked
    cases hlocked

/-- A module is called that has a hook, or that owns no parameter of the optimizer. -/
def Hooked (c : CrossBarrier ι) (_ : World ι) : Label ι → Prop
  | .forward mod => (mod.children = [] ∧ ∃ child ∈ c.model.children, mod.In child) ∨
    ∀ p ∈ mod.params, p ∉ c.opt.requiresUpdate
  | _ => True

/-- Before a module reads, the thread waits for those of its parameters that are not settled. -/
def Reading (s : World ι) : Prop :=
  ∀ mod, .read mod ∈ s.todo → ∃ (ws : List ι) (rest : List (BarrierInstr ι)),
    s.todo = ws.map .wait ++ .read mod :: rest ∧ (∀ mod', .read mod' ∉ rest) ∧
      ∀ p ∈ mod.params, p ∈ ws ∨ s.Settled p

omit [DecidableEq ι] in
theorem reading_of_todo (h : Reading s) (htodo : t.todo = s.todo)
    (hpushed : t.opt.pushed = s.opt.pushed) (happlied : s.applied ⊆ t.applied) : Reading t := by
  intro mod hmem
  rw [htodo] at hmem ⊢
  obtain ⟨ws, rest, hws, hrest, hsettled⟩ := h mod hmem
  exact ⟨ws, rest, hws, hrest, fun p hp => (hsettled p hp).imp_right fun hp =>
    settled_mono hp hpushed happlied⟩

theorem reading_perform {instr : BarrierInstr ι} {rest : List (BarrierInstr ι)} (h : Reading s)
    (hlinked : s.Linked) (hrouted : c.Routed s) (htodo : s.todo = instr :: rest)
    (hperforms : c.Performs s rest instr t) : Reading t := by
  -- a later read leaves waits only before it
  have hrest : ∀ mod, .read mod ∈ rest → ∃ (p : ι) (ws : List ι) (rest' : List (BarrierInstr ι)),
      instr = .wait p ∧ rest = ws.map .wait ++ .read mod :: rest' ∧
      (∀ mod', .read mod' ∉ rest') ∧ ∀ q ∈ mod.params, q = p ∨ q ∈ ws ∨ s.Settled q := by
    intro mod hmem
    obtain ⟨ws, rest', hws, hnone, hsettled⟩ := h mod (htodo ▸ mem_cons_of_mem _ hmem)
    rw [htodo] at hws
    cases ws with
    | nil =>
      obtain ⟨-, rfl⟩ := List.cons.inj hws
      exact absurd hmem (hnone mod)
    | cons p ws =>
      obtain ⟨rfl, rfl⟩ := List.cons.inj hws
      refine ⟨p, ws, rest', rfl, rfl, hnone, fun q hq => ?_⟩
      rw [← or_assoc, ← mem_cons]
      exact hsettled q hq
  have hnone : (∀ p, instr ≠ .wait p) → ∀ mod, .read mod ∉ rest := by
    intro hne mod hmem
    obtain ⟨p, _, _, hp, -⟩ := hrest mod hmem
    exact hne p hp
  cases hperforms with
  | @wait p hfree =>
    intro mod hmem
    obtain ⟨p', ws, rest', hp', hws, hlast, hsettled⟩ := hrest mod hmem
    obtain rfl := BarrierInstr.wait.inj hp'
    refine ⟨ws, rest', hws, hlast, fun q hq => ?_⟩
    rcases hsettled q hq with rfl | hq | hq
    · exact .inr (settled_mono (settled_of_free hlinked hrouted hfree) rfl subset_rfl)
    · exact .inl hq
    · exact .inr hq
  | acquire =>
    intro mod hmem
    rcases mem_cons.mp hmem with heq | hmem
    · cases heq
    · exact absurd hmem (hnone nofun mod)
  | raise => exact reading_of_todo h rfl rfl subset_rfl
  | delayed =>
    intro mod hmem
    exact absurd (mem_of_mem_map_append hmem nofun) (hnone nofun mod)
  | issue | read | awaitEmpty | putStop | join | closure | ret =>
    exact fun mod hmem => absurd hmem (hnone nofun mod)

omit [DecidableEq ι] in
/-- No module is about to read where passes are started. -/
theorem Reading.not_mem (h : Reading s) (hopen : s.runsPasses = true) (mod : Module ι) :
    .read mod ∉ s.todo := by
  intro hmem
  obtain ⟨ws, rest, hws, -, -⟩ := h mod hmem
  rcases todo_of_runsPasses hopen with hidle | ⟨_, hclosure⟩
  · rw [hidle] at hmem
    cases hmem
  · rw [hclosure] at hws
    cases ws <;> cases (List.cons.inj hws).1

theorem reading_act {a : Label ι} (h : Reading s) (hlinked : s.Linked) (hrouted : c.Routed s)
    (hhooked : c.Hooked s a) (hacts : c.Acts s a t) : Reading t := by
  cases hacts with
  | raise | postpone | plain | complete => exact reading_of_todo h rfl rfl subset_rfl
  | push hopen =>
    intro mod hmem
    exact absurd ((mem_cons.mp hmem).resolve_left nofun) (h.not_mem hopen mod)
  | @forward mod hopen =>
    have hread : ∀ ws : List ι, (∀ p ∈ mod.params, p ∈ ws ∨ s.Settled p) →
        Reading { s with todo := ws.map .wait ++ .read mod :: s.todo } := by
      intro ws hws mod' hmem
      rcases mem_cons.mp (mem_of_mem_map_append hmem nofun) with heq | hmem
      · obtain rfl := BarrierInstr.read.inj heq
        exact ⟨ws, s.todo, rfl, h.not_mem hopen, hws⟩
      · exact absurd hmem (h.not_mem hopen mod')
    split_ifs with hid
    · refine hread _ fun p hp => .inl ?_
      cases mod
      rw [Module.parameters]
      exact mem_append_left _ hp
    · refine hread [] fun p hp => .inr fun handle e he heq =>
        absurd (heq ▸ hrouted.pushed e (mem_of_getElem? he)) ?_
      rcases hhooked with ⟨hleaf, child, hchild, hin⟩ | hnone
      · -- without a hook there is one worker only
        have hsize : ¬1 < c.opt.size := by
          intro hsize
          rw [hooked, if_pos hsize] at hid
          exact hid (mem_map.mpr ⟨mod, Module.mem_submodules hleaf hchild hin, rfl⟩)
        unfold DistributedOptimizer.requiresUpdate
        rw [if_neg hsize]
        exact Finset.notMem_empty p
      · exact hnone p hp
  | synchronize =>
    intro mod hmem
    split_ifs at hmem <;> simp at hmem
  | perform htodo hperforms => exact reading_perform h hlinked hrouted htodo hperforms
  | poll hpolls =>
    cases hpolls with
    | stop | get | finish | putBack | raise | release => exact reading_of_todo h rfl rfl subset_rfl
    | update => exact reading_of_todo h rfl rfl (Finset.subset_insert _ _)

/-- If only leaves below the model own parameters of the optimizer, no module reads its parameters
while a push-pull of one of them is not applied. -/
theorem reads_settled_of_reach (c : CrossBarrier ι) (s : World ι) (h : Reach c.runs c.Hooked s)
    (mod : Module ι) (hread : s.reading = some mod) : ∀ p ∈ mod.params, s.Settled p := by
  have hreading : Reading s := by
    clear hread
    induction h with
    | init hs => exact eq_start hs ▸ fun _ hmem => nomatch hmem
    | step hreach hhooked hstep ih =>
      exact reading_act ih (linked_of_reach hreach) (routed_of_reach hreach) hhooked (acts hstep)
  unfold World.reading at hread
  split at hread
  · rename_i rest htodo
    obtain rfl := some.inj hread
    obtain ⟨ws, _, hws, -, hsettled⟩ := hreading _ (htodo ▸ mem_cons_self)
    rw [htodo] at hws
    cases ws with
    | nil => exact fun p hp => (hsettled p hp).resolve_left not_mem_nil
    | cons p ws => cases (List.cons.inj hws).1
  · cases hread

def parentModel : CrossBarrier ℕ := { oneStep with finalStep := 2 }

def leafModel : CrossBarrier ℕ := { parentModel with model := .node 0 [] [.node 1 [0] []] }

def callsLeaf : Label ℕ → Bool
  | .forward (.node 1 [0] []) => true
  | .forward _ => false
  | _ => true

/-- A leaf reads after the update of its parameter. -/
theorem reads_settled_leafModel : ∃ s mod, Reach leafModel.runs leafModel.Hooked s ∧
    s.reading = some mod ∧ mod.params = [0] ∧ s.opt.pushed.length = 1 ∧ s.Settled 0 := by
  obtain ⟨s, hs, hread, hpushed⟩ := exists_reach (S := leafModel.runs)
    (G := fun _ a => callsLeaf a = true)
    (P := fun s => s.reading.map Module.params = some [0] ∧ s.opt.pushed.length = 1)
    (.init oneStep_init)
    [.step [0], .step [0], .perform, .perform, .complete 0, .poll, .poll, .poll, .poll, .perform,
      .perform, .perform, .forward (.node 1 [0] []), .perform]
    (by decide)
  have hs' : Reach leafModel.runs leafModel.Hooked s := hs.mono fun _ a ha => by
    cases a with
    | forward =>
      unfold callsLeaf at ha
      split at ha
      · rename_i hleaf
        obtain rfl := Label.forward.inj hleaf
        exact .inl ⟨rfl, _, mem_singleton_self _, .self⟩
      all_goals simp_all
    | _ => trivial
  obtain ⟨mod, hmod, hparams⟩ := Option.map_eq_some_iff.mp hread
  exact ⟨s, mod, hs', hmod, hparams, hpushed,
    reads_settled_of_reach leafModel s hs' mod hmod 0 (hparams ▸ mem_singleton_self 0)⟩

/-- A module with children has no hook, and reads before the update. -/
theorem parent_reads_unsettled : ∃ s mod, Reach parentModel.runs Free s ∧
    s.reading = some mod ∧ 0 ∈ mod.params ∧ ¬s.Settled 0 := by
  obtain ⟨s, hs, hread, hpushed, happlied⟩ := exists_reach (S := parentModel.runs) (G := Free)
    (P := fun s => s.reading.map Module.params = some [0] ∧
      s.opt.pushed = [(0, "Gradient.weight")] ∧ 0 ∉ s.applied)
    (.init oneStep_init)
    [.step [0], .step [0], .perform, .perform, .perform, .perform, .perform,
      .forward parentModel.model]
    (by decide)
  obtain ⟨mod, hmod, hparams⟩ := Option.map_eq_some_iff.mp hread
  refine ⟨s, mod, hs, hmod, hparams ▸ mem_singleton_self 0, fun hsettled => happlied ?_⟩
  exact hsettled 0 (0, "Gradient.weight") (hpushed ▸ rfl) rfl

end CrossBarrier

end MegatronDPU.Torch
