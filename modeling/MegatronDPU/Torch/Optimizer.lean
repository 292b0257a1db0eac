import MegatronDPU.Lib.Decimal
import MegatronDPU.Lib.Gate
import MegatronDPU.Torch.Ddp

/-!
# `byteps.torch.DistributedOptimizer`

A hook of each parameter counts its backward passes and pushes the gradient after the last one;
`step()` pushes what was not pushed yet, waits for all handles and starts the counts again. The
counts come from the list of named parameters. Without that list there are none, and the first hook
raises; moreover every group then numbers its parameters from zero.
-/

namespace MegatronDPU.Torch

open Raise Lts List Option

/-- `byteps.torch.Compression`. -/
inductive Compression
  | none
  | fp16
  deriving DecidableEq

def Compression.compress : Compression → Dtype → Dtype
  | .none, dtype => dtype
  | .fp16, dtype => if dtype.isFloatingPoint then .float16 else dtype

/-- A call of `DistributedOptimizer`: an optimizer, and how it is wrapped. -/
structure DistributedOptimizer (ι : Type) where
  paramGroups : List (List ι)
  /-- `add_param_group` refuses a parameter of another group. -/
  disjoint : paramGroups.Pairwise Disjoint
  requiresGrad : ι → Bool
  dtype : ι → Dtype
  namedParameters : Option (List (String × ι)) := none
  compression : Compression := .none
  backwardPassesPerStep : ℤ := 1
  /-- `size()`. -/
  size : ℕ
  /-- `BYTEPS_ENABLE_ASYNC`. -/
  enableAsync : Bool := false

/-- `_DistributedOptimizer`. The last three fields are history: how often the hook of a parameter was
called since the last step, what was pushed since then under which name, and what was pushed for
each step before. -/
structure OptimizerState (ι : Type) where
  parameterNames : Dict ι String
  pushPullDelay : Dict ι ℤ
  /-- The name that a handle was pushed under, or `none` for no handle. -/
  handles : Dict ι (Option String) := .empty
  requiresUpdate : Finset ι
  fired : ι → ℕ := fun _ => 0
  pushed : List (ι × String) := []
  steps : List (List (ι × String)) := []

namespace DistributedOptimizer

variable {ι : Type} [DecidableEq ι] (o : DistributedOptimizer ι)

/-! ## `__init__` -/

def params : List ι := o.paramGroups.flatten

/-- `find_duplicates`. -/
def findDuplicates (lst : List String) : List String :=
  (lst.foldl (fun (acc : List String × List String) el =>
    (el :: acc.1, if el ∈ acc.1 ∧ el ∉ acc.2 then acc.2 ++ [el] else acc.2)) ([], [])).2

/-- `sorted(named_parameters)`, where no two names are equal. -/
def sortedParameters : List (String × ι) :=
  (o.namedParameters.getD []).insertionSort fun a b => a.1 ≤ b.1

def places : Dict ι ℕ := .ofList (o.paramGroups.flatMap zipIdx)

/-- `self._parameter_names`. -/
def parameterNames : Dict ι String :=
  if o.namedParameters.getD [] = [] then
    .ofList ((o.paramGroups.flatMap zipIdx).map fun e =>
      (e.1, "push_pull.noname." ++ toString e.2))
  else .ofList (o.sortedParameters.map fun e => (e.2, e.1))

/-- `self._push_pull_delay`. -/
def pushPullDelay : Dict ι ℤ :=
  .ofList (o.sortedParameters.map fun e => (e.2, o.backwardPassesPerStep))

/-- `self._requires_update` after `_register_hooks`; these parameters have hooks. -/
def requiresUpdate : Finset ι :=
  if 1 < o.size then (o.params.filter fun p => o.requiresGrad p).toFinset else ∅

def init : Except PyError (OptimizerState ι) :=
  let dups := findDuplicates ((o.namedParameters.getD []).map Prod.fst)
  require (dups = []) (.valueError ("Parameter names in named_parameters must be unique. " ++
      "Found duplicates: " ++ ", ".intercalate dups)) >>= fun _ =>
    .ok {
      parameterNames := o.parameterNames
      pushPullDelay := o.pushPullDelay
      requiresUpdate := o.requiresUpdate }

/-! ## Hooks -/

/-- `byteps_push_pull` of a tensor under a name. -/
def pushPull (s : OptimizerState ι) (p : ι) (dtype : Dtype) (kind : String) :
    Except PyError (OptimizerState ι × String) :=
  match s.parameterNames.get? p with
  | none => .error (.typeError "can only concatenate str (not \"NoneType\") to str")
  | some name =>
    require (dtype ∈ Dtype.bound)
        (.valueError ("Tensor type " ++ dtype.typeName ++ " is not supported.")) >>= fun _ =>
      .ok ({ s with pushed := s.pushed ++ [(p, kind ++ name)] }, kind ++ name)

/-- `_push_pull_grad_async`, and then `self._handles[p] = (handle, ctx)`, as all callers do. -/
def pushPullGradAsync (s : OptimizerState ι) (p : ι) : Except PyError (OptimizerState ι) :=
  if o.enableAsync then .ok { s with handles := s.handles.set p none }
  else
    (pushPull s p (o.compression.compress (o.dtype p)) "Gradient.").map fun done =>
      { done.1 with handles := done.1.handles.set p (some done.2) }

/-- `self._push_pull_delay[p]`. -/
def delay (s : OptimizerState ι) (p : ι) : Except PyError ℤ :=
  match s.pushPullDelay.get? p with
  | none => .error (.keyError "p")
  | some d => .ok d

/-- A hook up to the push: `self._push_pull_delay[p]` is counted down. -/
def countDown (s : OptimizerState ι) (p : ι) : Except PyError (OptimizerState ι × ℤ) :=
  (match s.handles.get? p with
  | some (some _) => delay s p >>= fun d =>
    require (0 < d) (.assertionError ("Gradients were computed more than " ++
      "backward_passes_per_step times before call " ++
      "to step(). Increase backward_passes_per_step to " ++
      "accumulate gradients locally."))
  | _ => .ok ()) >>= fun _ =>
  delay s p >>= fun d =>
  require (0 < d) (.assertionError) >>= fun _ =>
  .ok ({ s with
    pushPullDelay := s.pushPullDelay.set p (d - 1)
    fired := tick s.fired p }, d - 1)

def hook (s : OptimizerState ι) (p : ι) : Except PyError (OptimizerState ι) :=
  countDown s p >>= fun counted =>
    if counted.2 = 0 then o.pushPullGradAsync counted.1 p
    else .ok { counted.1 with handles := counted.1.handles.set p none }

/-! ## Steps -/

/-- The first loop of `synchronize`, over `missing_p` in some order. -/
def pushMissing (order : List ι) (s : OptimizerState ι) : Except PyError (OptimizerState ι) :=
  order.foldlM o.pushPullGradAsync s

/-- The second loop of `synchronize`. -/
def pushDelayed (s : OptimizerState ι) : Except PyError (OptimizerState ι) :=
  s.handles.entries.foldlM (fun s entry =>
    match entry.2 with
    | some _ => .ok s
    | none => o.pushPullGradAsync s entry.1) s

/-- The last loop of `synchronize`, and `self._handles.clear()`. -/
def wait (s : OptimizerState ι) : OptimizerState ι :=
  { s with
    pushPullDelay := s.handles.entries.foldl (fun delay entry =>
      delay.set entry.1 o.backwardPassesPerStep) s.pushPullDelay
    handles := .empty }

def synchronize (order : List ι) (s : OptimizerState ι) : Except PyError (OptimizerState ι) :=
  o.pushMissing order s >>= fun s => o.pushDelayed s >>= fun s => .ok (o.wait s)

/-- The loop of an asynchronous `step()` over the handles. -/
def pushWeights (s : OptimizerState ι) : Except PyError (OptimizerState ι) :=
  s.handles.entries.foldlM (fun s entry =>
    match entry.2 with
    | some _ => .ok s
    | none => (pushPull s entry.1 (o.dtype entry.1) "Parameter.").map fun done =>
      { done.1 with handles := done.1.handles.set entry.1 (some done.2) }) s

/-- `step()`. -/
def step (order : List ι) (s : OptimizerState ι) : Except PyError (OptimizerState ι) :=
  (if o.enableAsync then o.pushWeights s else .ok s) >>= fun s => o.synchronize order s >>= fun s =>
    .ok { s with fired := fun _ => 0, pushed := [], steps := s.steps ++ [s.pushed] }

/-! ## Runs -/

inductive Label (ι : Type)
  | hook (p : ι)
  /-- `order` is the order in which `missing_p` is iterated over. -/
  | step (order : List ι)

def act (s : OptimizerState ι) : Label ι → Option (Except PyError (OptimizerState ι))
  | .hook p => if p ∈ s.requiresUpdate then some (o.hook s p) else none
  | .step order =>
    if order.Nodup ∧ order.toFinset = s.requiresUpdate \ (s.handles.entries.map Prod.fst).toFinset
    then some (o.step order s)
    else none

def runs : System (Except PyError (OptimizerState ι)) (Label ι) where
  init s := s = o.init
  step s a := s.toOption.bind fun s => o.act s a

/-- A hook is called at most `backward_passes_per_step` times before a step. -/
def Paced (s : Except PyError (OptimizerState ι)) : Label ι → Prop
  | .hook p => ∀ st ∈ s.toOption, (st.fired p : ℤ) < o.backwardPassesPerStep
  | .step _ => True

/-! ## Specification -/

/-- Named parameters are left out, or name all parameters uniquely. -/
def Named : Prop :=
  ∀ l ∈ o.namedParameters, (l.map Prod.fst).Nodup ∧ ∀ p ∈ o.params, p ∈ l.map Prod.snd

def NamesDistinct : Prop :=
  ∀ p ∈ o.params, ∀ q ∈ o.params, p ≠ q → o.parameterNames.get? p ≠ o.parameterNames.get? q

/-- Each step has pushed the gradient of each parameter that requires one, and nothing else, once. -/
def PushedOnce (st : OptimizerState ι) : Prop :=
  ∀ pushes ∈ st.steps, (pushes.map Prod.fst).Nodup ∧ ∀ p name, (p, name) ∈ pushes ↔
    p ∈ o.params ∧ o.requiresGrad p = true ∧
      ∃ own, o.parameterNames.get? p = some own ∧ name = "Gradient." ++ own

/-- The gradients can be pushed, and there is a list of named parameters; or there is none, no hook
will be called, and no two parameters have the same place in their groups. -/
def Supported : Prop :=
  (∀ p ∈ o.params, o.requiresGrad p = true → o.compression.compress (o.dtype p) ∈ Dtype.bound) ∧
  (o.namedParameters.getD [] ≠ [] ∨
    (o.backwardPassesPerStep ≤ 0 ∨ ∀ p ∈ o.params, o.requiresGrad p = false) ∧
    ∀ p ∈ o.params, ∀ q ∈ o.params, p ≠ q → o.places.get? p ≠ o.places.get? q)

/-! ## Names -/

variable {o} {p q : ι}

omit [DecidableEq ι] in
theorem findDuplicates_of_nodup {lst : List String} (h : lst.Nodup) : findDuplicates lst = [] := by
  suffices hfold : ∀ seen : List String, (∀ el ∈ lst, el ∉ seen) →
      (lst.foldl (fun (acc : List String × List String) el =>
        (el :: acc.1, if el ∈ acc.1 ∧ el ∉ acc.2 then acc.2 ++ [el] else acc.2)) (seen, [])).2 = []
    from hfold [] fun _ _ => not_mem_nil
  induction lst with
  | nil => exact fun _ _ => rfl
  | cons el lst ih =>
    intro seen hseen
    obtain ⟨hel, hlst⟩ := nodup_cons.mp h
    rw [foldl_cons, if_neg fun hmem => hseen el mem_cons_self hmem.1]
    refine ih hlst (el :: seen) fun x hx hmem => ?_
    rcases mem_cons.mp hmem with rfl | hmem
    · exact hel hx
    · exact hseen x (mem_cons_of_mem _ hx) hmem

variable {name : String} {order : List ι}

section

omit [DecidableEq ι]

theorem mem_sortedParameters :
    (name, p) ∈ o.sortedParameters ↔ (name, p) ∈ o.namedParameters.getD [] :=
  (perm_insertionSort _ _).mem_iff

theorem Named.exists_name (h : o.Named) (hne : o.namedParameters.getD [] ≠ []) (hp : p ∈ o.params) :
    ∃ name, (name, p) ∈ o.sortedParameters := by
  cases hnamed : o.namedParameters with
  | none =>
    rw [hnamed] at hne
    exact absurd rfl hne
  | some l =>
    obtain ⟨⟨name, _⟩, hmem, rfl⟩ := mem_map.mp ((h l hnamed).2 p hp)
    refine ⟨name, mem_sortedParameters.mpr ?_⟩
    rwa [hnamed]

theorem Named.eq_of_name (h : o.Named) (hp : (name, p) ∈ o.sortedParameters)
    (hq : (name, q) ∈ o.sortedParameters) : p = q := by
  rw [mem_sortedParameters] at hp hq
  cases hnamed : o.namedParameters with
  | none =>
    rw [hnamed] at hp
    cases hp
  | some l =>
    rw [hnamed] at hp hq
    exact (Prod.mk.inj (inj_on_of_nodup_map (h l hnamed).1 hp hq rfl)).2

theorem exists_place (hp : p ∈ o.params) : ∃ i, (p, i) ∈ o.paramGroups.flatMap zipIdx := by
  obtain ⟨group, hgroup, hp⟩ := mem_flatten.mp hp
  obtain ⟨i, hi⟩ := mem_iff_getElem?.mp hp
  exact ⟨i, mem_flatMap.mpr ⟨group, hgroup, mem_zipIdx_iff_getElem?.mpr hi⟩⟩

end

theorem get?_parameterNames (hnone : o.namedParameters.getD [] = []) (p : ι) :
    o.parameterNames.get? p =
      (o.places.get? p).map fun i => "push_pull.noname." ++ toString i := by
  unfold parameterNames places
  rw [if_pos hnone]
  exact Dict.get?_ofList_map (fun i => "push_pull.noname." ++ toString i) _

theorem exists_parameterName (h : o.Named) (hp : p ∈ o.params) :
    ∃ own, o.parameterNames.get? p = some own := by
  by_cases hne : o.namedParameters.getD [] = []
  · obtain ⟨i, hi⟩ := exists_place hp
    obtain ⟨j, hj⟩ := Dict.exists_get?_ofList hi
    rw [get?_parameterNames hne]
    unfold places
    rw [hj]
    exact ⟨_, rfl⟩
  · obtain ⟨name, hname⟩ := h.exists_name hne hp
    unfold parameterNames
    rw [if_neg hne]
    exact Dict.exists_get?_ofList (mem_map.mpr ⟨(name, p), hname, rfl⟩)

theorem namesDistinct_of_named (h : o.Named) (hne : o.namedParameters.getD [] ≠ []) :
    o.NamesDistinct := by
  intro p hp q _ hpq heq
  obtain ⟨own, hown⟩ := exists_parameterName h hp
  have hmem : ∀ r, o.parameterNames.get? r = some own → (own, r) ∈ o.sortedParameters := by
    intro r hr
    unfold parameterNames at hr
    rw [if_neg hne] at hr
    obtain ⟨⟨name, _⟩, hmem, heq⟩ := mem_map.mp (Dict.mem_of_get?_ofList hr)
    obtain ⟨rfl, rfl⟩ := Prod.mk.inj heq
    exact hmem
  exact hpq (h.eq_of_name (hmem p hown) (hmem q (heq ▸ hown)))

theorem namesDistinct_iff (hnone : o.namedParameters.getD [] = []) : o.NamesDistinct ↔
    ∀ p ∈ o.params, ∀ q ∈ o.params, p ≠ q → o.places.get? p ≠ o.places.get? q := by
  have hinj : Function.Injective fun i : ℕ => "push_pull.noname." ++ toString i := fun i j hij =>
    Decimal.toString_inj.mp ((String.append_right_inj _).mp hij)
  unfold NamesDistinct
  simp only [get?_parameterNames hnone, ne_eq, (map_injective hinj).eq_iff]

/-! ## Pushes -/

theorem pushPull_eq_ok {st st' : OptimizerState ι} {dtype : Dtype} {kind : String}
    (h : pushPull st p dtype kind = .ok (st', name)) :
    st' = { st with pushed := st.pushed ++ [(p, name)] } := by
  unfold pushPull at h
  cases hname : st.parameterNames.get? p with
  | none =>
    rw [hname] at h
    cases h
  | some own =>
    rw [hname] at h
    obtain ⟨-, h⟩ := require_bind_eq_ok.mp h
    obtain ⟨rfl, rfl⟩ := Prod.mk.inj (Except.ok.inj h)
    rfl

theorem countDown_eq_ok {st st' : OptimizerState ι} {d : ℤ} (h : countDown st p = .ok (st', d)) :
    ∃ delay, st' = { st with pushPullDelay := delay, fired := tick st.fired p } := by
  obtain ⟨_, -, h⟩ := bind_eq_ok.mp h
  obtain ⟨d₀, -, h⟩ := bind_eq_ok.mp h
  obtain ⟨-, h⟩ := require_bind_eq_ok.mp h
  obtain ⟨rfl, rfl⟩ := Prod.mk.inj (Except.ok.inj h)
  exact ⟨_, rfl⟩

theorem mem_requiresUpdate (hsize : 1 < o.size) :
    p ∈ o.requiresUpdate ↔ p ∈ o.params ∧ o.requiresGrad p = true := by
  unfold requiresUpdate
  rw [if_pos hsize, List.mem_toFinset, mem_filter]

def PushName (o : DistributedOptimizer ι) (p : ι) (name : String) : Prop :=
  ∃ own, o.parameterNames.get? p = some own ∧ name = "Gradient." ++ own

/-- What was pushed since the last step, once each, is what has a handle. -/
structure Pushing (o : DistributedOptimizer ι) (st : OptimizerState ι) : Prop where
  names : st.parameterNames = o.parameterNames
  update : st.requiresUpdate = o.requiresUpdate
  keys : ∀ p v, st.handles.get? p = some v → p ∈ o.requiresUpdate
  handle : ∀ p name, st.handles.get? p = some (some name) → o.PushName p name
  nodup : (st.pushed.map Prod.fst).Nodup
  mem : ∀ p name, (p, name) ∈ st.pushed ↔ st.handles.get? p = some (some name)
  once : o.PushedOnce st

variable {st st' : OptimizerState ι}

structure Pushable (o : DistributedOptimizer ι) : Prop where
  sync : o.enableAsync = false
  name : ∀ p ∈ o.requiresUpdate, ∃ own, o.parameterNames.get? p = some own
  bound : ∀ p ∈ o.requiresUpdate, o.compression.compress (o.dtype p) ∈ Dtype.bound

theorem Pushing.congr (h : Pushing o st) (hnames : st'.parameterNames = st.parameterNames)
    (hupdate : st'.requiresUpdate = st.requiresUpdate) (hhandles : st'.handles = st.handles)
    (hpushed : st'.pushed = st.pushed) (hsteps : st'.steps = st.steps) : Pushing o st' where
  names := hnames.trans h.names
  update := hupdate.trans h.update
  keys := hhandles ▸ h.keys
  handle := hhandles ▸ h.handle
  nodup := hpushed ▸ h.nodup
  mem := by
    rw [hpushed, hhandles]
    exact h.mem
  once pushes hmem := h.once pushes (hsteps ▸ hmem)

section

variable (hp : p ∈ o.requiresUpdate) (hfree : ∀ name, st.handles.get? p ≠ some (some name))
include hp hfree

/-- A parameter gets a handle, which is of a push if there is a name. -/
theorem Pushing.set (h : Pushing o st) {v : Option String} (hv : ∀ name ∈ v, o.PushName p name) :
    Pushing o { st with
      pushed := st.pushed ++ (v.map (p, ·)).toList
      handles := st.handles.set p v } where
  names := h.names
  update := h.update
  keys q u hq := by
    change (st.handles.set p v).get? q = some u at hq
    rw [Dict.get?_set] at hq
    split_ifs at hq with hqp
    · exact hqp ▸ hp
    · exact h.keys q u hq
  handle q name hq := by
    change (st.handles.set p v).get? q = some (some name) at hq
    rw [Dict.get?_set] at hq
    split_ifs at hq with hqp
    · exact hqp ▸ hv name (some.inj hq)
    · exact h.handle q name hq
  nodup := by
    cases v with
    | none =>
      rw [map_none, toList_none, append_nil]
      exact h.nodup
    | some name =>
      have hnew : p ∉ st.pushed.map Prod.fst := by
        intro hp
        obtain ⟨⟨_, name⟩, hmem, rfl⟩ := mem_map.mp hp
        exact hfree name ((h.mem _ name).mp hmem)
      rw [map_some, toList_some, map_append, map_singleton, ← concat_eq_append]
      exact h.nodup.concat hnew
  mem q name := by
    rw [mem_append, h.mem, Dict.get?_set, mem_toList]
    split_ifs with hqp
    · subst hqp
      simp [hfree]
    · simp [Ne.symm hqp]
  once := h.once

theorem Pushing.postpone (h : Pushing o st) :
    Pushing o { st with handles := st.handles.set p none } :=
  (h.set (v := none) hp hfree nofun).congr rfl rfl rfl (append_nil _).symm rfl

/-- A push adds one handle, under the parameter's own name. -/
theorem Pushing.push (h : Pushing o st) (hpush : o.Pushable) :
    ∃ name st', st' = { st with
        pushed := st.pushed ++ [(p, name)]
        handles := st.handles.set p (some name) } ∧
      o.pushPullGradAsync st p = .ok st' ∧ Pushing o st' := by
  obtain ⟨own, hown⟩ := hpush.name p hp
  refine ⟨"Gradient." ++ own, _, rfl, ?_, h.set hp hfree fun name hname => ?_⟩
  · unfold pushPullGradAsync pushPull
    rw [hpush.sync, h.names, hown]
    dsimp only
    rw [require_bind (hpush.bound p hp)]
    rfl
  · exact ⟨own, hown, (some.inj hname).symm⟩

/-! ## `synchronize` -/

/-- A loop of `synchronize` over the parameters `seen` has given each of them a handle, and has left the
rest alone. -/
structure Loop (o : DistributedOptimizer ι) (st₀ : OptimizerState ι) (seen : List ι)
    (st : OptimizerState ι) : Prop where
  pushing : Pushing o st
  pushPullDelay : st.pushPullDelay = st₀.pushPullDelay
  handled : ∀ p ∈ seen, ∃ name, st.handles.get? p = some (some name)
  other : ∀ p ∉ seen, st.handles.get? p = st₀.handles.get? p

omit hp hfree in
theorem Pushing.loop_nil (h : Pushing o st) : Loop o st [] st :=
  ⟨h, rfl, (fun _ hp => nomatch hp), fun _ _ => rfl⟩

theorem Loop.push {st₀ : OptimizerState ι} {seen : List ι} (h : Loop o st₀ seen st)
    (hpush : o.Pushable) :
    ∃ st', o.pushPullGradAsync st p = .ok st' ∧ Loop o st₀ (seen ++ [p]) st' := by
  obtain ⟨name, _, rfl, hok, hpushing⟩ := h.pushing.push hp hfree hpush
  refine ⟨_, hok, hpushing, h.pushPullDelay, fun q hq => ?_, fun q hq => ?_⟩
  · rw [Dict.get?_set]
    by_cases hqp : q = p
    · exact ⟨name, if_pos hqp⟩
    · rw [if_neg hqp]
      refine h.handled q ((mem_append.mp hq).resolve_right ?_)
      exact fun hq => hqp (mem_singleton.mp hq)
  · rw [mem_append, not_or, mem_singleton] at hq
    rw [Dict.get?_set_of_ne hq.2]
    exact h.other q hq.1

end

theorem Pushing.pushMissing (h : Pushing o st) (hpush : o.Pushable) (hnodup : order.Nodup)
    (horder : ∀ p ∈ order, p ∈ o.requiresUpdate ∧ st.handles.get? p = none) :
    ∃ st', o.pushMissing order st = .ok st' ∧ Loop o st order st' := by
  refine foldlM_of_step (fun seen s => Loop o st seen s) h.loop_nil fun seen p rest s hl hloop => ?_
  obtain ⟨hp, hnone⟩ := horder p (hl ▸ mem_append_right _ mem_cons_self)
  refine hloop.push hp (fun name => ?_) hpush
  have hnew : p ∉ seen := by
    rw [hl, nodup_append] at hnodup
    exact fun hmem => hnodup.2.2 p hmem p mem_cons_self rfl
  rw [hloop.other p hnew, hnone]
  exact (some_ne_none _).symm

theorem Pushing.pushDelayed (h : Pushing o st) (hpush : o.Pushable) :
    ∃ st', o.pushDelayed st = .ok st' ∧ Loop o st (st.handles.entries.map Prod.fst) st' := by
  refine foldlM_of_step (fun seen s => Loop o st (seen.map Prod.fst) s) h.loop_nil
    fun seen entry rest s hl hloop => ?_
  obtain ⟨p, value⟩ := entry
  have hget : st.handles.get? p = some value :=
    Dict.mem_entries_iff.mp (hl ▸ mem_append_right _ mem_cons_self)
  have hnew : p ∉ seen.map Prod.fst := by
    have hnodup := st.handles.nodup
    rw [hl, map_append, nodup_append] at hnodup
    exact fun hmem => hnodup.2.2 p hmem p (mem_map.mpr ⟨_, mem_cons_self, rfl⟩) rfl
  rw [map_append, map_singleton]
  cases value with
  | none =>
    refine hloop.push (h.keys p _ hget) (fun name heq => ?_) hpush
    rw [hloop.other p hnew, hget] at heq
    cases some.inj heq
  | some name =>
    refine ⟨s, rfl, hloop.pushing, hloop.pushPullDelay, fun q hq => ?_, fun q hq => ?_⟩
    · rcases mem_append.mp hq with hq | hq
      · exact hloop.handled q hq
      · obtain rfl := mem_singleton.mp hq
        exact ⟨name, (hloop.other q hnew).trans hget⟩
    · exact hloop.other q fun hmem => hq (mem_append_left _ hmem)

theorem get?_foldl_set (l : List (ι × Option String)) (c : ℤ) (d : Dict ι ℤ) :
    (l.foldl (fun delay entry => delay.set entry.1 c) d).get? p =
      if p ∈ l.map Prod.fst then some c else d.get? p := by
  induction l generalizing d with
  | nil => rfl
  | cons e l ih =>
    rw [foldl_cons, ih, Dict.get?_set, map_cons, if_congr (mem_cons.trans or_comm) rfl rfl, ite_or]

/-! ## Runs -/

/-- Between hooks and steps the delays are what is left of the passes, and a gradient has a handle
after the last pass only. -/
structure Ok (o : DistributedOptimizer ι) (st : OptimizerState ι) : Prop extends Pushing o st where
  delay : 0 < o.backwardPassesPerStep → ∀ p ∈ o.requiresUpdate,
    st.pushPullDelay.get? p = some (o.backwardPassesPerStep - st.fired p)
  last : ∀ p name, st.handles.get? p = some (some name) →
    o.backwardPassesPerStep ≤ st.fired p

theorem Ok.hook (h : Ok o st) (hpush : o.Pushable) (hp : p ∈ o.requiresUpdate)
    (hfired : (st.fired p : ℤ) < o.backwardPassesPerStep) :
    ∃ st', o.hook st p = .ok st' ∧ Ok o st' := by
  have hdelay := h.delay (by omega) p hp
  have hfree : ∀ name, st.handles.get? p ≠ some (some name) := by
    intro name hname
    exact absurd (h.last p name hname) (by omega)
  set counted : OptimizerState ι :=
    { st with
      pushPullDelay := st.pushPullDelay.set p (o.backwardPassesPerStep - st.fired p - 1)
      fired := tick st.fired p } with hcounted
  have hcount : countDown st p = .ok (counted, o.backwardPassesPerStep - st.fired p - 1) := by
    have hget : DistributedOptimizer.delay st p = .ok (o.backwardPassesPerStep - st.fired p) := by
      unfold DistributedOptimizer.delay
      rw [hdelay]
    unfold countDown
    rw [hget]
    cases hhandle : st.handles.get? p with
    | none => exact require_bind (by omega)
    | some value =>
      cases value with
      | none => exact require_bind (by omega)
      | some name => exact absurd hhandle (hfree name)
  have hpushing : Pushing o counted := h.toPushing.congr rfl rfl rfl rfl rfl
  have hdelay' : 0 < o.backwardPassesPerStep → ∀ q ∈ o.requiresUpdate,
      counted.pushPullDelay.get? q = some (o.backwardPassesPerStep - counted.fired q) := by
    intro hpos q hq
    show (st.pushPullDelay.set p _).get? q =
      some (o.backwardPassesPerStep - ((tick st.fired p q : ℕ) : ℤ))
    rw [Dict.get?_set, tick_apply]
    split_ifs with hqp
    · subst hqp
      rw [Nat.cast_add, Nat.cast_one, sub_sub]
    · rw [add_zero]
      exact h.delay hpos q hq
  have hlast : ∀ q name, st.handles.get? q = some (some name) →
      o.backwardPassesPerStep ≤ counted.fired q := by
    intro q name hq
    exact (h.last q name hq).trans (Nat.cast_le.mpr (le_tick st.fired p q))
  unfold DistributedOptimizer.hook
  rw [hcount]
  show ∃ st', (if _ = 0 then _ else _) = _ ∧ _
  split_ifs with hzero
  · obtain ⟨name, _, rfl, hok, hpushing'⟩ := hpushing.push hp (by exact hfree) hpush
    refine ⟨_, hok, hpushing', hdelay', fun q name' hq => ?_⟩
    change (st.handles.set p (some name)).get? q = some (some name') at hq
    rw [Dict.get?_set] at hq
    split_ifs at hq with hqp
    · subst hqp
      show o.backwardPassesPerStep ≤ (tick st.fired q q : ℕ)
      rw [tick_self]
      omega
    · exact hlast q name' hq
  · refine ⟨_, rfl, hpushing.postpone hp (by exact hfree), hdelay', fun q name' hq => ?_⟩
    change (st.handles.set p none).get? q = some (some name') at hq
    rw [Dict.get?_set] at hq
    split_ifs at hq
    · cases some.inj hq
    · exact hlast q name' hq

/-- `step` pushes what has no handle yet and restores the delays. -/
theorem Ok.step (h : Ok o st) (hsize : 1 < o.size) (hpush : o.Pushable) (hnodup : order.Nodup)
    (horder : order.toFinset = st.requiresUpdate \ (st.handles.entries.map Prod.fst).toFinset) :
    ∃ st', o.step order st = .ok st' ∧ Ok o st' := by
  have hmissing : ∀ p, p ∈ order ↔ p ∈ o.requiresUpdate ∧ st.handles.get? p = none := by
    intro p
    rw [← List.mem_toFinset, horder, Finset.mem_sdiff, List.mem_toFinset, Dict.mem_keys_iff, h.update,
      ← ne_none_iff_exists', not_not]
  obtain ⟨st₁, hok₁, hloop₁⟩ := h.toPushing.pushMissing hpush hnodup fun p hp => (hmissing p).mp hp
  obtain ⟨st₂, hok₂, hloop₂⟩ := hloop₁.pushing.pushDelayed hpush
  -- now every parameter has a handle
  have hall : ∀ p ∈ o.requiresUpdate, ∃ name, st₂.handles.get? p = some (some name) := by
    intro p hp
    have hkey : p ∈ st₁.handles.entries.map Prod.fst := by
      rw [Dict.mem_keys_iff]
      by_cases hmem : p ∈ order
      · obtain ⟨name, hname⟩ := hloop₁.handled p hmem
        exact ⟨some name, hname⟩
      · rw [hloop₁.other p hmem, ← ne_none_iff_exists']
        exact fun hnone => hmem ((hmissing p).mpr ⟨hp, hnone⟩)
    exact hloop₂.handled p hkey
  refine ⟨{ o.wait st₂ with
      fired := fun _ => 0, pushed := [], steps := st₂.steps ++ [st₂.pushed] }, ?_, ?_⟩
  · unfold DistributedOptimizer.step synchronize
    rw [hpush.sync]
    show (o.pushMissing order st >>= _) >>= _ = _
    rw [hok₁]
    show (o.pushDelayed st₁ >>= _) >>= _ = _
    rw [hok₂]
    rfl
  · constructor
    · refine ⟨hloop₂.pushing.names, hloop₂.pushing.update, (fun _ _ hv => nomatch hv),
        (fun _ _ hv => nomatch hv), nodup_nil, (fun _ _ => ⟨nofun, nofun⟩), ?_⟩
      intro pushes hmem
      rcases mem_append.mp hmem with hmem | hmem
      · exact hloop₂.pushing.once pushes hmem
      · obtain rfl := mem_singleton.mp hmem
        refine ⟨hloop₂.pushing.nodup, fun p name => ?_⟩
        rw [hloop₂.pushing.mem, ← and_assoc, ← mem_requiresUpdate hsize]
        constructor
        · intro hname
          exact ⟨hloop₂.pushing.keys p _ hname, hloop₂.pushing.handle p name hname⟩
        · rintro ⟨hp, own, hown, rfl⟩
          obtain ⟨name, hname⟩ := hall p hp
          obtain ⟨own', hown', rfl⟩ := hloop₂.pushing.handle p name hname
          rw [hown] at hown'
          rwa [some.inj hown']
    · intro _ p hp
      show (st₂.handles.entries.foldl (fun delay entry =>
        delay.set entry.1 o.backwardPassesPerStep) st₂.pushPullDelay).get? p = _
      obtain ⟨name, hname⟩ := hall p hp
      rw [get?_foldl_set, if_pos (Dict.mem_keys_iff.mpr ⟨_, hname⟩)]
      simp
    · exact fun _ _ hv => nomatch hv

/-- The state that `__init__` makes of unique names. -/
def start (o : DistributedOptimizer ι) : OptimizerState ι where
  parameterNames := o.parameterNames
  pushPullDelay := o.pushPullDelay
  requiresUpdate := o.requiresUpdate

theorem exists_init (h : o.Named) : o.init = .ok o.start := by
  have hnodup : ((o.namedParameters.getD []).map Prod.fst).Nodup := by
    cases hnamed : o.namedParameters with
    | none => exact nodup_nil
    | some l => exact (h l hnamed).1
  exact require_bind (findDuplicates_of_nodup hnodup)

/-- The constructor leaves every delay at all the passes, and no handle. -/
theorem Ok.init (h : o.Named) (hsize : 1 < o.size)
    (hnamed : o.namedParameters.getD [] ≠ [] ∨ o.backwardPassesPerStep ≤ 0 ∨
      ∀ p ∈ o.params, o.requiresGrad p = false) :
    Ok o o.start where
  names := rfl
  update := rfl
  keys _ _ hv := nomatch hv
  handle _ _ hv := nomatch hv
  nodup := nodup_nil
  mem _ _ := ⟨nofun, nofun⟩
  once _ hmem := nomatch hmem
  delay hpos p hp := by
    obtain ⟨hmem, hgrad⟩ := (mem_requiresUpdate hsize).mp hp
    rcases hnamed with hne | hle | hnone
    · obtain ⟨name, hname⟩ := h.exists_name hne hmem
      obtain ⟨d, hd⟩ := Dict.exists_get?_ofList
        (mem_map.mpr ⟨(name, p), hname, rfl⟩ : (p, o.backwardPassesPerStep) ∈
          o.sortedParameters.map fun e => (e.2, o.backwardPassesPerStep))
      obtain ⟨_, _, heq⟩ := mem_map.mp (Dict.mem_of_get?_ofList hd)
      unfold start DistributedOptimizer.pushPullDelay
      rw [hd, (Prod.mk.inj heq).2.symm, Nat.cast_zero, sub_zero]
    · omega
    · rw [hnone p hmem] at hgrad
      cases hgrad
  last _ _ hv := nomatch hv

theorem ok_of_reach (hsize : 1 < o.size) (hpush : o.Pushable) (h0 : ∃ st, o.init = .ok st ∧ Ok o st)
    {s : Except PyError (OptimizerState ι)} (h : Reach o.runs o.Paced s) :
    ∃ st, s = .ok st ∧ Ok o st := by
  refine h.invariant (P := fun s => ∃ st, s = .ok st ∧ Ok o st) ?_ ?_
  · rintro s rfl
    exact h0
  · rintro s a t ⟨st, rfl, hok⟩ hpaced hstep
    change o.act st a = some t at hstep
    cases a with
    | hook p =>
      obtain ⟨hp, ⟨⟩⟩ := Option.ite_none_right_eq_some.mp hstep
      exact hok.hook hpush (hok.update ▸ hp) (hpaced st rfl)
    | step order =>
      obtain ⟨horder, ⟨⟩⟩ := Option.ite_none_right_eq_some.mp hstep
      exact hok.step hsize hpush horder.1 horder.2

/-! ## Exceptions -/

theorem bound_of_pushMissing (hsync : o.enableAsync = false)
    (h : o.pushMissing order st = .ok st') (hp : p ∈ order) :
    o.compression.compress (o.dtype p) ∈ Dtype.bound := by
  unfold pushMissing at h
  induction order generalizing st with
  | nil => cases hp
  | cons q order ih =>
    rw [foldlM_cons] at h
    obtain ⟨st₁, hq, h⟩ := bind_eq_ok.mp h
    rcases mem_cons.mp hp with rfl | hp
    · unfold pushPullGradAsync pushPull at hq
      rw [hsync] at hq
      cases hname : st.parameterNames.get? p with
      | none =>
        rw [hname] at hq
        cases hq
      | some name =>
        by_contra hbound
        rw [hname] at hq
        unfold require at hq
        rw [if_neg hbound] at hq
        cases hq
    · exact ih h hp

theorem reach_init (o : DistributedOptimizer ι) : Reach o.runs o.Paced o.init := .init rfl

theorem bound_of_reach (h : o.Named) (hsync : o.enableAsync = false)
    (hruns : ∀ s, Reach o.runs o.Paced s → ∃ st, s = .ok st) (hp : p ∈ o.requiresUpdate) :
    o.compression.compress (o.dtype p) ∈ Dtype.bound := by
  have hstep : o.runs.step o.init (.step o.requiresUpdate.toList) =
      some (o.step o.requiresUpdate.toList o.start) := by
    rw [exists_init h]
    refine if_pos ⟨Finset.nodup_toList _, ?_⟩
    rw [Finset.toList_toFinset]
    exact Finset.sdiff_empty.symm
  obtain ⟨st, hst⟩ := hruns _ ((reach_init o).step (a := .step _) trivial hstep)
  unfold DistributedOptimizer.step synchronize at hst
  rw [hsync] at hst
  obtain ⟨_, -, hst⟩ := bind_eq_ok.mp hst
  obtain ⟨_, hsynchronized, -⟩ := bind_eq_ok.mp hst
  obtain ⟨_, hmissing, -⟩ := bind_eq_ok.mp hsynchronized
  exact bound_of_pushMissing hsync hmissing (Finset.mem_toList.mpr hp)

theorem hook_raises (h : o.Named) (hnone : o.namedParameters.getD [] = [])
    (hpos : 0 < o.backwardPassesPerStep) (hp : p ∈ o.requiresUpdate) :
    Reach o.runs o.Paced (.error (.keyError "p")) := by
  refine (reach_init o).step (a := .hook p) ?_ ?_
  · intro st hst
    rw [exists_init h] at hst
    obtain rfl := some.inj hst
    exact hpos
  · have hdelay : o.pushPullDelay = .empty := by
      unfold pushPullDelay sortedParameters
      rw [hnone]
      rfl
    rw [exists_init h, start, hdelay]
    exact if_pos hp

/-- All parameters have distinct names, no hook or step raises, and each step pushes each gradient
once, just if `Supported`. -/
theorem pushed_once_iff (o : DistributedOptimizer ι) (hsize : 1 < o.size)
    (hsync : o.enableAsync = false) (hnames : o.Named) :
    (o.NamesDistinct ∧ ∀ s, Reach o.runs o.Paced s → ∃ st, s = .ok st ∧ o.PushedOnce st) ↔
      o.Supported := by
  constructor
  · rintro ⟨hdistinct, hruns⟩
    have hok : ∀ s, Reach o.runs o.Paced s → ∃ st, s = .ok st := fun s hs =>
      (hruns s hs).imp fun _ hst => hst.1
    refine ⟨fun p hp hgrad => ?_, ?_⟩
    · exact bound_of_reach hnames hsync hok ((mem_requiresUpdate hsize).mpr ⟨hp, hgrad⟩)
    · by_cases hnone : o.namedParameters.getD [] = []
      · refine .inr ⟨?_, (namesDistinct_iff hnone).mp hdistinct⟩
        by_contra hcalled
        rw [not_or, not_le, not_forall] at hcalled
        obtain ⟨hpos, p, hp⟩ := hcalled
        rw [Classical.not_imp, Bool.not_eq_false] at hp
        obtain ⟨st, hst⟩ :=
          hok _ (hook_raises hnames hnone hpos ((mem_requiresUpdate hsize).mpr hp))
        cases hst
      · exact .inl hnone
  · rintro ⟨hbound, hnamed⟩
    have hpush : o.Pushable := by
      refine ⟨hsync, fun p hp => ?_, fun p hp => ?_⟩ <;>
        obtain ⟨hmem, hgrad⟩ := (mem_requiresUpdate hsize).mp hp
      · exact exists_parameterName hnames hmem
      · exact hbound p hmem hgrad
    have hinit := Ok.init hnames hsize (hnamed.imp_right And.left)
    refine ⟨?_, fun s hs => ?_⟩
    · by_cases hnone : o.namedParameters.getD [] = []
      · exact (namesDistinct_iff hnone).mpr (hnamed.resolve_left (not_not.mpr hnone)).2
      · exact namesDistinct_of_named hnames hnone
    · obtain ⟨st, hst, hok⟩ := ok_of_reach hsize hpush ⟨_, exists_init hnames, hinit⟩ hs
      exact ⟨st, hst, hok.once⟩

/-- Two groups with one parameter each, as `DistributedOptimizer(optimizer)` wraps them. -/
def twoGroups : DistributedOptimizer ℕ where
  paramGroups := [[0], [1]]
  disjoint := by simp
  requiresGrad _ := true
  dtype _ := .float32
  size := 2

def namedGroups : DistributedOptimizer ℕ :=
  { twoGroups with namedParameters := some [("weight", 0), ("bias", 1)] }

/-- With named parameters each of them is pushed once for each step. -/
theorem pushed_once_iff_namedGroups : namedGroups.Supported ∧ namedGroups.NamesDistinct ∧
    ∀ s, Reach namedGroups.runs namedGroups.Paced s → ∃ st, s = .ok st ∧
      namedGroups.PushedOnce st := by
  have hbound : Dtype.float32 ∈ Dtype.bound := by decide
  have hsupported : namedGroups.Supported := ⟨fun _ _ _ => hbound, .inl (by decide)⟩
  have hnamed : namedGroups.Named := by
    intro l hl
    obtain rfl := some.inj hl
    decide
  exact ⟨hsupported, (pushed_once_iff namedGroups (by decide) rfl hnamed).mpr hsupported⟩

/-- Without them both parameters have one name, and the first hook raises. -/
theorem unnamed_parameters_raise :
    twoGroups.parameterNames.get? 0 = twoGroups.parameterNames.get? 1 ∧
      Reach twoGroups.runs twoGroups.Paced (.error (.keyError "p")) := by
  refine ⟨rfl, hook_raises (p := 0) ?_ rfl (by decide) (by decide)⟩
  intro l hl
  cases hl

end DistributedOptimizer

end MegatronDPU.Torch
