import MegatronDPU.Server.HandlerModes

/-!
# The blocking engine

A `DrainedRun` serves requests one by one and lets the engine threads work until nothing is left
before the next one. The merged buffer is set by the engine when it executes `ALL_RECV`, and in
blocking mode no handler queues `ALL_RECV`: the buffer stays null.

The non-blocking state and the blocking one stay `Twins` while requests are `Harmless`: no pull, and
a setup request, empty, or the first but not the last push of its round. The blocking server accepts
nothing else.
-/

namespace MegatronDPU.Server

open Function List Option ServerState

variable {α : Type} {C : CompressorClass α}

/-! ## Drained runs -/

/-- A request as the handler receives it. -/
structure Request (α : Type) where
  reqMeta : KVMeta
  data : KVPairs α

namespace Request

def key (cfg : Config) (r : Request α) : Key := decodeKey cfg (r.data.keys.headD 0)

def requestType (r : Request α) : Option RequestType :=
  (depairDataHandleType r.reqMeta.cmd).map (·.requestType)

/-- A group registration, an init push, a push or a pull; no compressor arguments. -/
def Plain (r : Request α) : Prop := r.requestType ≠ some .kCompressedPushPull

end Request

/-- No engine has anything to do. -/
def ServerState.Drained (s : ServerState α C) : Prop :=
  ∀ i, (s.queues i).queue = [] ∧ s.engines i = .waiting

/-- What the answers to pulls carry. -/
def pullPayloads (rs : List (Response α)) : List (KVMeta × Vals α) :=
  (rs.filter fun r => !r.reqMeta.push).map fun r => (r.reqMeta, r.kvs.vals)

section Runs

variable [Add α]

/-- Some steps of the engine threads, with their responses. -/
inductive EngineRun (cfg : Config) :
    ServerState α C → ServerState α C → List (Response α) → Prop
  | stop (s : ServerState α C) : EngineRun cfg s s []
  | step {s t u : ServerState α C} {i : ℕ} {executed : Option (EngineMessage α)}
      {rs rs' : List (Response α)} : s.engineStep cfg i = some (t, executed, rs) →
      EngineRun cfg t u rs' → EngineRun cfg s u (rs ++ rs')

/-- Requests with the states they meet; after each the engine queues are drained. -/
inductive DrainedRun [Zero α] (cfg : Config) : ServerState α C →
    List (ServerState α C × Request α) → List (Response α) → Prop
  | nil (s : ServerState α C) : DrainedRun cfg s [] []
  | cons {s t u : ServerState α C} {r : Request α} {rs rs' rs'' : List (Response α)}
      {visits : List (ServerState α C × Request α)} :
      s.handle cfg r.reqMeta r.data = some (t, rs) → EngineRun cfg t u rs' → u.Drained →
      DrainedRun cfg u visits rs'' → DrainedRun cfg s ((s, r) :: visits) (rs ++ rs' ++ rs'')

end Runs

/-- The request is not a pull; and it registers a group, or is an init push, or is empty, or is
the first push of a round of more than one. -/
def Harmless (cfg : Config) (s : ServerState α C) (r : Request α) : Prop :=
  r.reqMeta.push = true ∧
    (r.requestType = some .kGroupRegister ∨ (s.keyStates (r.key cfg)).store = none ∨
      r.data.vals.size = 0 ∨
      ((s.keyStates (r.key cfg)).request = [] ∧
        (s.keyStates (r.key cfg)).getExpectedWorkers cfg ≠ 1))

variable {cfg : Config} {st st' : KeyState α C} {req : KVMeta} {data : KVPairs α}
  {type : DataHandleType} {key : Key} {out out' : Outcome α C}

/-! ## The engine -/

section Engine

variable {m m' : EngineMessage α} {s t u : ServerState α C} {i : ℕ} {rs : List (Response α)}

def ServerState.pending (s : ServerState α C) (i : ℕ) : List (EngineMessage α) :=
  (s.engines i).inFlight ++ (s.queues i).queue

theorem ServerState.Drained.pending (h : s.Drained) (i : ℕ) : s.pending i = [] := by
  rw [ServerState.pending, (h i).1, (h i).2]
  rfl

theorem resolveSrc_of_isCopy (h : m.IsCopy) : resolveSrc m = m := by
  obtain ⟨hops, -, recved, hsrc, hvals⟩ := h
  obtain ⟨id, type, key, dst, src, len, ops, sarray, reqMeta⟩ := m
  subst hops hsrc
  unfold resolveSrc
  rw [hvals]
  cases recved <;> rfl

theorem preprocess_quiet (hc : st.compressor = none) (h : preprocess st m = some (st', m')) :
    m' = resolveSrc m ∧ (m.ops ≠ .allRecv → st' = st) ∧ st'.shape = st.shape ∧
      st'.compressor = none ∧ st'.qPullReqmeta = st.qPullReqmeta := by
  unfold preprocess at h
  split_ifs at h
  dsimp only at h
  have hops := (resolveSrc_fields m).2.1
  split at h
  · rename_i hall
    cases h
    exact ⟨rfl, fun hne => absurd (hops.symm.trans hall) hne, rfl, hc, rfl⟩
  · cases h
    exact ⟨rfl, fun _ => rfl, rfl, hc, rfl⟩
  all_goals
    rename_i hsome _
    rw [hc] at hsome
    cases hsome

variable {stored : Store α} {executed : Option (EngineMessage α)}

theorem shape_of_length {tensor : List α} (hst : st.store = some stored)
    (hlen : tensor.length = stored.tensor.length) :
    ({ st with store := some { stored with tensor := tensor } } : KeyState α C).shape =
      st.shape := by
  unfold KeyState.shape
  rw [hst, map_some, map_some, hlen]

/-- Assignments and the shapes of the stores are the same. -/
structure Frame (s t : ServerState α C) : Prop where
  hashCache : t.hashCache = s.hashCache
  accLoad : t.accLoad = s.accLoad
  shape : ∀ key, (t.keyStates key).shape = (s.keyStates key).shape

/-- Every key is quiet. -/
def ServerState.Quiet (s : ServerState α C) : Prop := ∀ key, (s.keyStates key).Quiet

theorem Frame.setKey {e : EngineThread α} (hq : s.Quiet) (hshape : st.shape = (s.keyStates key).shape)
    (hc : st.compressor = none) (hp : st.qPullReqmeta = []) :
    Frame s ((s.setKey key st).setEngine i e) ∧ ((s.setKey key st).setEngine i e).Quiet :=
  ⟨⟨rfl, rfl, (forall_update_iff s.keyStates fun k st => st.shape = (s.keyStates k).shape).mpr
      ⟨hshape, fun _ _ => rfl⟩⟩,
    (forall_update_iff s.keyStates fun _ st => st.Quiet).mpr
      ⟨⟨hc, hp, request_of_shape hshape ▸ (hq key).pushes⟩, fun k _ => hq k⟩⟩

theorem null_setKey (h : ∀ key, (s.keyStates key).merged.tensor = .null)
    (hst : st.merged.tensor = .null) :
    ∀ k, ((s.setKey key st).keyStates k).merged.tensor = .null :=
  (forall_update_iff s.keyStates fun _ st => st.merged.tensor = .null).mpr ⟨hst, fun k _ => h k⟩

theorem quiet_setKey (hq : s.Quiet) (hk : (s.keyStates key).Keeps st)
    (hreq : ∀ q ∈ st.request, q.push = true) : (s.setKey key st).Quiet :=
  (forall_update_iff s.keyStates fun _ st => st.Quiet).mpr
    ⟨⟨hk.compressor.trans (hq key).compressor, hk.pulls.trans (hq key).pulls, hreq⟩, fun k _ => hq k⟩

theorem pending_setEngine (s : ServerState α C) (i : ℕ) (e : EngineThread α) :
    (s.setEngine i e).pending i = e.inFlight ++ (s.queues i).queue := by
  show (update s.engines i e i).inFlight ++ _ = _
  rw [update_self]
  rfl

variable [Add α]

theorem execute_quiet (hq : st.Quiet) (h : execute cfg st m = some (st', rs)) :
    rs = [] ∧ st'.shape = st.shape ∧ st.Keeps st' := by
  cases hops : m.ops with
  | copyFirst =>
    obtain ⟨stored, src, tensor, hst, -, hcopy, -, rfl, rfl⟩ := execute_push_cases h (.inl hops)
    exact ⟨rfl, shape_of_length hst (length_reducerCopy (hcopy hops)), rfl, rfl, rfl⟩
  | sumRecv =>
    obtain ⟨stored, src, tensor, hst, -, -, hsum, rfl, rfl⟩ := execute_push_cases h (.inr hops)
    exact ⟨rfl, shape_of_length hst (length_reducerSum (hsum hops)), rfl, rfl, rfl⟩
  | allRecv =>
    unfold execute at h
    rw [hops, hq.pulls] at h
    cases h
    exact ⟨rfl, rfl, rfl, hq.pulls.symm, rfl⟩
  | terminate =>
    unfold execute at h
    rw [hops] at h
    cases h

theorem engineStep_frame (hq : s.Quiet) (h : s.engineStep cfg i = some (t, executed, rs)) :
    Frame s t ∧ t.Quiet ∧ rs = [] := by
  obtain ⟨m, q, he, hpop, rfl, -, hrs⟩ | ⟨m, st, m', he, hpre, rfl, -, hrs⟩ |
    ⟨m, st, he, hexe, rfl, -⟩ := engineStep_cases h
  · exact ⟨⟨rfl, rfl, fun _ => rfl⟩, hq, hrs⟩
  · obtain ⟨-, -, hshape, hc, hp⟩ := preprocess_quiet (hq m.key).compressor hpre
    obtain ⟨hf, hq'⟩ := Frame.setKey (i := i) (e := .ready m') hq hshape hc
      (hp.trans (hq m.key).pulls)
    exact ⟨hf, hq', hrs⟩
  · obtain ⟨hrs, hshape, hk⟩ := execute_quiet (hq m.key) hexe
    obtain ⟨hf, hq'⟩ := Frame.setKey (i := i) (e := .waiting) hq hshape
      (hk.compressor.trans (hq m.key).compressor) (hk.pulls.trans (hq m.key).pulls)
    exact ⟨hf, hq', hrs⟩

theorem engineRun_frame (hq : s.Quiet) (h : EngineRun cfg s t rs) :
    Frame s t ∧ t.Quiet ∧ rs = [] := by
  induction h with
  | stop s => exact ⟨⟨rfl, rfl, fun _ => rfl⟩, hq, rfl⟩
  | step hstep _ ih =>
    obtain ⟨hf, hq', hrs⟩ := engineStep_frame hq hstep
    obtain ⟨hf', hq'', hrs'⟩ := ih hq'
    exact ⟨⟨hf'.hashCache.trans hf.hashCache, hf'.accLoad.trans hf.accLoad,
      fun key => (hf'.shape key).trans (hf.shape key)⟩, hq'', by rw [hrs, hrs']; rfl⟩

/-! ### Pending messages -/

theorem engineStep_of_ne (h : s.engineStep cfg i = some (t, executed, rs)) {j : ℕ} (hj : j ≠ i) :
    t.queues j = s.queues j ∧ t.engines j = s.engines j := by
  obtain ⟨m, q, -, -, rfl, -⟩ | ⟨m, st, m', -, -, rfl, -⟩ | ⟨m, st, -, -, rfl, -⟩ :=
    engineStep_cases h
  · exact ⟨update_of_ne hj _ _, update_of_ne hj _ _⟩
  · exact ⟨rfl, update_of_ne hj _ _⟩
  · exact ⟨rfl, update_of_ne hj _ _⟩

/-- A copy stays pending until it is executed, and only sources are filled in. -/
theorem engineStep_pending (hq : s.Quiet) (h : s.engineStep cfg i = some (t, executed, rs))
    (j : ℕ) :
    (∀ x ∈ t.pending j, x ∈ s.pending j ∨ ∃ y ∈ s.pending j, x = resolveSrc y) ∧
    ∀ x ∈ s.pending j, x.IsCopy →
      x ∈ t.pending j ∨ ∃ r, execute cfg (s.keyStates x.key) x = some r := by
  by_cases hj : j = i
  swap
  · obtain ⟨hqueue, hengine⟩ := engineStep_of_ne h hj
    have hsame : t.pending j = s.pending j := by
      rw [pending, hqueue, hengine]
      rfl
    rw [hsame]
    exact ⟨fun x hx => .inl hx, fun x hx _ => .inl hx⟩
  subst hj
  obtain ⟨m, q, he, hpop, rfl, -⟩ | ⟨m, st, m', he, hpre, rfl, -⟩ | ⟨m, st, he, hexe, rfl, -⟩ :=
    engineStep_cases h
  · have hperm := PriorityQueue.waitAndPop_perm hpop
    have hs : s.pending j = (s.queues j).queue := by rw [pending, he]; rfl
    have hqueue : (s.setQueue j q).queues j = q := update_self _ _ _
    rw [hs, pending_setEngine, hqueue]
    refine ⟨fun x hx => .inl (hperm.mem_iff.mpr ?_), fun x hx hcopy => .inl ?_⟩
    · rcases mem_append.mp hx with hx | hx
      · split_ifs at hx
        · cases hx
        · exact mem_singleton.mp hx ▸ mem_cons_self
      · exact mem_cons_of_mem m hx
    · rcases mem_cons.mp (hperm.mem_iff.mp hx) with rfl | hx
      · rw [if_neg (by rw [hcopy.1]; decide)]
        exact mem_append_left _ (mem_singleton.mpr rfl)
      · exact mem_append_right _ hx
  · obtain ⟨rfl, -⟩ := preprocess_quiet (hq m.key).compressor hpre
    have hs : s.pending j = m :: (s.queues j).queue := by rw [pending, he]; rfl
    rw [hs, pending_setEngine]
    refine ⟨fun x hx => ?_, fun x hx hcopy => .inl ?_⟩
    · rcases mem_cons.mp hx with rfl | hx
      · exact .inr ⟨m, mem_cons_self, rfl⟩
      · exact .inl (mem_cons_of_mem m hx)
    · rcases mem_cons.mp hx with rfl | hx
      · rw [resolveSrc_of_isCopy hcopy]
        exact mem_cons_self
      · exact mem_cons_of_mem _ hx
  · have hs : s.pending j = m :: (s.queues j).queue := by rw [pending, he]; rfl
    rw [hs, pending_setEngine]
    refine ⟨fun x hx => .inl (mem_cons_of_mem m hx), fun x hx _ => ?_⟩
    rcases mem_cons.mp hx with rfl | hx
    · exact .inr ⟨_, hexe⟩
    · exact .inl hx

/-- A copy of more bytes than were received. -/
def EngineMessage.Overlong (m : EngineMessage α) : Prop :=
  m.IsCopy ∧ ∃ recved, m.src = .buffer recved ∧ recved.length < m.len

theorem execute_overlong (hm : m.Overlong) : execute cfg st m = none := by
  obtain ⟨⟨hops, -⟩, recved, hsrc, hlt⟩ := hm
  unfold execute
  rw [hops, hsrc]
  cases hst : st.store with
  | none => rfl
  | some stored =>
    show (reducerCopy stored.tensor recved m.len).bind _ = none
    rw [reducerCopy, if_neg (by omega)]
    rfl

theorem overlong_pending (hq : s.Quiet) (h : EngineRun cfg s t rs) {j : ℕ} (hm : m.Overlong)
    (hp : m ∈ s.pending j) : m ∈ t.pending j := by
  induction h with
  | stop s => exact hp
  | step hstep _ ih =>
    refine ih (engineStep_frame hq hstep).2.1 ?_
    rcases (engineStep_pending hq hstep j).2 m hp hm.1 with hp | ⟨r, hr⟩
    · exact hp
    · rw [execute_overlong hm] at hr
      cases hr

/-- Only copies are pending, and no key has a merged buffer: a server in blocking mode. -/
structure ServerState.Unmerged (s : ServerState α C) : Prop where
  copies : ∀ j, ∀ m ∈ s.pending j, m.IsCopy
  null : ∀ key, (s.keyStates key).merged.tensor = .null

theorem engineStep_unmerged (hq : s.Quiet) (hu : s.Unmerged)
    (h : s.engineStep cfg i = some (t, executed, rs)) : t.Unmerged := by
  refine ⟨fun j m hm => ?_, ?_⟩
  · rcases (engineStep_pending hq h j).1 m hm with hm | ⟨y, hy, rfl⟩
    · exact hu.copies j m hm
    · rw [resolveSrc_of_isCopy (hu.copies j y hy)]
      exact hu.copies j y hy
  obtain ⟨m, q, he, hpop, rfl, -⟩ | ⟨m, st, m', he, hpre, rfl, -⟩ | ⟨m, st, he, hexe, rfl, -⟩ :=
    engineStep_cases h
  · exact hu.null
  · have hcopy : m.IsCopy := hu.copies i m (by rw [pending, he]; exact mem_cons_self)
    have hst := (preprocess_quiet (hq m.key).compressor hpre).2.1 (by rw [hcopy.1]; decide)
    exact null_setKey hu.null (hst ▸ hu.null m.key)
  · have hk := (execute_quiet (hq m.key) hexe).2.2
    exact null_setKey hu.null (hk.merged.trans (hu.null m.key))

theorem engineRun_unmerged (hq : s.Quiet) (hu : s.Unmerged) (h : EngineRun cfg s t rs) :
    t.Unmerged := by
  induction h with
  | stop s => exact hu
  | step hstep _ ih => exact ih (engineStep_frame hq hstep).2.1 (engineStep_unmerged hq hu hstep)

/-! ### Copies are executed -/

section

omit [Add α]

theorem waitAndPop_singleton {q : PriorityQueue α} (h : q.queue = [m]) :
    ∃ q', q.waitAndPop = some (m, q') ∧ q'.queue = [] := by
  unfold PriorityQueue.waitAndPop
  rw [h]
  split_ifs
  · exact ⟨_, rfl, rfl⟩
  · exact ⟨_, rfl, rfl⟩

theorem preprocess_copy (hc : st.compressor = none) (hm : m.IsCopy) :
    preprocess st m = some (st, m) := by
  have hres := resolveSrc_of_isCopy hm
  obtain ⟨hops, hdst, recved, hsrc, -⟩ := hm
  unfold preprocess
  rw [if_neg (by rw [hdst, hsrc]; simp [Pointer.isNull])]
  dsimp only
  rw [hres, hc, hops]

end

theorem execute_copy (cfg : Config) {recved : List α} (hops : m.ops = .copyFirst)
    (hst : st.store = some stored) (hsrc : m.src = .buffer recved)
    (hlen : m.len ≤ stored.tensor.length) (hlen' : m.len ≤ recved.length) :
    ∃ st', execute cfg st m = some (st', []) := by
  unfold execute
  rw [hops, hst, hsrc]
  show ∃ st', (reducerCopy stored.tensor recved m.len).bind _ = some (st', [])
  rw [reducerCopy, if_pos ⟨hlen, hlen'⟩]
  exact ⟨_, rfl⟩

theorem engineRun_copy (hq : s.Quiet) (hwait : ∀ j, s.engines j = .waiting)
    (hqueue : (s.queues i).queue = [m]) (hother : ∀ j, j ≠ i → (s.queues j).queue = [])
    (hm : m.IsCopy) (hfit : ¬m.Overlong) (hst : (s.keyStates m.key).store = some stored)
    (hlen : m.len ≤ stored.tensor.length) : ∃ u, EngineRun cfg s u [] ∧ u.Drained := by
  obtain ⟨q', hpop, hempty⟩ := waitAndPop_singleton hqueue
  obtain ⟨recved, hsrc, -⟩ := hm.2.2
  have hlen' : m.len ≤ recved.length := by
    by_contra hlt
    exact hfit ⟨hm, recved, hsrc, by omega⟩
  obtain ⟨st', hexe⟩ := execute_copy cfg hm.1 hst hsrc hlen hlen'
  have hops : m.ops ≠ .terminate := by rw [hm.1]; decide
  -- the message is popped, prepared and executed
  let s₁ := (s.setQueue i q').setEngine i (.popped m)
  let s₂ := (s₁.setKey m.key (s.keyStates m.key)).setEngine i (.ready m)
  let s₃ := (s₂.setKey m.key st').setEngine i .waiting
  have h₁ : s.engineStep cfg i = some (s₁, none, []) := by
    unfold engineStep
    rw [hwait i]
    rw [hpop]
    simp only [bind_eq_bind, bind_some, if_neg hops]
    rfl
  have h₂ : s₁.engineStep cfg i = some (s₂, none, []) := by
    unfold engineStep
    have he : s₁.engines i = .popped m := update_self _ _ _
    rw [he]
    dsimp only
    have hpre : preprocess (s₁.keyStates m.key) m = some (s.keyStates m.key, m) :=
      preprocess_copy (hq m.key).compressor hm
    rw [hpre]
    rfl
  have h₃ : s₂.engineStep cfg i = some (s₃, some m, []) := by
    unfold engineStep
    have he : s₂.engines i = .ready m := update_self _ _ _
    rw [he]
    dsimp only
    have hkey : s₂.keyStates m.key = s.keyStates m.key := update_self _ _ _
    rw [hkey, hexe]
    rfl
  refine ⟨s₃, .step h₁ (.step h₂ (.step h₃ (.stop s₃))), fun j => ?_⟩
  by_cases hj : j = i
  · subst hj
    have hqj : s₃.queues j = q' := update_self _ _ _
    exact ⟨by rw [hqj, hempty], update_self _ _ _⟩
  · have hqj : s₃.queues j = s.queues j := update_of_ne hj _ _
    have hej : s₃.engines j = s.engines j := by
      show update (update (update s.engines i _) i _) i _ j = _
      rw [update_of_ne hj, update_of_ne hj, update_of_ne hj]
    exact ⟨by rw [hqj, hother j hj], by rw [hej, hwait j]⟩

end Engine

/-! ### Queueing -/

section Dispatch

variable {s s' t t' : ServerState α C} {tid len : ℕ}

theorem enqueueAll_spec (ms : List (EngineMessage α)) (s : ServerState α C) (tid : ℕ) :
    (s.enqueueAll tid ms).keyStates = s.keyStates ∧ (s.enqueueAll tid ms).engines = s.engines ∧
    (s.enqueueAll tid ms).hashCache = s.hashCache ∧ (s.enqueueAll tid ms).accLoad = s.accLoad ∧
    (∀ j, j ≠ tid → (s.enqueueAll tid ms).queues j = s.queues j) ∧
    (((s.enqueueAll tid ms).queues tid).queue.map (·.eraseId)).Perm
      ((s.queues tid).queue.map (·.eraseId) ++ ms.map (·.eraseId)) := by
  induction ms generalizing s with
  | nil => exact ⟨rfl, rfl, rfl, rfl, fun _ _ => rfl, by rw [map_nil, append_nil]; rfl⟩
  | cons m ms ih =>
    obtain ⟨hk, he, hh, ha, hq, hperm⟩ := ih (s.enqueue tid m)
    refine ⟨hk, he, hh, ha, fun j hj => (hq j hj).trans (update_of_ne hj _ _), ?_⟩
    have hself : (s.enqueue tid m).queues tid =
        (s.queues tid).push { m with id := s.timestamp } := update_self _ _ _
    rw [hself] at hperm
    have hpush := ((s.queues tid).queue_push_perm { m with id := s.timestamp }).map (·.eraseId)
    refine hperm.trans ((hpush.append_right _).trans ?_)
    exact perm_middle.symm

theorem dispatch_cases (h : s.dispatch key out = some t) :
    out.thread = none ∧ t = s ∨ ∃ len tid s₁, out.thread = some len ∧
      s.getThreadID key len = some (s₁, tid) ∧ t.keyStates = s₁.keyStates ∧
      t.engines = s₁.engines ∧ t.hashCache = s₁.hashCache ∧ t.accLoad = s₁.accLoad ∧
      (∀ j, j ≠ tid → (t.queues j).queue = (s₁.queues j).queue) ∧
      ((t.queues tid).queue.map (·.eraseId)).Perm
        ((s₁.queues tid).queue.map (·.eraseId) ++ out.messages.map (·.eraseId)) := by
  unfold dispatch at h
  split at h
  · rename_i hnone
    exact .inl ⟨hnone, (some.inj h).symm⟩
  · rename_i len hlen
    obtain ⟨⟨s₁, tid⟩, h₁, h⟩ := bind_eq_some_iff.mp h
    obtain ⟨hk, he, hh, ha, hq, hperm⟩ := enqueueAll_spec out.messages s₁ tid
    refine .inr ⟨len, tid, s₁, hlen, h₁, ?_⟩
    split_ifs at h
    · cases h
      refine ⟨hk, he, hh, ha, fun j hj => ?_, ?_⟩
      · rw [queue_clearCounter, hq j hj]
      · rw [queue_clearCounter]
        exact hperm
    · cases h
      exact ⟨hk, he, hh, ha, fun j hj => by rw [hq j hj], hperm⟩

theorem dispatch_spec (hroute : out.thread = none → out.messages = [])
    (h : s.dispatch key out = some t) :
    t.keyStates = s.keyStates ∧ t.engines = s.engines ∧ ∃ tid,
      (∀ j, j ≠ tid → (t.queues j).queue = (s.queues j).queue) ∧
      ((t.queues tid).queue.map (·.eraseId)).Perm
        ((s.queues tid).queue.map (·.eraseId) ++ out.messages.map (·.eraseId)) ∧
      ∀ j, t.hashCache key ≠ some j → (t.queues j).queue = (s.queues j).queue := by
  rcases dispatch_cases h with ⟨hnone, rfl⟩ | ⟨len, tid, s₁, -, h₁, hk, he, hh, -, hq, hperm⟩
  · refine ⟨rfl, rfl, 0, fun _ _ => rfl, ?_, fun _ _ => rfl⟩
    rw [hroute hnone, map_nil, append_nil]
  · have hid : s₁.keyStates = s.keyStates ∧ s₁.engines = s.engines ∧ s₁.queues = s.queues ∧
        s₁.hashCache key = some tid := by
      rcases getThreadID_cases h₁ with ⟨htid, rfl⟩ | ⟨-, -, rfl⟩
      · exact ⟨rfl, rfl, rfl, htid⟩
      · exact ⟨rfl, rfl, rfl, update_self _ _ _⟩
    rw [hid.2.2.1] at hq hperm
    refine ⟨hk.trans hid.1, he.trans hid.2.1, tid, hq, hperm, fun j hj => hq j ?_⟩
    rintro rfl
    rw [hh, hid.2.2.2] at hj
    exact hj rfl

theorem dispatch_alike (hh : s'.hashCache = s.hashCache) (ha : s'.accLoad = s.accLoad)
    (hthread : out'.thread = out.thread) (h : s.dispatch key out = some t) :
    ∃ t', s'.dispatch key out' = some t' ∧ t'.hashCache = t.hashCache ∧
      t'.accLoad = t.accLoad := by
  have hclear : ∀ (b : Bool) (x : ServerState α C) (tid : ℕ),
      (if b then x.clearCounter tid key else x).hashCache = x.hashCache ∧
        (if b then x.clearCounter tid key else x).accLoad = x.accLoad := by
    intro b x tid
    split_ifs <;> exact ⟨rfl, rfl⟩
  unfold dispatch at h ⊢
  rw [hthread]
  split at h
  · obtain rfl := some.inj h
    exact ⟨s', rfl, hh, ha⟩
  · rename_i len _
    obtain ⟨⟨s₁, tid⟩, h₁, h⟩ := bind_eq_some_iff.mp h
    have hid : ∃ s₁', s'.getThreadID key len = some (s₁', tid) ∧
        s₁'.hashCache = s₁.hashCache ∧ s₁'.accLoad = s₁.accLoad := by
      unfold getThreadID at h₁ ⊢
      rw [hh, ha]
      split at h₁
      · cases h₁
        exact ⟨s', rfl, hh, ha⟩
      · split_ifs at h₁ with hzero
        rw [if_neg hzero]
        obtain ⟨i, hi, h₁⟩ := bind_eq_some_iff.mp h₁
        cases h₁
        rw [hi]
        exact ⟨_, rfl, rfl, rfl⟩
    obtain ⟨s₁', hs₁', hh₁, ha₁⟩ := hid
    obtain ⟨-, -, hhe, hae, -⟩ := enqueueAll_spec out.messages s₁ tid
    obtain ⟨-, -, hhe', hae', -⟩ := enqueueAll_spec out'.messages s₁' tid
    obtain rfl := some.inj h
    rw [hs₁']
    refine ⟨_, rfl, ?_, ?_⟩
    · rw [(hclear _ _ _).1, (hclear _ _ _).1, hhe, hhe', hh₁]
    · rw [(hclear _ _ _).2, (hclear _ _ _).2, hae, hae', ha₁]

end Dispatch

/-! ## Both modes -/

section Both

variable [Add α] [Zero α] {s s' t t' u u' : ServerState α C} {r : Request α}
  {rs rs' rs₁ rs₂ : List (Response α)} {visits : List (ServerState α C × Request α)}

theorem handle_inv (h : s.handle cfg r.reqMeta r.data = some (t, rs)) :
    ∃ k type out, r.data.keys = [k] ∧ depairDataHandleType r.reqMeta.cmd = some type ∧
      handleKey cfg (r.key cfg) type (s.keyStates (r.key cfg)) r.reqMeta r.data = some out ∧
      (s.setKey (r.key cfg) out.state).dispatch (r.key cfg) out = some t ∧ rs = out.responses := by
  unfold handle at h
  split at h
  · rename_i k hk
    obtain ⟨type, htype, h⟩ := bind_eq_some_iff.mp h
    obtain ⟨out, hout, h⟩ := bind_eq_some_iff.mp h
    obtain ⟨t', ht, h⟩ := bind_eq_some_iff.mp h
    obtain ⟨rfl, rfl⟩ := Prod.mk.inj (some.inj h)
    have hkey : r.key cfg = decodeKey cfg k := by rw [Request.key, hk]; rfl
    rw [hkey]
    exact ⟨k, type, out, hk, htype, hout, ht, rfl⟩
  · cases h

theorem handle_of {k : Key} (hk : r.data.keys = [k])
    (htype : depairDataHandleType r.reqMeta.cmd = some type)
    (hout : handleKey cfg (r.key cfg) type (s.keyStates (r.key cfg)) r.reqMeta r.data = some out)
    (ht : (s.setKey (r.key cfg) out.state).dispatch (r.key cfg) out = some t) :
    s.handle cfg r.reqMeta r.data = some (t, out.responses) := by
  have hkey : r.key cfg = decodeKey cfg k := by rw [Request.key, hk]; rfl
  rw [hkey] at hout ht
  unfold handle
  rw [hk]
  rw [htype]
  show (handleKey cfg _ type _ _ _ >>= _) = _
  rw [hout]
  show (dispatch _ _ out >>= _) = _
  rw [ht]
  rfl

omit [Add α] [Zero α] in
theorem harmless_iff (htype : depairDataHandleType r.reqMeta.cmd = some type) :
    Harmless cfg s r ↔ HarmlessKey cfg (s.keyStates (r.key cfg)) type r.reqMeta r.data := by
  unfold Harmless HarmlessKey Request.requestType
  rw [htype, map_some, Option.some.injEq]

/-- A state of the server and one of the blocking server between two requests. -/
structure Twins (s s' : ServerState α C) : Prop where
  drained : s.Drained
  drained' : s'.Drained
  quiet : s.Quiet
  quiet' : s'.Quiet
  null' : ∀ key, (s'.keyStates key).merged.tensor = .null
  frame : Frame s s'

/-- After a harmless request both servers have the same shape, and the blocking one has at most
one message, a copy that the other one has as well. -/
structure Served (t t' : ServerState α C) (rs rs' : List (Response α)) : Prop where
  quiet : t.Quiet
  quiet' : t'.Quiet
  frame : Frame t t'
  unmerged' : t'.Unmerged
  waiting' : ∀ j, t'.engines j = .waiting
  pushes : ∀ x ∈ rs, x.reqMeta.push = true
  pushes' : ∀ x ∈ rs', x.reqMeta.push = true
  queues' : (∀ j, (t'.queues j).queue = []) ∨ ∃ tid x y j, (t'.queues tid).queue = [x] ∧
    (∀ j, j ≠ tid → (t'.queues j).queue = []) ∧ y ∈ t.pending j ∧ y.eraseId = x.eraseId ∧
    (t'.keyStates x.key).shape.store.map Prod.fst = some x.len

section

omit [Add α] [Zero α]

theorem fields_of_eraseId {x y : EngineMessage α} (h : y.eraseId = x.eraseId) :
    y.key = x.key ∧ y.dst = x.dst ∧ y.src = x.src ∧ y.len = x.len ∧ y.ops = x.ops ∧
      y.sarray = x.sarray := by
  unfold EngineMessage.eraseId at h
  simp only [EngineMessage.mk.injEq] at h
  obtain ⟨-, -, hkey, hdst, hsrc, hlen, hops, hsarray, -⟩ := h
  exact ⟨hkey, hdst, hsrc, hlen, hops, hsarray⟩

theorem isCopy_of_eraseId {x y : EngineMessage α} (h : y.eraseId = x.eraseId) (hx : x.IsCopy) :
    y.IsCopy := by
  obtain ⟨-, hdst, hsrc, -, hops, hvals⟩ := fields_of_eraseId h
  unfold EngineMessage.IsCopy
  rw [hops, hdst, hsrc, hvals]
  exact hx

theorem queue_of_perm {q : List (EngineMessage α)} {m : EngineMessage α}
    (h : (q.map (·.eraseId)).Perm [m.eraseId]) : ∃ x, q = [x] ∧ x.eraseId = m.eraseId := by
  have hlen : q.length = 1 := by
    have := h.length_eq
    rwa [length_map] at this
  obtain ⟨x, rfl⟩ := length_eq_one_iff.mp hlen
  exact ⟨x, rfl, (singleton_inj.mp (perm_singleton.mp h))⟩

end

theorem handle_served (hsync : cfg.syncMode = true) (hnb : cfg.isEngineBlocking = false)
    (h : Twins s s') (hplain : r.Plain) (hharm : Harmless cfg s r)
    (hs : s.handle cfg r.reqMeta r.data = some (t, rs)) :
    ∃ t' rs', s'.handle cfg.blocking r.reqMeta r.data = some (t', rs') ∧ Served t t' rs rs' := by
  obtain ⟨k, type, out, hk, htype, hout, ht, rfl⟩ := handle_inv hs
  have htypes : type.requestType ≠ .kCompressedPushPull := by
    intro heq
    apply hplain
    rw [Request.requestType, htype, map_some, heq]
  obtain ⟨out', hout', halike, hmsg⟩ := handleKey_alike hsync hnb (h.frame.shape (r.key cfg)) htypes
    ((harmless_iff htype).mp hharm) hout
  have hhash₀ : (s'.setKey (r.key cfg) out'.state).hashCache =
      (s.setKey (r.key cfg) out.state).hashCache := h.frame.hashCache
  have hacc₀ : (s'.setKey (r.key cfg) out'.state).accLoad =
      (s.setKey (r.key cfg) out.state).accLoad := h.frame.accLoad
  obtain ⟨t', ht', hhash, hacc⟩ := dispatch_alike hhash₀ hacc₀ halike.thread ht
  refine ⟨t', out'.responses, handle_of hk htype hout' ht', ?_⟩
  obtain ⟨hks, -, tid, -, hperm, -⟩ := dispatch_spec (routes_handleKey hout).thread ht
  obtain ⟨hks', hes', tid', hother', hperm', -⟩ := dispatch_spec (routes_handleKey hout').thread ht'
  -- requests and answers are pushes
  have hpush : ∀ q, q ∈ out.state.request ∨ q ∈ out.responses.map (·.reqMeta) → q.push = true := by
    intro q hq
    rcases halike.origin q hq with hq | rfl
    · exact (h.quiet (r.key cfg)).pushes q hq
    · exact hharm.1
  have hquiet : t.Quiet := by
    unfold Quiet
    rw [hks]
    exact quiet_setKey h.quiet halike.keeps fun q hq => hpush q (.inl hq)
  have hquiet' : t'.Quiet := by
    unfold Quiet
    rw [hks']
    refine quiet_setKey h.quiet' halike.keeps' fun q hq => hpush q (.inl ?_)
    rwa [← request_of_shape halike.shape]
  have hshape : ∀ key, (t'.keyStates key).shape = (t.keyStates key).shape := by
    intro key
    rw [hks, hks']
    show (update s'.keyStates (r.key cfg) out'.state key).shape =
      (update s.keyStates (r.key cfg) out.state key).shape
    by_cases hkey : key = r.key cfg
    · rw [hkey, update_self, update_self, halike.shape]
    · rw [update_of_ne hkey, update_of_ne hkey, h.frame.shape]
  have hnull : ∀ key, (t'.keyStates key).merged.tensor = .null := by
    rw [hks']
    exact null_setKey h.null' (halike.keeps'.merged.trans (h.null' (r.key cfg)))
  have hwait : ∀ j, t'.engines j = .waiting := fun j => (congrFun hes' j).trans (h.drained' j).2
  have hpending : ∀ j, t'.pending j = (t'.queues j).queue := by
    intro j
    rw [pending, hwait j]
    rfl
  have hempty : ∀ j, j ≠ tid' → (t'.queues j).queue = [] := fun j hj =>
    (hother' j hj).trans (h.drained' j).1
  have hdrained' : ((s'.setKey (r.key cfg) out'.state).queues tid').queue = [] := (h.drained' tid').1
  rw [hdrained', map_nil, nil_append] at hperm'
  have hresp : ∀ x ∈ out'.responses, x.reqMeta.push = true := by
    intro x hx
    refine hpush _ (.inr ?_)
    rw [← halike.answered]
    exact mem_map_of_mem hx
  refine ⟨hquiet, hquiet', ⟨hhash, hacc, hshape⟩, ⟨fun j m hm => ?_, hnull⟩, hwait,
    fun x hx => hpush _ (.inr (mem_map_of_mem hx)), hresp, ?_⟩
  · rw [hpending] at hm
    by_cases hj : j = tid'
    · subst hj
      rcases hmsg with hnil | ⟨m', hone, -, hcopy, -⟩
      · rw [hnil, map_nil] at hperm'
        rw [map_eq_nil_iff.mp hperm'.eq_nil] at hm
        cases hm
      · rw [hone, map_singleton] at hperm'
        obtain ⟨x, hx, heq⟩ := queue_of_perm hperm'
        rw [hx] at hm
        obtain rfl := mem_singleton.mp hm
        exact isCopy_of_eraseId heq hcopy
    · rw [hempty j hj] at hm
      cases hm
  · rcases hmsg with hnil | ⟨m, hone, hmem, hcopy, hmkey, hlen⟩
    · left
      intro j
      by_cases hj : j = tid'
      · subst hj
        rw [hnil, map_nil] at hperm'
        exact map_eq_nil_iff.mp hperm'.eq_nil
      · exact hempty j hj
    · right
      rw [hone, map_singleton] at hperm'
      obtain ⟨x, hx, heq⟩ := queue_of_perm hperm'
      -- the other server has queued it too
      have hqueued : m.eraseId ∈ (t.queues tid).queue.map (·.eraseId) :=
        hperm.mem_iff.mpr (mem_append_right _ (mem_map_of_mem hmem))
      obtain ⟨y, hy, hyeq⟩ := List.mem_map.mp hqueued
      obtain ⟨hxkey, -, -, hxlen, -⟩ := fields_of_eraseId heq
      refine ⟨tid', x, y, tid, hx, hempty, mem_append_right _ hy, hyeq.trans heq.symm, ?_⟩
      rw [hks', hxkey, hmkey, hxlen]
      show (update s'.keyStates (r.key cfg) out'.state (r.key cfg)).shape.store.map _ = _
      rw [update_self]
      exact hlen

theorem harmless_of_handle (hsync : cfg.syncMode = true) (h : Twins s s') (hplain : r.Plain)
    (hs : s'.handle cfg.blocking r.reqMeta r.data = some (t', rs)) : Harmless cfg s r := by
  obtain ⟨k, type, out, -, htype, hout, -⟩ := handle_inv hs
  have htypes : type.requestType ≠ .kCompressedPushPull := by
    intro heq
    apply hplain
    rw [Request.requestType, htype, map_some, heq]
  obtain ⟨hpush, hcase⟩ := harmless_of_handleKey hsync (h.null' (r.key cfg)) htypes hout
  refine (harmless_iff htype).mpr ⟨hpush, ?_⟩
  have hshape := h.frame.shape (r.key cfg)
  have hstore : (s'.keyStates (r.key cfg)).store.map
      (fun stored => (stored.tensor.length, stored.dtype)) =
      (s.keyStates (r.key cfg)).store.map fun stored => (stored.tensor.length, stored.dtype) :=
    congrArg Shape.store hshape
  rw [request_of_shape hshape, getExpectedWorkers_of_shape cfg hshape] at hcase
  rcases hcase with hc | hc | hc | hc
  · exact .inl hc
  · rw [hc] at hstore
    exact .inr (.inl (map_eq_none_iff.mp hstore.symm))
  · exact .inr (.inr (.inl hc))
  · exact .inr (.inr (.inr hc))

section

omit [Zero α]

theorem twins_of_served (h : Served t t' rs₁ rs₂) (hrun : EngineRun cfg t u rs) (hu : u.Drained)
    (hrun' : EngineRun cfg.blocking t' u' rs') (hu' : u'.Drained) :
    Twins u u' ∧ rs = [] ∧ rs' = [] := by
  obtain ⟨hf, hq, hrs⟩ := engineRun_frame h.quiet hrun
  obtain ⟨hf', hq', hrs'⟩ := engineRun_frame h.quiet' hrun'
  have hnull := (engineRun_unmerged h.quiet' h.unmerged' hrun').null
  refine ⟨⟨hu, hu', hq, hq', hnull, ?_, ?_, fun key => ?_⟩, hrs, hrs'⟩
  · rw [hf'.hashCache, h.frame.hashCache, hf.hashCache]
  · rw [hf'.accLoad, h.frame.accLoad, hf.accLoad]
  · rw [hf'.shape, h.frame.shape, hf.shape]

theorem exists_drained (h : Served t t' rs₁ rs₂) (hrun : EngineRun cfg t u rs) (hu : u.Drained) :
    ∃ u', EngineRun cfg.blocking t' u' [] ∧ u'.Drained := by
  rcases h.queues' with hempty | ⟨tid, x, y, j, hx, hother, hy, heq, hlen⟩
  · exact ⟨t', .stop t', fun j => ⟨hempty j, h.waiting' j⟩⟩
  have hcopy : x.IsCopy := by
    refine h.unmerged'.copies tid x (mem_append_right _ ?_)
    rw [hx]
    exact mem_cons_self
  have hfit : ¬x.Overlong := by
    rintro ⟨-, recved, hsrc, hlt⟩
    obtain ⟨-, -, hysrc, hylen, -⟩ := fields_of_eraseId heq
    have hyover : y.Overlong := ⟨isCopy_of_eraseId heq hcopy, recved, hysrc.trans hsrc, by omega⟩
    have hpend := overlong_pending h.quiet hrun hyover hy
    rw [hu.pending] at hpend
    cases hpend
  obtain ⟨⟨len, dtype⟩, hst, hfst⟩ := map_eq_some_iff.mp hlen
  obtain ⟨stored, hstore, hpair⟩ := map_eq_some_iff.mp hst
  have hxlen : x.len ≤ stored.tensor.length := by
    have := congrArg Prod.fst hpair
    omega
  exact engineRun_copy h.quiet' h.waiting' hx hother hcopy hfit hstore hxlen

end

section

omit [Add α] [Zero α]

theorem pullPayloads_of_pushes (h : ∀ x ∈ rs, x.reqMeta.push = true) : pullPayloads rs = [] := by
  unfold pullPayloads
  rw [filter_eq_nil_iff.mpr fun x hx => by simp [h x hx], map_nil]

theorem pullPayloads_append (rs rs' : List (Response α)) :
    pullPayloads (rs ++ rs') = pullPayloads rs ++ pullPayloads rs' := by
  unfold pullPayloads
  rw [filter_append, map_append]

end

/-- The run lemma: from twins, by induction on the requests. -/
theorem run_agrees_iff (hsync : cfg.syncMode = true) (hnb : cfg.isEngineBlocking = false)
    (h : Twins s s') (hplain : ∀ v ∈ visits, v.2.Plain) (hrun : DrainedRun cfg s visits rs) :
    (∃ visits' rs', DrainedRun cfg.blocking s' visits' rs' ∧
        visits'.map Prod.snd = visits.map Prod.snd ∧ pullPayloads rs' = pullPayloads rs) ↔
      ∀ v ∈ visits, Harmless cfg v.1 v.2 := by
  induction hrun generalizing s' with
  | nil s =>
    refine ⟨fun _ v hv => ?_, fun _ => ⟨[], [], .nil s', rfl, rfl⟩⟩
    cases hv
  | @cons s t u r rs rs₁ rs₂ visits hs hengine hdrained _ ih =>
    have hr : r.Plain := hplain (s, r) mem_cons_self
    have hrest : ∀ v ∈ visits, v.2.Plain := fun v hv => hplain v (mem_cons_of_mem _ hv)
    constructor
    · rintro ⟨visits', rs', hrun', hreqs, hpulls⟩
      cases hrun' with
      | nil => cases hreqs
      | @cons _ t' u' r' rs' rs₁' rs₂' visits' hs' hengine' hdrained' hrun' =>
        obtain ⟨rfl, htail⟩ := List.cons.inj hreqs
        have hharm := harmless_of_handle hsync h hr hs'
        obtain ⟨t'', rs'', hs'', hserved⟩ := handle_served hsync hnb h hr hharm hs
        obtain ⟨rfl, rfl⟩ := Prod.mk.inj (some.inj (hs''.symm.trans hs'))
        obtain ⟨htwins, rfl, rfl⟩ := twins_of_served hserved hengine hdrained hengine' hdrained'
        rw [append_nil, append_nil, pullPayloads_append, pullPayloads_append,
          pullPayloads_of_pushes hserved.pushes, pullPayloads_of_pushes hserved.pushes'] at hpulls
        have hall := (ih htwins hrest).mp ⟨visits', rs₂', hrun', htail, hpulls⟩
        intro v hv
        rcases mem_cons.mp hv with rfl | hv
        · exact hharm
        · exact hall v hv
    · intro hall
      have hharm := hall (s, r) mem_cons_self
      obtain ⟨t', rs', hs', hserved⟩ := handle_served hsync hnb h hr hharm hs
      obtain ⟨u', hengine', hdrained'⟩ := exists_drained hserved hengine hdrained
      obtain ⟨htwins, rfl, -⟩ := twins_of_served hserved hengine hdrained hengine' hdrained'
      obtain ⟨visits', rs₂', hrun', hreqs, hpulls⟩ :=
        (ih htwins hrest).mpr fun v hv => hall v (mem_cons_of_mem _ hv)
      refine ⟨(s', r) :: visits', _, .cons hs' hengine' hdrained' hrun', ?_, ?_⟩
      · rw [map_cons, map_cons, hreqs]
      · rw [append_nil, append_nil, pullPayloads_append, pullPayloads_append,
          pullPayloads_of_pushes hserved.pushes, pullPayloads_of_pushes hserved.pushes', hpulls]

omit [Add α] [Zero α] in
theorem twins_start (cfg : Config) :
    Twins (.start cfg : ServerState α C) (.start cfg.blocking) where
  drained _ := ⟨rfl, rfl⟩
  drained' _ := ⟨rfl, rfl⟩
  quiet _ := ⟨rfl, rfl, nofun⟩
  quiet' _ := ⟨rfl, rfl, nofun⟩
  null' _ := rfl
  frame := ⟨rfl, rfl, fun _ => rfl⟩

/-- Requests that a synchronous server accepts, with its engine queues drained after each: the
blocking server gives the same answers to pulls iff every request is harmless. -/
theorem same_pulls_iff_harmless (hsync : cfg.syncMode = true)
    (hnb : cfg.isEngineBlocking = false) (hplain : ∀ v ∈ visits, v.2.Plain)
    (hrun : DrainedRun cfg (.start cfg : ServerState α C) visits rs) :
    (∃ visits' rs', DrainedRun cfg.blocking (.start cfg.blocking : ServerState α C) visits' rs' ∧
        visits'.map Prod.snd = visits.map Prod.snd ∧ pullPayloads rs' = pullPayloads rs) ↔
      ∀ v ∈ visits, Harmless cfg v.1 v.2 :=
  run_agrees_iff hsync hnb (twins_start cfg) hplain hrun

end Both

/-! ### Runs on one thread -/

section Executed

variable [Add α] [Zero α] {s t u : ServerState α C} {r : Request α} {i n : ℕ}
  {rs rs' : List (Response α)}

/-- `n` steps of an engine thread. -/
def runThread (cfg : Config) (i : ℕ) (s : ServerState α C) :
    ℕ → Option (ServerState α C × List (Response α))
  | 0 => some (s, [])
  | n + 1 => (s.engineStep cfg i).bind fun step =>
      (runThread cfg i step.1 n).map fun rest => (rest.1, step.2.2 ++ rest.2)

def EngineThread.isWaiting : EngineThread α → Bool
  | .waiting => true
  | _ => false

/-- Requests for keys of thread `i`, each with the number of steps that drains the thread. -/
def serveOn (cfg : Config) (i : ℕ) (s : ServerState α C) :
    List (Request α × ℕ) → Option (ServerState α C × List (Response α))
  | [] => some (s, [])
  | (r, n) :: rest => (s.handle cfg r.reqMeta r.data).bind fun handled =>
      (runThread cfg i handled.1 n).bind fun done =>
        if (handled.1.hashCache (r.key cfg)).all (· == i) ∧ (done.1.queues i).queue.isEmpty ∧
            (done.1.engines i).isWaiting then
          (serveOn cfg i done.1 rest).map fun last => (last.1, handled.2 ++ done.2 ++ last.2)
        else none

omit [Zero α] in
theorem engineRun_of_runThread (h : runThread cfg i s n = some (t, rs)) :
    EngineRun cfg s t rs ∧ ∀ j, j ≠ i → t.queues j = s.queues j ∧ t.engines j = s.engines j := by
  induction n generalizing s rs with
  | zero =>
    obtain ⟨rfl, rfl⟩ := Prod.mk.inj (some.inj h)
    exact ⟨.stop s, fun _ _ => ⟨rfl, rfl⟩⟩
  | succ n ih =>
    obtain ⟨⟨s₁, executed, rs₁⟩, hstep, h⟩ := bind_eq_some_iff.mp h
    obtain ⟨⟨t', rs₂⟩, hrest, heq⟩ := map_eq_some_iff.mp h
    obtain ⟨rfl, rfl⟩ := Prod.mk.inj heq
    obtain ⟨hrun, hother⟩ := ih hrest
    refine ⟨.step hstep hrun, fun j hj => ?_⟩
    have hone := engineStep_of_ne hstep hj
    exact ⟨(hother j hj).1.trans hone.1, (hother j hj).2.trans hone.2⟩

theorem drainedRun_of_serveOn {requests : List (Request α × ℕ)} (hs : s.Drained)
    (h : serveOn cfg i s requests = some (t, rs)) :
    ∃ visits, DrainedRun cfg s visits rs ∧ visits.map Prod.snd = requests.map Prod.fst := by
  induction requests generalizing s rs with
  | nil =>
    obtain ⟨rfl, rfl⟩ := Prod.mk.inj (some.inj h)
    exact ⟨[], .nil s, rfl⟩
  | cons head rest ih =>
    obtain ⟨r, n⟩ := head
    obtain ⟨⟨s₁, rs₁⟩, hhandle, h⟩ := bind_eq_some_iff.mp h
    obtain ⟨⟨s₂, rs₂⟩, hthread, h⟩ := bind_eq_some_iff.mp h
    split_ifs at h with hc
    obtain ⟨⟨t', rs₃⟩, hrest, heq⟩ := map_eq_some_iff.mp h
    obtain ⟨rfl, rfl⟩ := Prod.mk.inj heq
    obtain ⟨hhash, hqueue, hwait⟩ := hc
    obtain ⟨hrun, hother⟩ := engineRun_of_runThread hthread
    obtain ⟨k, type, out, -, -, hout, hdispatch, -⟩ := handle_inv hhandle
    obtain ⟨-, hengines, -, -, -, hsame⟩ :=
      dispatch_spec (routes_handleKey hout).thread hdispatch
    have hdrained : s₂.Drained := by
      intro j
      by_cases hj : j = i
      · subst hj
        refine ⟨List.isEmpty_iff.mp hqueue, ?_⟩
        cases he : s₂.engines j with
        | waiting => rfl
        | _ => rw [he] at hwait; cases hwait
      · have hne : s₁.hashCache (r.key cfg) ≠ some j := by
          intro heq
          rw [heq] at hhash
          exact hj (beq_iff_eq.mp hhash)
        exact ⟨by rw [(hother j hj).1, hsame j hne]; exact (hs j).1,
          by rw [(hother j hj).2, hengines]; exact (hs j).2⟩
    obtain ⟨visits, hvisits, hreqs⟩ := ih hdrained hrest
    refine ⟨(s, r) :: visits, .cons hhandle hrun hdrained hvisits, ?_⟩
    rw [map_cons, map_cons, hreqs]

end Executed

/-- A request of key `7`. -/
def cellRequest (push : Bool) (sender : ℕ) (cells : List ℤ) : Request ℤ :=
  ⟨⟨0, push, sender, 0⟩, ⟨[7], .cells cells, [cells.length]⟩⟩

def firstPush : List (Request ℤ × ℕ) :=
  [(cellRequest true 0 [0], 0), (cellRequest true 1 [0], 0), (cellRequest true 0 [5], 3)]

theorem same_pulls_iff_harmless_first : ∃ visits rs, DrainedRun { numWorkers := 2 }
        (.start { numWorkers := 2 } : ServerState ℤ noCompressor) visits rs ∧ visits.length = 3 ∧
      ((∃ visits' rs', DrainedRun (Config.blocking { numWorkers := 2 })
          (.start (Config.blocking { numWorkers := 2 }) : ServerState ℤ noCompressor) visits' rs' ∧
          visits'.map Prod.snd = visits.map Prod.snd ∧ pullPayloads rs' = pullPayloads rs) ↔
        ∀ v ∈ visits, Harmless { numWorkers := 2 } v.1 v.2) := by
  obtain ⟨⟨t, rs⟩, hserve⟩ := isSome_iff_exists.mp (show (serveOn { numWorkers := 2 } 0
    (.start { numWorkers := 2 } : ServerState ℤ noCompressor) firstPush).isSome by decide)
  obtain ⟨visits, hrun, hreqs⟩ := drainedRun_of_serveOn (fun _ => ⟨rfl, rfl⟩) hserve
  have hplain : ∀ r ∈ firstPush.map Prod.fst, r.Plain := by
    unfold Request.Plain
    decide
  rw [← hreqs, List.forall_mem_map] at hplain
  refine ⟨visits, rs, hrun, ?_, same_pulls_iff_harmless rfl rfl hplain hrun⟩
  rw [← length_map (f := Prod.snd), hreqs]
  rfl

def oneRound : List (Request ℤ × ℕ) :=
  [(cellRequest true 0 [0], 0), (cellRequest true 0 [5], 6), (cellRequest false 0 [], 0)]

/-- The server answers the pull with what was pushed; the blocking server fails at the push, whose
copy from the merged buffer follows a null pointer. -/
theorem blocking_serves_no_round :
    ∃ visits rs, DrainedRun {} (.start {} : ServerState ℤ noCompressor) visits rs ∧
      (pullPayloads rs).map Prod.snd = [.cells [5]] ∧
      ¬∃ visits' rs', DrainedRun (Config.blocking {})
        (.start (Config.blocking {}) : ServerState ℤ noCompressor) visits' rs' ∧
        visits'.map Prod.snd = visits.map Prod.snd ∧ pullPayloads rs' = pullPayloads rs := by
  obtain ⟨⟨t, rs⟩, hserve, hpulls⟩ : ∃ served ∈ serveOn {} 0
      (.start {} : ServerState ℤ noCompressor) oneRound,
      (pullPayloads served.2).map Prod.snd = [.cells [5]] := by
    decide
  obtain ⟨visits, hrun, hreqs⟩ := drainedRun_of_serveOn (fun _ => ⟨rfl, rfl⟩) hserve
  have hplain : ∀ r ∈ oneRound.map Prod.fst, r.Plain := by
    unfold Request.Plain
    decide
  rw [← hreqs, List.forall_mem_map] at hplain
  refine ⟨visits, rs, hrun, hpulls, fun hblocking => ?_⟩
  have hharm := (run_agrees_iff rfl rfl (twins_start {}) hplain hrun).mp hblocking
  have hpush : ∀ r ∈ visits.map Prod.snd, r.reqMeta.push = true :=
    List.forall_mem_map.mpr fun v hv => (hharm v hv).1
  rw [hreqs] at hpush
  exact absurd hpush (by decide)

end MegatronDPU.Server
