import MegatronDPU.Server.System

/-!
# One key at a time

The engine threads are shared by all keys, but a key keeps its thread for good, so its messages
stay in order and the keys do not disturb each other. The lane of a key is its state, its part of
the engine queue and of the thread, and its workers. `Lane.step` is the same protocol for a single
key with a thread of its own; every step of a job is a step of one lane and leaves the others
alone (`lane_step`), so a job refines each of its lanes (`reach_lane`).

Queues are plain here: with scheduling on, a lane is not in order.
-/

namespace MegatronDPU.Server

open Lts Function List Option ServerState EngineThread Job EngineMessage

variable {α : Type} {C : CompressorClass α}

/-- What concerns one key: its state, the messages of its thread and its clients. -/
@[ext]
structure Lane (α : Type) (C : CompressorClass α) where
  st : KeyState α C := {}
  engine : EngineThread α := .waiting
  queue : List (EngineMessage α) := []
  clients : ℕ → Client := fun _ => {}
  trace : List (Event α) := []

/-- A worker sends its next request, or the engine steps. -/
inductive LaneAction
  | request (worker : ℕ)
  | engine
  deriving DecidableEq

variable {key : Key} {w len i : ℕ} {out : Outcome α C} {ms : List (EngineMessage α)}
  {st : KeyState α C} {stored : Store α} {type : DataHandleType} {data : KVPairs α} {req : KVMeta}
  {m : EngineMessage α} {q : PriorityQueue α} {rs : List (Response α)} {s : ServerState α C}

namespace Lane

/-- The lane after a request was handled. -/
def afterRequest (g : KeyGroup α) (l : Lane α C) (w : ℕ) (out : Outcome α C) : Lane α C where
  st := out.state
  engine := l.engine
  queue := l.queue ++ out.messages
  clients := deliver g (update l.clients w ⟨(l.clients w).stage, true⟩) out.responses
  trace := l.trace ++ out.responses.map .response

variable [Add α] [Zero α]

/-- A worker that does not wait sends its next request. -/
def request (cfg : Config) (g : KeyGroup α) (key : Key) (l : Lane α C) (w : ℕ) :
    Option (Lane α C) :=
  let c := l.clients w
  if w ∈ g.workers ∧ c.waiting = false then do
    let out ← handleKey cfg key (c.stage.type g) l.st (c.stage.reqMeta g w)
      (c.stage.data cfg g key w)
    some (l.afterRequest g w out)
  else none

omit [Zero α] in
/-- A step of the engine. -/
def work (cfg : Config) (g : KeyGroup α) (l : Lane α C) : Option (Lane α C) :=
  match l.engine with
  | .waiting =>
    match l.queue with
    | [] => none
    | m :: queue => some { l with engine := .popped m, queue := queue }
  | .popped m => do
    let (st, m') ← preprocess l.st m
    some { l with st := st, engine := .ready m' }
  | .ready m => do
    let (st, rs) ← execute cfg l.st m
    some
      { l with
        st := st
        engine := .waiting
        clients := deliver g l.clients rs
        trace := l.trace ++ executedEvents m rs }
  | .stopped => none

omit [Add α] [Zero α] in
/-- The lane after the engine has executed a message. -/
def executed (g : KeyGroup α) (l : Lane α C) (m : EngineMessage α) (st : KeyState α C)
    (rs : List (Response α)) : Lane α C where
  st := st
  engine := .waiting
  queue := l.queue
  clients := deliver g l.clients rs
  trace := l.trace ++ executedEvents m rs

def step (cfg : Config) (g : KeyGroup α) (key : Key) (l : Lane α C) : LaneAction → Option (Lane α C)
  | .request w => l.request cfg g key w
  | .engine => l.work cfg g

/-- What a request of a worker does to its lane. -/
theorem request_cases {cfg : Config} {g : KeyGroup α} {l l' : Lane α C} :
    l.request cfg g key w = some l' ↔
      w ∈ g.workers ∧ (l.clients w).waiting = false ∧
      ∃ out, handleKey cfg key ((l.clients w).stage.type g) l.st ((l.clients w).stage.reqMeta g w)
        ((l.clients w).stage.data cfg g key w) = some out ∧ l.afterRequest g w out = l' := by
  simp only [request, bind_eq_bind]
  split_ifs with h
  · simp [h.1, h.2, bind_eq_some_iff]
  · simpa using fun h1 h2 => absurd ⟨h1, h2⟩ h

omit [Zero α] in
/-- The turns of an engine: it pops, it preprocesses or it executes. -/
theorem work_cases {cfg : Config} {g : KeyGroup α} {l l' : Lane α C} (h : l.work cfg g = some l') :
    (∃ m queue, l.engine = .waiting ∧ l.queue = m :: queue ∧
      l' = { l with engine := .popped m, queue := queue }) ∨
    (∃ m st m', l.engine = .popped m ∧ preprocess l.st m = some (st, m') ∧
      l' = { l with st := st, engine := .ready m' }) ∨
    (∃ m st rs, l.engine = .ready m ∧ execute cfg l.st m = some (st, rs) ∧
      l' = l.executed g m st rs) := by
  unfold work at h
  split at h
  · rename_i he
    split at h
    · cases h
    · rename_i m queue hq
      cases h
      exact .inl ⟨m, queue, he, hq, rfl⟩
  · rename_i m he
    obtain ⟨⟨st, m'⟩, hp, h⟩ := bind_eq_some_iff.mp h
    cases h
    exact .inr (.inl ⟨m, st, m', he, hp, rfl⟩)
  · rename_i m he
    obtain ⟨⟨st, rs⟩, hx, h⟩ := bind_eq_some_iff.mp h
    cases h
    exact .inr (.inr ⟨m, st, rs, he, hx, rfl⟩)
  · cases h

end Lane

def lanes [Add α] [Zero α] (cfg : Config) (C : CompressorClass α) (g : KeyGroup α) (key : Key) :
    System (Lane α C) LaneAction where
  init l := l = {}
  step := Lane.step cfg g key

/-! ## Message ids

Ids order the heap of a scheduling queue and are not read elsewhere; a lane forgets them. -/

/-- Without the id, which depends on the other keys. -/
def EngineMessage.eraseId (m : EngineMessage α) : EngineMessage α := { m with id := 0 }

theorem resolveSrc_eraseId (m : EngineMessage α) :
    resolveSrc m.eraseId = (resolveSrc m).eraseId := by
  unfold resolveSrc eraseId
  dsimp only
  split <;> rfl

theorem preprocess_eraseId (st : KeyState α C) (m : EngineMessage α) :
    preprocess st m.eraseId = (preprocess st m).map fun r => (r.1, r.2.eraseId) := by
  unfold preprocess
  rw [resolveSrc_eraseId]
  generalize resolveSrc m = m'
  show (if m.dst.isNull ∨ m.src.isNull then _ else _) = _
  split_ifs
  · rfl
  · cases hc : st.compressor with
    | none => cases ho : m'.ops <;> simp [eraseId, ho]
    | some c =>
      cases ho : m'.ops with
      | allRecv => cases hd : st.deref m'.src <;> simp [eraseId, ho, hd]
      | _ =>
        simp only [eraseId, ho]
        split
        · split_ifs
          · cases hd : st.deref m'.src <;> simp
          · rfl
        · rfl

theorem execute_eraseId [Add α] (cfg : Config) (st : KeyState α C) (m : EngineMessage α) :
    execute cfg st m.eraseId = execute cfg st m := rfl

/-! ## Routing -/

/-- A handler queues messages of its own key only, and only where it asked for the thread. -/
structure Outcome.Routes (out : Outcome α C) (key : Key) : Prop where
  messages : ∀ m ∈ out.messages, m.key = key ∧ m.ops ≠ .terminate ∧ m.eraseId = m
  thread : out.thread = none → out.messages = []

/-- A message that a push queues: one with its data, or `ALL_RECV`. -/
def EngineMessage.OfPush (key : Key) (type : DataHandleType) (data : KVPairs α)
    (m : EngineMessage α) : Prop :=
  ∃ stored ops src sarray req, m = pushMessage key type stored ops src sarray req ∧
    (ops = .allRecv ∨ (ops = .copyFirst ∨ ops = .sumRecv) ∧ sarray = data)

theorem messages_collect (cfg : Config) (st : KeyState α C) (req : KVMeta)
    (ready : KeyState α C → KeyState α C) : (collect cfg st req ready).messages = [] := by
  unfold collect
  dsimp only
  split_ifs <;> rfl

theorem finishPushes_messages {cfg : Config} {st' : KeyState α C}
    (h : finishPushes cfg key type st stored len = some (st', ms)) :
    ∀ m ∈ ms, m.OfPush key type data := by
  unfold finishPushes at h
  split_ifs at h
  · cases h; simp
  · obtain ⟨_, -, h⟩ := bind_eq_some_iff.mp h
    obtain ⟨_, -, h⟩ := bind_eq_some_iff.mp h
    cases h; simp
  · cases h
    exact forall_mem_singleton.mpr ⟨_, _, _, _, _, rfl, .inl rfl⟩

section Arith

variable [Add α]

theorem acceptPush_messages {cfg : Config} {st' : KeyState α C} {recved : List α}
    (h : acceptPush cfg key type st stored req data recved len = some (st', ms)) :
    ∀ m ∈ ms, m.OfPush key type data := by
  unfold acceptPush at h
  split_ifs at h
  · cases h
    exact forall_mem_singleton.mpr ⟨_, _, _, _, _, rfl, .inr ⟨.inl rfl, rfl⟩⟩
  iterate 2
    · obtain ⟨_, -, h⟩ := bind_eq_some_iff.mp h
      cases h; simp
  · cases h
    exact forall_mem_singleton.mpr ⟨_, _, _, _, _, rfl, .inr ⟨.inr rfl, rfl⟩⟩

theorem handlePush_messages {cfg : Config} {recved : List α}
    (h : handlePush cfg key type st stored req data recved len = some out) :
    out.thread = some len ∧ ∀ m ∈ out.messages, m.OfPush key type data := by
  obtain ⟨⟨st1, ms1⟩, h1, h⟩ := bind_eq_some_iff.mp h
  have hm1 := acceptPush_messages h1
  dsimp only at h
  split_ifs at h
  · obtain ⟨⟨st2, ms2⟩, h2, h⟩ := bind_eq_some_iff.mp h
    cases h
    exact ⟨rfl, forall_mem_append.mpr ⟨hm1, finishPushes_messages h2⟩⟩
  · cases h; exact ⟨rfl, hm1⟩
  · cases h; exact ⟨rfl, hm1⟩

theorem handleKey_messages [Zero α] {cfg : Config}
    (h : handleKey cfg key type st req data = some out) :
    out.messages = [] ∨ req.push = true ∧ out.thread ≠ none ∧
      ∀ m ∈ out.messages, m.OfPush key type data := by
  unfold handleKey at h
  split at h
  · unfold handleGroupRegister at h
    split at h
    · split_ifs at h
      obtain ⟨_, -, h⟩ := bind_eq_some_iff.mp h
      cases h; exact .inl rfl
    · cases h
  · unfold handleCompressed at h
    split at h
    · cases h; exact .inl (messages_collect ..)
    · split at h
      · obtain ⟨_, -, h⟩ := bind_eq_some_iff.mp h
        cases h; exact .inl (messages_collect ..)
      · cases h
  · split_ifs at h with hpush
    · split at h
      · split_ifs at h
        split at h
        · cases h; exact .inl (messages_collect ..)
        · obtain ⟨hthread, hm⟩ := handlePush_messages h
          exact .inr ⟨hpush, by simp [hthread], hm⟩
      · cases h
    · unfold handlePull at h
      split_ifs at h
      iterate 2
        · obtain ⟨_, -, h⟩ := bind_eq_some_iff.mp h
          cases h; exact .inl rfl
      · cases h; exact .inl rfl

theorem routes_handleKey [Zero α] {cfg : Config}
    (h : handleKey cfg key type st req data = some out) : out.Routes key := by
  rcases handleKey_messages h with hnil | ⟨-, hthread, hm⟩
  · exact ⟨by simp [hnil], fun _ => hnil⟩
  · refine ⟨fun m hmem => ?_, fun hnone => absurd hnone hthread⟩
    obtain ⟨_, ops, _, _, _, rfl, hops⟩ := hm m hmem
    exact ⟨rfl, by rcases hops with rfl | ⟨rfl | rfl, -⟩ <;> exact nofun, rfl⟩

end Arith

/-- Where the messages of a job are: all of them with the thread of their key. -/
structure ServerState.Routed (s : ServerState α C) : Prop where
  plain : ∀ i, (s.queues i).enableSchedule = false
  queued : ∀ i, ∀ m ∈ (s.queues i).queue, s.hashCache m.key = some i ∧ m.ops ≠ .terminate
  popped : ∀ i m, s.engines i = .popped m → s.hashCache m.key = some i
  ready : ∀ i m, s.engines i = .ready m → s.hashCache m.key = some i

def PriorityQueue.ofKey (q : PriorityQueue α) (key : Key) : List (EngineMessage α) :=
  (q.queue.filter (·.key = key)).map (·.eraseId)

def EngineThread.ofKey (key : Key) : EngineThread α → EngineThread α
  | .popped m => if m.key = key then .popped m.eraseId else .waiting
  | .ready m => if m.key = key then .ready m.eraseId else .waiting
  | _ => .waiting

def ServerState.laneQueue (s : ServerState α C) (key : Key) : List (EngineMessage α) :=
  match s.hashCache key with
  | some i => (s.queues i).ofKey key
  | none => []

def ServerState.laneEngine (s : ServerState α C) (key : Key) : EngineThread α :=
  match s.hashCache key with
  | some i => (s.engines i).ofKey key
  | none => .waiting

/-- The lane of a key in a job. -/
def Job.lane (s : Job α C) (key : Key) : Lane α C where
  st := s.server.keyStates key
  engine := s.server.laneEngine key
  queue := s.server.laneQueue key
  clients := s.clients key
  trace := (s.trace.filter (·.1 = key)).map (·.2)

namespace ServerState

/-! ### Queueing -/

variable {s' : ServerState α C} {tid : ℕ}

/-- A key has a thread, or gets the one with the least load. -/
theorem getThreadID_cases (h : s.getThreadID key len = some (s', tid)) :
    s.hashCache key = some tid ∧ s' = s ∨
      s.hashCache key = none ∧ leastLoad (2 ^ 64 - 1) none 0 s.accLoad = some tid ∧ s' = { s with
        accLoad := s.accLoad.modify tid fun load => (load + len) % 2 ^ 64
        hashCache := update s.hashCache key (some tid) } := by
  unfold getThreadID at h
  split at h
  · rename_i htid
    cases h
    exact .inl ⟨htid, rfl⟩
  · rename_i hnone
    split_ifs at h
    obtain ⟨_, hleast, h⟩ := bind_eq_some_iff.mp h
    cases h
    exact .inr ⟨hnone, hleast, rfl⟩

theorem queue_clearCounter (s : ServerState α C) (tid : ℕ) (key : Key) (i : ℕ) :
    ((s.clearCounter tid key).queues i).queue = (s.queues i).queue := by
  by_cases hi : i = tid
  · subst hi; simp [clearCounter, setQueue]
  · simp [clearCounter, setQueue, hi]

theorem Routed.getThreadID (hs : s.Routed) (h : s.getThreadID key len = some (s', tid)) :
    s'.Routed ∧ s'.hashCache key = some tid ∧ s'.keyStates = s.keyStates ∧
      ∀ k, s'.laneQueue k = s.laneQueue k ∧ s'.laneEngine k = s.laneEngine k := by
  rcases getThreadID_cases h with ⟨htid, rfl⟩ | ⟨hnone, -, rfl⟩
  · exact ⟨hs, htid, rfl, fun k => ⟨rfl, rfl⟩⟩
  · -- a key without a thread has no messages yet, so its lane was idle and still is
    have hne : ∀ {i} {m : EngineMessage α}, s.hashCache m.key = some i → m.key ≠ key := by
      rintro i m hm rfl
      rw [hnone] at hm
      cases hm
    have hupd : ∀ {i} {m : EngineMessage α}, s.hashCache m.key = some i →
        update s.hashCache key (some tid) m.key = some i := fun hm => by
      rw [update_of_ne (hne hm), hm]
    refine ⟨⟨hs.plain, fun i m hm => ⟨hupd (hs.queued i m hm).1, (hs.queued i m hm).2⟩,
      fun i m hm => hupd (hs.popped i m hm), fun i m hm => hupd (hs.ready i m hm)⟩,
      update_self .., rfl, fun k => ?_⟩
    by_cases hk : k = key
    · subst hk
      constructor
      · have hempty : (s.queues tid).queue.filter (·.key = k) = [] := by
          rw [filter_eq_nil_iff]
          intro m hm
          simpa using hne (hs.queued tid m hm).1
        simp [laneQueue, hnone, PriorityQueue.ofKey, hempty]
      · simp only [laneEngine, hnone, update_self]
        cases he : s.engines tid with
        | popped m => exact if_neg (hne (hs.popped tid m he))
        | ready m => exact if_neg (hne (hs.ready tid m he))
        | _ => rfl
    · simp only [laneQueue, laneEngine, update_of_ne hk, and_self]

/-- A message put on its key's thread is the last of the key, and of no other key. -/
theorem Routed.enqueue (hs : s.Routed) (hm : s.hashCache m.key = some tid)
    (ho : m.ops ≠ .terminate) (k : Key) :
    (s.enqueue tid m).Routed ∧ (s.enqueue tid m).laneQueue k =
      s.laneQueue k ++ if m.key = k then [m.eraseId] else [] := by
  have hpush := PriorityQueue.queue_push_of_not_schedule (hs.plain tid) { m with id := s.timestamp }
  constructor
  · refine ⟨fun i => ?_, fun i x hx => ?_, hs.popped, hs.ready⟩
    · by_cases hi : i = tid
      · subst hi; simp [ServerState.enqueue, setQueue, hs.plain i]
      · simp [ServerState.enqueue, setQueue, hi, hs.plain i]
    · by_cases hi : i = tid
      · subst hi
        simp only [ServerState.enqueue, setQueue, update_self, hpush, mem_append,
          mem_singleton] at hx
        rcases hx with hx | rfl
        · exact hs.queued i x hx
        · exact ⟨hm, ho⟩
      · simp only [ServerState.enqueue, setQueue, update_of_ne hi] at hx
        exact hs.queued i x hx
  · unfold laneQueue
    show (match s.hashCache k with | some i => _ | none => _) = _
    cases hk : s.hashCache k with
    | none =>
      have hne : m.key ≠ k := by
        rintro rfl
        rw [hm] at hk
        cases hk
      simp [hne]
    | some i =>
      by_cases hi : i = tid
      · subst hi
        simp only [ServerState.enqueue, setQueue, update_self, PriorityQueue.ofKey, hpush,
          filter_append, map_append]
        by_cases hmk : m.key = k <;> simp [hmk, eraseId]
      · have hne : m.key ≠ k := by
          rintro rfl
          exact hi (some.inj (hk.symm.trans hm))
        simp [ServerState.enqueue, setQueue, hi, hne]

theorem Routed.enqueueAll (hs : s.Routed) (hk : s.hashCache key = some tid)
    (hms : ∀ m ∈ ms, m.key = key ∧ m.ops ≠ .terminate ∧ m.eraseId = m) :
    (s.enqueueAll tid ms).Routed ∧ (s.enqueueAll tid ms).keyStates = s.keyStates ∧
      ∀ k, (s.enqueueAll tid ms).laneEngine k = s.laneEngine k ∧
        (s.enqueueAll tid ms).laneQueue k = s.laneQueue k ++ if k = key then ms else [] := by
  induction ms generalizing s with
  | nil => exact ⟨hs, rfl, fun k => ⟨rfl, by simp [enqueueAll]⟩⟩
  | cons m ms ih =>
    obtain ⟨hmk, hmo, hme⟩ := hms m mem_cons_self
    have hq := fun k => hs.enqueue (hmk ▸ hk) hmo k
    obtain ⟨hr, hst, hl⟩ := ih (hq key).1 hk fun x hx => hms x (mem_cons_of_mem m hx)
    refine ⟨hr, hst, fun k => ⟨(hl k).1, (hl k).2.trans ?_⟩⟩
    rw [(hq k).2, append_assoc, hmk, hme]
    by_cases h : k = key
    · rw [if_pos h, if_pos h.symm, if_pos h]; rfl
    · rw [if_neg h, if_neg (Ne.symm h), if_neg h]; rfl

theorem Routed.clearCounter (hs : s.Routed) (tid : ℕ) (key : Key) :
    (s.clearCounter tid key).Routed ∧ ∀ k, (s.clearCounter tid key).laneQueue k = s.laneQueue k := by
  have hq := s.queue_clearCounter tid key
  refine ⟨⟨fun i => ?_, fun i m hm => hs.queued i m (hq i ▸ hm), hs.popped, hs.ready⟩, fun k => ?_⟩
  · by_cases hi : i = tid
    · subst hi; simp [ServerState.clearCounter, setQueue, hs.plain i]
    · simp [ServerState.clearCounter, setQueue, hi, hs.plain i]
  · unfold laneQueue
    show (match s.hashCache k with | some i => _ | none => _) = _
    cases s.hashCache k <;> simp only [PriorityQueue.ofKey, hq]

/-- What a handler does outside its key: its messages end up in the lane of the key. -/
theorem Routed.dispatch (hs : s.Routed) (hout : out.Routes key) (h : s.dispatch key out = some s') :
    s'.Routed ∧ s'.keyStates = s.keyStates ∧
      ∀ k, s'.laneEngine k = s.laneEngine k ∧
        s'.laneQueue k = s.laneQueue k ++ if k = key then out.messages else [] := by
  unfold ServerState.dispatch at h
  split at h
  · rename_i hnone
    cases h
    exact ⟨hs, rfl, fun k => ⟨rfl, by rw [hout.thread hnone]; simp⟩⟩
  · obtain ⟨⟨s1, tid⟩, h1, h⟩ := bind_eq_some_iff.mp h
    obtain ⟨hr1, hk1, hst1, hl1⟩ := hs.getThreadID h1
    obtain ⟨hr2, hst2, hl2⟩ := hr1.enqueueAll hk1 hout.messages
    have hlane := fun k => And.intro ((hl2 k).1.trans (hl1 k).2)
      ((hl2 k).2.trans (by rw [(hl1 k).1]))
    split_ifs at h
    · cases h
      obtain ⟨hr3, hl3⟩ := hr2.clearCounter tid key
      exact ⟨hr3, hst2.trans hst1, fun k => ⟨(hlane k).1, (hl3 k).trans (hlane k).2⟩⟩
    · cases h
      exact ⟨hr2, hst2.trans hst1, hlane⟩

/-! ### Engine steps -/

theorem ofKey_of_queue_eq {q' : PriorityQueue α} (h : q.queue = m :: q'.queue) (key : Key) :
    q.ofKey key = (if m.key = key then [m.eraseId] else []) ++ q'.ofKey key := by
  unfold PriorityQueue.ofKey
  rw [h]
  by_cases hk : m.key = key <;> simp [hk]

theorem laneEngine_setEngine {e : EngineThread α} (hk : s.hashCache key = some i)
    (hidle : ∀ k ≠ key, (s.engines i).ofKey k = e.ofKey k) (k : Key) :
    (s.setEngine i e).laneEngine k = if k = key then e.ofKey key else s.laneEngine k := by
  unfold laneEngine
  show (match s.hashCache k with | some i => _ | none => _) = _
  by_cases h : k = key
  · subst h
    simp [hk, setEngine]
  · rw [if_neg h]
    cases hc : s.hashCache k with
    | none => rfl
    | some j =>
      by_cases hj : j = i
      · subst hj
        simpa [setEngine] using (hidle k h).symm
      · simp [setEngine, hj]

theorem Routed.setKey (hs : s.Routed) : (s.setKey key st).Routed :=
  ⟨hs.plain, hs.queued, hs.popped, hs.ready⟩

theorem Routed.setEngine {e : EngineThread α} (hs : s.Routed)
    (hp : ∀ m, e = .popped m → s.hashCache m.key = some i)
    (hr : ∀ m, e = .ready m → s.hashCache m.key = some i) : (s.setEngine i e).Routed := by
  refine ⟨hs.plain, hs.queued, fun j m hm => ?_, fun j m hm => ?_⟩
  · by_cases hj : j = i
    · subst hj
      exact hp m (by simpa [ServerState.setEngine] using hm)
    · exact hs.popped j m (by simpa [ServerState.setEngine, hj] using hm)
  · by_cases hj : j = i
    · subst hj
      exact hr m (by simpa [ServerState.setEngine] using hm)
    · exact hs.ready j m (by simpa [ServerState.setEngine, hj] using hm)

/-- An engine pops the first message of some key. -/
theorem Routed.pop (hs : s.Routed) (hpop : (s.queues i).waitAndPop = some (m, q)) :
    (s.setQueue i q).Routed ∧ ∀ k, s.laneQueue k =
      (if m.key = k then [m.eraseId] else []) ++ (s.setQueue i q).laneQueue k := by
  obtain ⟨hq, hplain⟩ := PriorityQueue.waitAndPop_of_not_schedule (hs.plain i) hpop
  have hm := (hs.queued i m (hq ▸ mem_cons_self)).1
  refine ⟨⟨fun j => ?_, fun j x hx => ?_, hs.popped, hs.ready⟩, fun k => ?_⟩
  · by_cases hj : j = i
    · subst hj; simpa [setQueue] using hplain
    · simpa [setQueue, hj] using hs.plain j
  · by_cases hj : j = i
    · subst hj
      simp only [setQueue, update_self] at hx
      exact hs.queued j x (hq ▸ mem_cons_of_mem m hx)
    · simp only [setQueue, update_of_ne hj] at hx
      exact hs.queued j x hx
  · unfold laneQueue setQueue
    cases hk : s.hashCache k with
    | none =>
      have hne : m.key ≠ k := by
        rintro rfl
        rw [hm] at hk
        cases hk
      simp [hne]
    | some j =>
      by_cases hj : j = i
      · subst hj
        simpa using ofKey_of_queue_eq hq k
      · have hne : m.key ≠ k := by
          rintro rfl
          exact hj (some.inj (hk.symm.trans hm))
        simp [hj, hne]

theorem handle_cases [Add α] [Zero α] {cfg : Config} (hkeys : data.keys = [encodeKey cfg key])
    (htype : depairDataHandleType req.cmd = some type) (h : s.handle cfg req data = some (s', rs)) :
    ∃ out, handleKey cfg key type (s.keyStates key) req data = some out ∧
      (s.setKey key out.state).dispatch key out = some s' ∧ rs = out.responses := by
  unfold handle at h
  rw [hkeys] at h
  simp only [htype, decodeKey_encodeKey, bind_eq_bind, bind_some] at h
  obtain ⟨out, ho, h⟩ := bind_eq_some_iff.mp h
  obtain ⟨s2, h2, h⟩ := bind_eq_some_iff.mp h
  cases h
  exact ⟨out, ho, h2, rfl⟩

/-- What a turn of an engine does to the server. -/
theorem engineStep_cases [Add α] {cfg : Config} {executed : Option (EngineMessage α)}
    (h : s.engineStep cfg i = some (s', executed, rs)) :
    (∃ m q, s.engines i = .waiting ∧ (s.queues i).waitAndPop = some (m, q) ∧
      s' = (s.setQueue i q).setEngine i (if m.ops = .terminate then .stopped else .popped m) ∧
      executed = none ∧ rs = []) ∨
    (∃ m st m', s.engines i = .popped m ∧ preprocess (s.keyStates m.key) m = some (st, m') ∧
      s' = (s.setKey m.key st).setEngine i (.ready m') ∧ executed = none ∧ rs = []) ∨
    (∃ m st, s.engines i = .ready m ∧ execute cfg (s.keyStates m.key) m = some (st, rs) ∧
      s' = (s.setKey m.key st).setEngine i .waiting ∧ executed = some m) := by
  unfold engineStep at h
  split at h
  · rename_i he
    obtain ⟨⟨m, q⟩, hpop, h⟩ := bind_eq_some_iff.mp h
    cases h
    exact .inl ⟨m, q, he, hpop, rfl, rfl, rfl⟩
  · rename_i m he
    obtain ⟨⟨st, m'⟩, hpre, h⟩ := bind_eq_some_iff.mp h
    cases h
    exact .inr (.inl ⟨m, st, m', he, hpre, rfl, rfl, rfl⟩)
  · rename_i m he
    obtain ⟨⟨st, rs'⟩, hex, h⟩ := bind_eq_some_iff.mp h
    cases h
    exact .inr (.inr ⟨m, st, he, hex, rfl, rfl⟩)
  · cases h

end ServerState

/-! ## Jobs refine their lanes -/

section Refine

variable [Add α] [Zero α] {cfg : Config} {groups : Key → KeyGroup α}

/-- An engine step that works on the lane of one key and leaves the others alone. -/
def Job.WorksOn (cfg : Config) (groups : Key → KeyGroup α) (s t : Job α C) (k : Key) : Prop :=
  (s.lane k).work cfg (groups k) = some (t.lane k) ∧ ∀ key ≠ k, t.lane key = s.lane key

/-- How a step of a job shows in the lane of a key: not at all, or as a step of that lane. -/
def Job.Shows (cfg : Config) (groups : Key → KeyGroup α) (s t : Job α C) (a : Action) (key : Key) :
    Prop :=
  t.lane key = s.lane key ∨
  (∃ w, a = .request key w ∧ (s.lane key).request cfg (groups key) key w = some (t.lane key)) ∨
  (∃ i, a = .engine i ∧ s.server.hashCache key = some i ∧
    (s.lane key).work cfg (groups key) = some (t.lane key))

variable {k : Key} {t : Job α C}

omit [Add α] [Zero α] in
theorem filter_key_map (es : List (Event α)) :
    ((es.map fun e => (k, e)).filter (·.1 = key)).map (·.2) = if k = key then es else [] := by
  rw [List.filter_map, List.map_map]
  by_cases h : k = key
  · rw [if_pos h, filter_eq_self.mpr (by simp [h])]
    exact map_id es
  · rw [if_neg h, filter_eq_nil_iff.mpr (by simp [h])]
    rfl

section

variable {s : Job α C} (hs : s.server.Routed) (h : s.step cfg groups (.request k w) = some t)
include hs h

omit hs in
/-- What a request of a worker does to the job. -/
theorem Job.request_cases : w ∈ (groups k).workers ∧ (s.clients k w).waiting = false ∧ ∃ out,
    handleKey cfg k ((s.clients k w).stage.type (groups k)) (s.server.keyStates k)
      ((s.clients k w).stage.reqMeta (groups k) w)
      ((s.clients k w).stage.data cfg (groups k) k w) = some out ∧
    (s.server.setKey k out.state).dispatch k out = some t.server ∧
    t.clients = update s.clients k (deliver (groups k) (update (s.clients k) w
      ⟨(s.clients k w).stage, true⟩) out.responses) ∧
    t.trace = s.trace ++ out.responses.map fun r => (k, .response r) := by
  unfold step at h
  dsimp only at h
  split_ifs at h with hw
  obtain ⟨⟨server, rs⟩, hh, h⟩ := bind_eq_some_iff.mp h
  cases h
  obtain ⟨out, ho, hd, rfl⟩ :=
    handle_cases (Stage.keys_data ..) (Stage.depair_cmd ..) hh
  exact ⟨hw.1, hw.2, out, ho, hd, rfl, rfl⟩

theorem request_works : t.server.Routed ∧ (s.lane k).request cfg (groups k) k w = some (t.lane k) ∧
      ∀ key ≠ k, t.lane key = s.lane key := by
  obtain ⟨hw, hwait, out, ho, hd, hc, ht⟩ := request_cases h
  obtain ⟨hr, hst, hl⟩ := hs.setKey.dispatch (routes_handleKey ho) hd
  have htrace : out.responses.map (fun r => (k, Event.response r)) =
      (out.responses.map .response).map fun e => (k, e) := by simp
  refine ⟨hr, Lane.request_cases.mpr ⟨hw, hwait, out, ho, ?_⟩, fun key hk => ?_⟩
  · ext1
    · simp [lane, Lane.afterRequest, hst, setKey]
    · exact (hl k).1.symm
    · exact ((hl k).2.trans (by rw [if_pos rfl]; rfl)).symm
    · simp [lane, Lane.afterRequest, hc]
    · simp only [Lane.afterRequest]
      simp only [lane, ht, htrace, filter_append, map_append, filter_key_map, if_true]
  · ext1
    · simp [lane, hst, setKey, hk]
    · exact (hl key).1
    · exact (hl key).2.trans (by rw [if_neg hk, append_nil]; rfl)
    · simp [lane, hc, hk]
    · simp only [lane, ht, htrace, filter_append, map_append, filter_key_map,
        if_neg (Ne.symm hk), append_nil]

theorem request_shows (key : Key) : t.server.Routed ∧ s.Shows cfg groups t (.request k w) key := by
  obtain ⟨ht, hreq, hother⟩ := request_works hs h
  refine ⟨ht, ?_⟩
  by_cases hkey : key = k
  · subst hkey
    exact .inr (.inl ⟨w, rfl, hreq⟩)
  · exact .inl (hother key hkey)

end

omit [Add α] [Zero α] in
theorem laneEngine_of_hashCache (h : s.hashCache key = some i) :
    s.laneEngine key = (s.engines i).ofKey key := by
  simp [laneEngine, h]

section

omit [Zero α]

theorem pop_works {s : Job α C} (hs : s.server.Routed) (hw : s.server.engines i = .waiting)
    (hpop : (s.server.queues i).waitAndPop = some (m, q))
    (hkey : s.server.hashCache m.key = some i) :
    s.WorksOn cfg groups ⟨(s.server.setQueue i q).setEngine i (.popped m), s.clients, s.trace⟩
      m.key := by
  have hq := (hs.pop hpop).2
  have hidle : ∀ k ≠ m.key, ((s.server.setQueue i q).engines i).ofKey k =
      (popped m).ofKey k := fun k hk => by
    simp [setQueue, hw, ofKey, Ne.symm hk]
  have he := laneEngine_setEngine (s := s.server.setQueue i q) hkey hidle
  constructor
  · have hwait : (s.lane m.key).engine = .waiting :=
      (laneEngine_of_hashCache hkey).trans (by simp [hw, ofKey])
    unfold Lane.work
    rw [hwait]
    show (match s.server.laneQueue m.key with | [] => _ | m :: queue => _) = _
    rw [hq, if_pos rfl]
    refine congrArg some (Lane.ext rfl ?_ rfl rfl rfl)
    exact ((he m.key).trans (by simp [ofKey])).symm
  · intro key hk
    refine Lane.ext rfl ((he key).trans (if_neg hk)) ?_ rfl rfl
    have hqueue := hq key
    rw [if_neg (Ne.symm hk), nil_append] at hqueue
    exact hqueue.symm

theorem preprocess_works {s : Job α C} {m' : EngineMessage α} (hp : s.server.engines i = .popped m)
    (hpre : preprocess (s.server.keyStates m.key) m = some (st, m'))
    (hkey : s.server.hashCache m.key = some i) :
    s.WorksOn cfg groups ⟨(s.server.setKey m.key st).setEngine i (.ready m'), s.clients, s.trace⟩
      m.key := by
  have hmk := (preprocess_spec hpre).1
  have hidle : ∀ k ≠ m.key, ((s.server.setKey m.key st).engines i).ofKey k =
      (ready m').ofKey k := fun k hk => by
    simp [setKey, hp, ofKey, hmk, Ne.symm hk]
  have he := laneEngine_setEngine (s := s.server.setKey m.key st) hkey hidle
  constructor
  · have hpop : (s.lane m.key).engine = .popped m.eraseId :=
      (laneEngine_of_hashCache hkey).trans (by simp [hp, ofKey])
    unfold Lane.work
    rw [hpop]
    show (preprocess (s.server.keyStates m.key) m.eraseId).bind _ = _
    rw [preprocess_eraseId, hpre]
    refine congrArg some (Lane.ext ?_ ?_ rfl rfl rfl)
    · simp [lane, setKey, setEngine]
    · exact ((he m.key).trans (by simp [ofKey, hmk])).symm
  · intro key hk
    refine Lane.ext ?_ ((he key).trans (if_neg hk)) rfl rfl rfl
    simp [lane, setKey, setEngine, hk]

theorem execute_works {s : Job α C} (hr : s.server.engines i = .ready m)
    (hex : execute cfg (s.server.keyStates m.key) m = some (st, rs))
    (hkey : s.server.hashCache m.key = some i) :
    s.WorksOn cfg groups
      ⟨(s.server.setKey m.key st).setEngine i .waiting,
        update s.clients m.key (deliver (groups m.key) (s.clients m.key) rs),
        s.trace ++ (executedEvents m rs).map fun e => (m.key, e)⟩ m.key := by
  have hidle : ∀ k ≠ m.key, ((s.server.setKey m.key st).engines i).ofKey k =
      ofKey k .waiting := fun k hk => by
    simp [setKey, hr, ofKey, Ne.symm hk]
  have he := laneEngine_setEngine (s := s.server.setKey m.key st) hkey hidle
  constructor
  · have hready : (s.lane m.key).engine = .ready m.eraseId :=
      (laneEngine_of_hashCache hkey).trans (by simp [hr, ofKey])
    unfold Lane.work
    rw [hready]
    show (execute cfg (s.server.keyStates m.key) m.eraseId).bind _ = _
    rw [execute_eraseId, hex]
    refine congrArg some (Lane.ext ?_ ?_ rfl ?_ ?_)
    · simp [lane, setKey, setEngine]
    · exact ((he m.key).trans (by simp [ofKey])).symm
    · simp [lane]
    · simp only [lane, filter_append, map_append, filter_key_map, if_true]
      rfl
  · intro key hk
    refine Lane.ext ?_ ((he key).trans (if_neg hk)) rfl ?_ ?_
    · simp [lane, setKey, setEngine, hk]
    · simp [lane, hk]
    · simp only [lane, filter_append, map_append, filter_key_map,
        if_neg (Ne.symm hk), append_nil]

end

section

variable {s : Job α C} (hs : s.server.Routed) (h : s.step cfg groups (.engine i) = some t)
include hs h

theorem engine_works :
    t.server.Routed ∧ ∃ k, s.server.hashCache k = some i ∧ s.WorksOn cfg groups t k := by
  obtain ⟨⟨server, executed, rs⟩, he, h⟩ := bind_eq_some_iff.mp h
  rcases engineStep_cases he with ⟨m, q, hw, hpop, rfl, rfl, rfl⟩ |
    ⟨m, st, m', hp, hpre, rfl, rfl, rfl⟩ | ⟨m, st, hr, hex, rfl, rfl⟩
  · cases h
    have hq := (PriorityQueue.waitAndPop_of_not_schedule (hs.plain i) hpop).1
    obtain ⟨hkey, hterm⟩ := hs.queued i m (hq ▸ mem_cons_self)
    simp only [if_neg hterm]
    refine ⟨(hs.pop hpop).1.setEngine ?_ (fun _ h => by cases h), m.key, hkey,
      pop_works hs hw hpop hkey⟩
    rintro _ ⟨⟩
    exact hkey
  · cases h
    have hkey := hs.popped i m hp
    refine ⟨hs.setKey.setEngine (fun _ h => by cases h) ?_, m.key, hkey, preprocess_works hp hpre hkey⟩
    rintro _ ⟨⟩
    rw [(preprocess_spec hpre).1]
    exact hkey
  · cases h
    have hkey := hs.ready i m hr
    exact ⟨hs.setKey.setEngine (fun _ h => by cases h) (fun _ h => by cases h), m.key, hkey,
      execute_works hr hex hkey⟩

theorem engine_shows (key : Key) : t.server.Routed ∧ s.Shows cfg groups t (.engine i) key := by
  obtain ⟨ht, k, hk, hwork, hother⟩ := engine_works hs h
  refine ⟨ht, ?_⟩
  by_cases hkey : key = k
  · subst hkey
    exact .inr (.inr ⟨i, rfl, hk, hwork⟩)
  · exact .inl (hother key hkey)

end

/-- Every step of a job is a step of one lane and leaves the other lanes as they are. -/
theorem lane_step {s : Job α C} {a : Action} (hs : s.server.Routed)
    (h : s.step cfg groups a = some t) (key : Key) :
    t.server.Routed ∧ s.Shows cfg groups t a key := by
  cases a with
  | request k w => exact request_shows hs h key
  | engine i => exact engine_shows hs h key

omit [Add α] [Zero α] in
theorem routed_start (hcfg : cfg.enableSchedule = false) :
    (ServerState.start cfg : ServerState α C).Routed where
  plain _ := hcfg
  queued _ _ h := by simp [start] at h
  popped _ _ h := by cases h
  ready _ _ h := by cases h

/-- A job refines the protocol of each of its keys. A guard on the steps of the job may be used
as a guard on the steps of the lane. -/
theorem reach_lane (hcfg : cfg.enableSchedule = false) {G : Job α C → Action → Prop}
    {H : Lane α C → LaneAction → Prop}
    (hreq : ∀ s w, G s (.request key w) → H (s.lane key) (.request w))
    (heng : ∀ s i, s.server.hashCache key = some i → G s (.engine i) → H (s.lane key) .engine)
    {s : Job α C} (h : Reach (jobs cfg C groups) G s) :
    Reach (lanes cfg C (groups key) key) H (s.lane key) := by
  have hsim := h.simulate (T := lanes cfg C (groups key) key) (H := H)
    (R := fun s l => s.server.Routed ∧ l = s.lane key) ?_ ?_
  · obtain ⟨l, hl, -, rfl⟩ := hsim
    exact hl
  · rintro s rfl
    exact ⟨_, rfl, routed_start hcfg, rfl⟩
  · rintro s a t l ⟨hs, rfl⟩ hg hstep
    obtain ⟨ht, hshow⟩ := lane_step hs hstep key
    rcases hshow with heq | ⟨w, rfl, hreq'⟩ | ⟨i, rfl, hk, hwork⟩
    · exact .inl ⟨ht, heq.symm⟩
    · exact .inr ⟨.request w, _, hreq s w hg, hreq', ht, rfl⟩
    · exact .inr ⟨.engine, _, heng s i hk hg, hwork, ht, rfl⟩

end Refine

end MegatronDPU.Server
