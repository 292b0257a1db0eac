import MegatronDPU.Server.Handler
import MegatronDPU.Server.Queue

/-!
# The engine threads and the server

An engine thread takes a message from its queue, prepares it (`preprocess`: it reads the
compressor of the key and, for `ALL_RECV`, points the merged buffer at the result) and then
executes it (`execute`). Other threads can act between these three steps.

The server is the state of all keys, the assignment of keys to threads, and the queues and threads
themselves. `ServerState.handle` is a call of the handler, `ServerState.engineStep` one
step of a thread.
-/

namespace MegatronDPU.Server

open List

variable {α : Type} {C : CompressorClass α}

/-! ## One message -/

/-- The message after its source was looked up: pushed data is read from the request it came
with. -/
def resolveSrc (m : EngineMessage α) : EngineMessage α :=
  match m.ops, m.sarray.vals with
  | .copyFirst, .cells (x :: xs) => { m with src := .buffer (x :: xs) }
  | .sumRecv, .cells (x :: xs) => { m with src := .buffer (x :: xs) }
  | _, _ => m

/-- The checks and the decompression before the switch. -/
def preprocess (st : KeyState α C) (m : EngineMessage α) :
    Option (KeyState α C × EngineMessage α) :=
  if m.dst.isNull ∨ m.src.isNull then none
  else
    let m := resolveSrc m
    match st.compressor, m.ops with
    | none, .allRecv =>
      some ({ st with merged := { st.merged with tensor := m.src, len := m.len } }, m)
    | none, _ => some (st, m)
    | some c, .allRecv => do
      let grad ← st.deref m.src
      let r := C.compress c (grad.take m.len) m.type.dtype
      some ({ st with
        merged := { st.merged with tensor := .buffer r.1, len := r.1.length }
        compressor := some r.2 }, m)
    | some c, _ =>
      match m.sarray.lens with
      | compressedLen :: _ =>
        if compressedLen ≤ m.len then do
          let compressed ← st.deref m.src
          let r := C.decompress c (compressed.take compressedLen) m.type.dtype
          some ({ st with compressor := some r.2 }, { m with src := .buffer r.1 })
        else none
      | [] => none

/-- The loop of `ALL_RECV` over the queued pulls; `kept` are the ones it has passed over. -/
def drain (cfg : Config) (key : Key) (st : KeyState α C) (kept : List KVMeta) :
    List KVMeta → Option (KeyState α C × List (Response α))
  | [] => some ({ st with qPullReqmeta := kept }, [])
  | req :: rest =>
    if req.sender ∈ st.seenSender then
      if st.pullCnt = st.getExpectedWorkers cfg then
        some ({ st with isPushFinished := false, pullCnt := 0, seenSender := ∅,
                        qPullReqmeta := kept ++ req :: rest }, [])
      else drain cfg key st (kept ++ [req]) rest
    else do
      let (st, r) ← sendPullResponse cfg key st req
      let full := st.pullCnt + 1 = st.getExpectedWorkers cfg
      let st := countPull cfg st req.sender
      if full then some ({ st with qPullReqmeta := kept ++ rest }, [r])
      else do
        let (st, rs) ← drain cfg key st kept rest
        some (st, r :: rs)

/-- The switch over the operation. -/
def execute [Add α] (cfg : Config) (st : KeyState α C) (m : EngineMessage α) :
    Option (KeyState α C × List (Response α)) :=
  match m.ops with
  | .copyFirst => do
    let stored ← st.store
    let src ← st.deref m.src
    let tensor ← reducerCopy stored.tensor src m.len
    some ({ st with store := some { stored with tensor := tensor } }, [])
  | .sumRecv => do
    let stored ← st.store
    let src ← st.deref m.src
    let tensor ← reducerSum stored.tensor src m.len
    some ({ st with store := some { stored with tensor := tensor } }, [])
  | .allRecv => drain cfg m.key { st with isPushFinished := true } [] st.qPullReqmeta
  | .terminate => none

/-! ## What a message does to the state of its key -/

theorem resolveSrc_fields (m : EngineMessage α) :
    (resolveSrc m).key = m.key ∧ (resolveSrc m).ops = m.ops ∧ (resolveSrc m).dst = m.dst ∧
      (resolveSrc m).len = m.len ∧ (resolveSrc m).type = m.type ∧
      (resolveSrc m).sarray = m.sarray := by
  unfold resolveSrc
  split <;> exact ⟨rfl, rfl, rfl, rfl, rfl, rfl⟩

variable {m : EngineMessage α} {st st' : KeyState α C} {cfg : Config} {rs : List (Response α)}
  {n : ℕ}

theorem preprocess_spec {m' : EngineMessage α} (h : preprocess st m = some (st', m')) :
    m'.key = m.key ∧ m'.ops = m.ops ∧ st'.books = st.books ∧ st'.store = st.store ∧
      m'.dst = m.dst := by
  obtain ⟨hk, ho, hd, -⟩ := resolveSrc_fields m
  unfold preprocess at h
  split_ifs at h
  dsimp only at h
  split at h
  · cases h; exact ⟨hk, ho, rfl, rfl, hd⟩
  · cases h; exact ⟨hk, ho, rfl, rfl, hd⟩
  · obtain ⟨_, -, h⟩ := Option.bind_eq_some_iff.mp h
    cases h; exact ⟨hk, ho, rfl, rfl, hd⟩
  · split at h
    · split_ifs at h
      obtain ⟨_, -, h⟩ := Option.bind_eq_some_iff.mp h
      cases h; exact ⟨hk, ho, rfl, rfl, hd⟩
    · cases h

/-- A push that is executed is copied or added to the store. -/
theorem execute_push_cases [Add α] (h : execute cfg st m = some (st', rs))
    (ho : m.ops = .copyFirst ∨ m.ops = .sumRecv) :
    ∃ stored src tensor, st.store = some stored ∧ st.deref m.src = some src ∧
      (m.ops = .copyFirst → reducerCopy stored.tensor src m.len = some tensor) ∧
      (m.ops = .sumRecv → reducerSum stored.tensor src m.len = some tensor) ∧
      st' = { st with store := some { stored with tensor := tensor } } ∧ rs = [] := by
  unfold execute at h
  rcases ho with ho | ho
  all_goals
    rw [ho] at h
    obtain ⟨stored, hs, h⟩ := Option.bind_eq_some_iff.mp h
    obtain ⟨src, hsrc, h⟩ := Option.bind_eq_some_iff.mp h
    obtain ⟨tensor, ht, h⟩ := Option.bind_eq_some_iff.mp h
    cases h
    exact ⟨stored, src, tensor, hs, hsrc, by simp [ho, ht], by simp [ho, ht], rfl, rfl⟩

theorem books_execute [Add α] (h : execute cfg st m = some (st', rs))
    (ho : m.ops = .copyFirst ∨ m.ops = .sumRecv) : st'.books = st.books ∧ rs = [] := by
  obtain ⟨stored, src, tensor, hs, -, -, -, rfl, rfl⟩ := execute_push_cases h ho
  exact ⟨by simp [KeyState.books, hs], rfl⟩

/-- The bookkeeping after a list of senders was answered from the queue. -/
def Bookkeeping.drain (b : Bookkeeping) (n : ℕ) (senders : List ℕ) : Bookkeeping :=
  if senders ≠ [] ∧ b.pullCnt + senders.length = n then
    { b with isPushFinished := false, pullCnt := 0, seenSender := ∅, qPullReqmeta := [] }
  else
    { b with pullCnt := b.pullCnt + senders.length,
             seenSender := b.seenSender ∪ senders.toFinset, qPullReqmeta := [] }

theorem Bookkeeping.drain_countPull (b : Bookkeeping) (sender : ℕ) (senders : List ℕ)
    (h : b.pullCnt + 1 ≠ n) :
    (b.countPull n sender).drain n senders = b.drain n (sender :: senders) := by
  have hset : insert sender b.seenSender ∪ senders.toFinset =
      b.seenSender ∪ (sender :: senders).toFinset := by
    ext x
    simp only [Finset.mem_union, Finset.mem_insert, mem_toFinset, mem_cons]
    tauto
  have hcnt : b.pullCnt + 1 + senders.length = b.pullCnt + (sender :: senders).length := by
    rw [length_cons]; omega
  unfold Bookkeeping.drain Bookkeeping.countPull
  rw [if_neg h]
  rw [hset, hcnt]
  cases senders with
  | nil => rw [if_neg (by simp), if_neg (by simpa using h)]
  | cons v vs => simp only [ne_eq, reduceCtorEq, not_false_eq_true, true_and]

theorem Bookkeeping.drain_singleton (b : Bookkeeping) (sender : ℕ) (h : b.pullCnt + 1 = n) :
    { b.countPull n sender with qPullReqmeta := [] } = b.drain n [sender] := by
  unfold Bookkeeping.drain Bookkeeping.countPull
  rw [if_pos h, if_pos ⟨by simp, h⟩]

/-- Draining a queue of different senders that were not seen yet answers all of them, with the
current data. -/
theorem drain_spec {key : Key} {reqs : List KVMeta}
    (h : drain cfg key st [] reqs = some (st', rs)) (hn : st.books.expectedWorkers = n)
    (hnd : (reqs.map (·.sender)).Nodup) (hseen : ∀ req ∈ reqs, req.sender ∉ st.seenSender)
    (hle : st.pullCnt + reqs.length ≤ n) :
    rs.map (·.reqMeta) = reqs ∧ st'.contents = st.contents ∧
      st'.books = st.books.drain n (reqs.map (·.sender)) ∧
      ∀ r ∈ rs, ∃ data, pullData cfg st = some data ∧ r.kvs.vals = .cells data := by
  induction reqs generalizing st rs with
  | nil =>
    cases h
    simp [Bookkeeping.drain, KeyState.books, KeyState.contents]
  | cons req reqs ih =>
    rw [drain, if_neg (hseen req mem_cons_self)] at h
    obtain ⟨⟨st1, r⟩, hr, h⟩ := Option.bind_eq_some_iff.mp h
    obtain ⟨hb, hc, hreq, data, hd, hv⟩ := sendPullResponse_spec hr
    have hcnt : st1.pullCnt = st.pullCnt := congrArg Bookkeeping.pullCnt hb
    have hn1 : st1.books.expectedWorkers = n := hb ▸ hn
    have hb2 := books_countPull cfg hn1 req.sender
    have hc2 : (countPull cfg st1 req.sender).contents = st.contents :=
      (contents_countPull cfg st1 req.sender).trans hc
    rw [hb] at hb2
    rw [map_cons, nodup_cons] at hnd
    simp only [getExpectedWorkers_of_books cfg hn1, hcnt, nil_append] at h
    rw [length_cons] at hle
    by_cases hfull : st.pullCnt + 1 = n
    · -- the round is over, and nobody else can be queued
      rw [if_pos hfull] at h
      obtain rfl : reqs = [] := length_eq_zero_iff.mp (by omega)
      cases h
      refine ⟨by simp [hreq], hc2, ?_, by simpa using ⟨data, hd, hv⟩⟩
      show ({ (countPull cfg st1 req.sender).books with qPullReqmeta := [] } : Bookkeeping) = _
      rw [hb2]
      exact st.books.drain_singleton req.sender hfull
    · rw [if_neg hfull] at h
      obtain ⟨⟨st2, rs2⟩, hrest, h⟩ := Option.bind_eq_some_iff.mp h
      cases h
      have hcp : st.books.countPull n req.sender =
          { st.books with pullCnt := st.pullCnt + 1, seenSender := insert req.sender st.seenSender } :=
        if_neg hfull
      have hseen2 : (countPull cfg st1 req.sender).seenSender = insert req.sender st.seenSender :=
        congrArg Bookkeeping.seenSender (hb2.trans hcp)
      have hcnt2 : (countPull cfg st1 req.sender).pullCnt = st.pullCnt + 1 :=
        congrArg Bookkeeping.pullCnt (hb2.trans hcp)
      have hseen3 : ∀ x ∈ reqs, x.sender ∉ (countPull cfg st1 req.sender).seenSender := by
        intro x hx
        rw [hseen2, Finset.mem_insert, not_or]
        refine ⟨fun heq => hnd.1 ?_, hseen x (mem_cons_of_mem req hx)⟩
        exact heq ▸ mem_map_of_mem hx
      obtain ⟨hm, hc3, hb3, hrs⟩ := ih hrest (hb2 ▸ hcp ▸ hn) hnd.2 hseen3 (by omega)
      refine ⟨by simp [hreq, hm], hc3.trans hc2, ?_, fun x hx => ?_⟩
      · rw [hb3, hb2, map_cons]
        exact st.books.drain_countPull req.sender _ hfull
      · rcases mem_cons.mp hx with rfl | hx
        · exact ⟨data, hd, hv⟩
        · rw [← pullData_congr cfg hc2]
          exact hrs x hx

/-! ## The server -/

/-- An engine thread waits, or has a message before or after decompression. -/
inductive EngineThread (α : Type)
  | waiting
  | popped (m : EngineMessage α)
  | ready (m : EngineMessage α)
  | stopped

/-- The state of the server process. -/
structure ServerState (α : Type) (C : CompressorClass α) where
  keyStates : Key → KeyState α C := fun _ => {}
  hashCache : Key → Option ℕ := fun _ => none
  accLoad : List ℕ
  timestamp : ℕ := 0
  queues : ℕ → PriorityQueue α
  engines : ℕ → EngineThread α := fun _ => .waiting

/-- The loop of `GetThreadID`: the first thread of least load, from position `i` on. -/
def leastLoad (minLoad : ℕ) (minIndex : Option ℕ) (i : ℕ) : List ℕ → Option ℕ
  | [] => minIndex
  | load :: loads =>
    if load < minLoad then leastLoad load (some i) (i + 1) loads
    else leastLoad minLoad minIndex (i + 1) loads

namespace ServerState

/-- The server before the first request. -/
def start (cfg : Config) : ServerState α C where
  accLoad := List.replicate cfg.engineThreadNum 0
  queues := fun _ => { enableSchedule := cfg.enableSchedule }

/-- `GetThreadID`: the thread of a key, chosen when it is first pushed to. -/
def getThreadID (s : ServerState α C) (key : Key) (len : ℕ) : Option (ServerState α C × ℕ) :=
  match s.hashCache key with
  | some tid => some (s, tid)
  | none =>
    if len = 0 then none
    else do
      let tid ← leastLoad (2 ^ 64 - 1) none 0 s.accLoad
      some ({ s with
        accLoad := s.accLoad.modify tid fun load => (load + len) % 2 ^ 64
        hashCache := Function.update s.hashCache key (some tid) }, tid)

def setQueue (s : ServerState α C) (i : ℕ) (q : PriorityQueue α) : ServerState α C :=
  { s with queues := Function.update s.queues i q }

/-- Puts a message on a queue, with the next id. -/
def enqueue (s : ServerState α C) (tid : ℕ) (m : EngineMessage α) : ServerState α C :=
  { s.setQueue tid ((s.queues tid).push { m with id := s.timestamp }) with
    timestamp := s.timestamp + 1 }

def enqueueAll (s : ServerState α C) (tid : ℕ) (ms : List (EngineMessage α)) : ServerState α C :=
  ms.foldl (fun s m => s.enqueue tid m) s

/-- `ClearCounter` on the queue of a thread. -/
def clearCounter (s : ServerState α C) (tid : ℕ) (key : Key) : ServerState α C :=
  s.setQueue tid ((s.queues tid).clearCounter key)

def setKey (s : ServerState α C) (key : Key) (st : KeyState α C) : ServerState α C :=
  { s with keyStates := Function.update s.keyStates key st }

def setEngine (s : ServerState α C) (i : ℕ) (e : EngineThread α) : ServerState α C :=
  { s with engines := Function.update s.engines i e }

/-- Sends the messages of a request to the thread of its key. -/
def dispatch (s : ServerState α C) (key : Key) (out : Outcome α C) : Option (ServerState α C) :=
  match out.thread with
  | none => some s
  | some len => do
    let (s, tid) ← s.getThreadID key len
    let s := s.enqueueAll tid out.messages
    some (if out.clear then s.clearCounter tid key else s)

/-- A call of `BytePSHandler`. -/
def handle [Add α] [Zero α] (cfg : Config) (s : ServerState α C) (req : KVMeta) (data : KVPairs α) :
    Option (ServerState α C × List (Response α)) :=
  match data.keys with
  | [k] => do
    let type ← depairDataHandleType req.cmd
    let key := decodeKey cfg k
    let out ← handleKey cfg key type (s.keyStates key) req data
    let s ← (s.setKey key out.state).dispatch key out
    some (s, out.responses)
  | _ => none

/-- One step of engine thread `i`; the message is returned where one is executed. -/
def engineStep [Add α] (cfg : Config) (s : ServerState α C) (i : ℕ) :
    Option (ServerState α C × Option (EngineMessage α) × List (Response α)) :=
  match s.engines i with
  | .waiting => do
    let (m, q) ← (s.queues i).waitAndPop
    some ((s.setQueue i q).setEngine i (if m.ops = .terminate then .stopped else .popped m), none, [])
  | .popped m => do
    let (st, m') ← preprocess (s.keyStates m.key) m
    some ((s.setKey m.key st).setEngine i (.ready m'), none, [])
  | .ready m => do
    let (st, rs) ← execute cfg (s.keyStates m.key) m
    some ((s.setKey m.key st).setEngine i .waiting, some m, rs)
  | .stopped => none

end ServerState

end MegatronDPU.Server
