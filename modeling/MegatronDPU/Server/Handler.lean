import MegatronDPU.Server.State

/-!
# The request handler

`BytePSHandler` on the state of one key. The handler holds the lock of the key for its whole
body, so it is one step there; what it does outside the state of its key (finding the engine
thread, queueing messages, clearing the counter) is returned in its `Outcome`.
-/

namespace MegatronDPU.Server

variable {α : Type} {C : CompressorClass α}

/-- What the handler makes of a request. -/
structure Outcome (α : Type) (C : CompressorClass α) where
  state : KeyState α C
  responses : List (Response α) := []
  /-- Messages for the engine thread of the key, before they get their ids. -/
  messages : List (EngineMessage α) := []
  /-- The length `GetThreadID` is called with, if it is. -/
  thread : Option ℕ := none
  /-- `ClearCounter` follows the last message. -/
  clear : Bool := false

/-- The branch of `kGroupRegister`. -/
def handleGroupRegister (st : KeyState α C) (req : KVMeta) (data : KVPairs α) :
    Option (Outcome α C) :=
  match data.vals with
  | .int expectedWorkers =>
    if req.push ∧ data.lens = [sizeofInt] ∧ 0 < expectedWorkers then do
      let st ← st.registerExpectedWorkers expectedWorkers
      let r := sendPushResponse st req
      some { state := r.1, responses := [r.2] }
    else none
  | _ => none

/-- Buffers a request and, once all expected workers have sent one, runs `ready` and answers them
all: the common end of the two setup branches. -/
def collect (cfg : Config) (st : KeyState α C) (req : KVMeta)
    (ready : KeyState α C → KeyState α C) : Outcome α C :=
  let st := { st with request := st.request ++ [req] }
  if st.request.length < st.getExpectedWorkers cfg then { state := st }
  else
    let r := sendPushResponses (ready st) st.request
    { state := { r.1 with request := [] }, responses := r.2 }

/-- The branch of `kCompressedPushPull`: the first request creates the compressor. -/
def handleCompressed (cfg : Config) (st : KeyState α C) (req : KVMeta) (data : KVPairs α) :
    Option (Outcome α C) :=
  match st.compressor with
  | some _ => some (collect cfg st req id)
  | none =>
    match data.vals, data.lens with
    | .text content, len :: _ => do
      let storeLen := (st.store.map (·.tensor.length)).getD 0
      let storeDtype := (st.store.map (·.dtype)).getD 0
      let compressor ← C.create (content.take len) storeLen storeDtype
      some (collect cfg { st with compressor := some compressor } req id)
    | _, _ => none

/-- The first pushes of a key: the store is allocated once all workers have sent one. -/
def handleInitPush [Zero α] (cfg : Config) (type : DataHandleType) (st : KeyState α C)
    (req : KVMeta) (len : ℕ) : Outcome α C :=
  let st := if cfg.syncMode then
    { st with merged := { st.merged with len := len, dtype := type.dtype } } else st
  collect cfg st req fun st => { st with store := some ⟨List.replicate len 0, type.dtype⟩ }

/-- The message for a push. -/
def pushMessage (key : Key) (type : DataHandleType) (stored : Store α) (ops : EngineOp)
    (src : Pointer α) (sarray : KVPairs α) (req : Option KVMeta) : EngineMessage α where
  id := 0
  type := type
  key := key
  dst := .store
  src := src
  len := stored.tensor.length
  ops := ops
  sarray := sarray
  reqMeta := req

/-- Blocking mode sums a push into the merged buffer within the handler. -/
def sumIntoMerged [Add α] (st : KeyState α C) (recved : List α) (len : ℕ) : Option (KeyState α C) :=
  -- the loop over an empty push touches neither buffer
  if len = 0 then some st
  else do
    let merged ← st.deref st.merged.tensor
    let sum ← reducerSum merged recved len
    match st.merged.tensor, st.store with
    | .store, some stored => some { st with store := some { stored with tensor := sum } }
    | .buffer _, _ => some { st with merged := { st.merged with tensor := .buffer sum } }
    | _, _ => none

/-- What a push does with its data: the first one of a round is copied, the others are added. -/
def acceptPush [Add α] (cfg : Config) (key : Key) (type : DataHandleType) (st : KeyState α C)
    (stored : Store α) (req : KVMeta) (data : KVPairs α) (recved : List α) (len : ℕ) :
    Option (KeyState α C × List (EngineMessage α)) :=
  let message := fun ops => pushMessage key type stored ops (.buffer recved) data (some req)
  if st.request = [] then
    if cfg.syncMode then some (st, [message .copyFirst])
    else do
      let sum ← reducerSum stored.tensor recved len
      some ({ st with store := some { stored with tensor := sum } }, [])
  else if cfg.syncMode then
    if cfg.isEngineBlocking then do
      let st ← sumIntoMerged st recved len
      some (st, [])
    else some (st, [message .sumRecv])
  else none

/-- The last push of a round: `ALL_RECV`, or the copy that a blocking engine makes. -/
def finishPushes (cfg : Config) (key : Key) (type : DataHandleType) (st : KeyState α C)
    (stored : Store α) (len : ℕ) : Option (KeyState α C × List (EngineMessage α)) :=
  if cfg.isEngineBlocking then
    if len = 0 then some ({ st with request := [] }, [])
    else do
      let merged ← st.deref st.merged.tensor
      let tensor ← reducerCopy stored.tensor merged len
      some ({ st with store := some { stored with tensor := tensor }, request := [] }, [])
  else
    some ({ st with request := [] }, [pushMessage key type stored .allRecv .store {} none])

/-- A push to a key that has a store. -/
def handlePush [Add α] (cfg : Config) (key : Key) (type : DataHandleType) (st : KeyState α C)
    (stored : Store α) (req : KVMeta) (data : KVPairs α) (recved : List α) (len : ℕ) :
    Option (Outcome α C) := do
  let (st, queued) ← acceptPush cfg key type st stored req data recved len
  let r := sendPushResponse { st with request := st.request ++ [req] } req
  if cfg.syncMode then
    if r.1.request.length = r.1.getExpectedWorkers cfg then do
      let (st, last) ← finishPushes cfg key type r.1 stored len
      some { state := st, responses := [r.2], messages := queued ++ last, thread := some len,
             clear := !cfg.isEngineBlocking }
    else some { state := r.1, responses := [r.2], messages := queued, thread := some len }
  else
    some { state := { r.1 with request := [] }, responses := [r.2], messages := queued,
           thread := some len }

/-- A pull that is answered counts its sender; the last one of a round closes the round. -/
def countPull (cfg : Config) (st : KeyState α C) (sender : ℕ) : KeyState α C :=
  let st := { st with pullCnt := st.pullCnt + 1, seenSender := insert sender st.seenSender }
  if st.pullCnt = st.getExpectedWorkers cfg then
    { st with isPushFinished := false, pullCnt := 0, seenSender := ∅ }
  else st

/-- A pull. -/
def handlePull (cfg : Config) (key : Key) (st : KeyState α C) (req : KVMeta) :
    Option (Outcome α C) :=
  if st.store.isNone then none
  else if cfg.isEngineBlocking ∨ !cfg.syncMode then do
    let (st, r) ← sendPullResponse cfg key st req
    some { state := st, responses := [r] }
  else if st.isPushFinished ∧ req.sender ∉ st.seenSender then do
    let (st, r) ← sendPullResponse cfg key st req
    some { state := countPull cfg st req.sender, responses := [r], thread := some 0 }
  else some { state := { st with qPullReqmeta := st.qPullReqmeta ++ [req] }, thread := some 0 }

/-- `BytePSHandler` on the state of its key. -/
def handleKey [Add α] [Zero α] (cfg : Config) (key : Key) (type : DataHandleType)
    (st : KeyState α C) (req : KVMeta) (data : KVPairs α) : Option (Outcome α C) :=
  match type.requestType with
  | .kGroupRegister => handleGroupRegister st req data
  | .kCompressedPushPull => handleCompressed cfg st req data
  | _ =>
    if req.push then
      match data.vals with
      | .cells recved =>
        if data.lens = [recved.length] then
          match st.store with
          | none => some (handleInitPush cfg type st req recved.length)
          | some stored => handlePush cfg key type st stored req data recved recved.length
        else none
      | _ => none
    else handlePull cfg key st req

/-! ## What the handler does to an initialised key

In the mode `Config.SyncEngine`: data is left to the engine, so a handler changes the bookkeeping
only. -/

section SyncEngine

variable {cfg : Config} {st : KeyState α C} {req : KVMeta} {out : Outcome α C} {n : ℕ}

/-- `countPull` on the bookkeeping of a key with `n` workers. -/
def Bookkeeping.countPull (b : Bookkeeping) (n sender : ℕ) : Bookkeeping :=
  if b.pullCnt + 1 = n then { b with isPushFinished := false, pullCnt := 0, seenSender := ∅ }
  else { b with pullCnt := b.pullCnt + 1, seenSender := insert sender b.seenSender }

theorem books_countPull (cfg : Config) (hn : st.books.expectedWorkers = n) (sender : ℕ) :
    (countPull cfg st sender).books = st.books.countPull n sender := by
  show (if st.pullCnt + 1 = st.getExpectedWorkers cfg then _ else _ : KeyState α C).books = _
  rw [getExpectedWorkers_of_books cfg hn, Bookkeeping.countPull]
  show _ = if st.pullCnt + 1 = n then _ else _
  split_ifs <;> rfl

theorem contents_countPull (cfg : Config) (st : KeyState α C) (sender : ℕ) :
    (countPull cfg st sender).contents = st.contents := by
  unfold countPull
  dsimp only
  split_ifs <;> rfl

variable {key : Key} {type : DataHandleType} {stored : Store α} {data : KVPairs α}
  {recved : List α} {len : ℕ}

theorem acceptPush_engine [Add α] (hsync : cfg.syncMode = true) (hnb : cfg.isEngineBlocking = false) :
    acceptPush cfg key type st stored req data recved len = some (st,
      [pushMessage key type stored (if st.request = [] then .copyFirst else .sumRecv)
        (.buffer recved) data (some req)]) := by
  unfold acceptPush
  rw [hsync, hnb]
  split_ifs <;> simp_all

/-- A push is queued for the engine and answered; the last one of a round also queues
`ALL_RECV`. -/
theorem handlePush_spec [Add α] (hcfg : cfg.SyncEngine) (hn : st.books.expectedWorkers = n)
    (h : handlePush cfg key type st stored req data recved len = some out) :
    out.state.books = { st.books with
      request := if st.request.length + 1 = n then [] else st.request ++ [req] } ∧
    out.state.contents = st.contents ∧ out.responses.map (·.reqMeta) = [req] ∧
    out.messages =
      pushMessage key type stored (if st.request = [] then .copyFirst else .sumRecv)
        (.buffer recved) data (some req) ::
      if st.request.length + 1 = n then [pushMessage key type stored .allRecv .store {} none]
      else [] := by
  unfold handlePush at h
  rw [acceptPush_engine hcfg.sync hcfg.nonBlocking] at h
  simp only [Option.bind_eq_bind, Option.bind_some] at h
  rw [if_pos hcfg.sync] at h
  have hb := books_sendPushResponse { st with request := st.request ++ [req] } req
  have hc := contents_sendPushResponse { st with request := st.request ++ [req] } req
  generalize hr : sendPushResponse { st with request := st.request ++ [req] } req = r at h hb hc
  have hresp : r.2.reqMeta = req := hr ▸ rfl
  have hlen : r.1.request = st.request ++ [req] := congrArg Bookkeeping.request hb
  have he : r.1.getExpectedWorkers cfg = n :=
    getExpectedWorkers_of_books cfg ((congrArg Bookkeeping.expectedWorkers hb).trans hn)
  rw [hlen, he, List.length_append, List.length_singleton] at h
  by_cases hfull : st.request.length + 1 = n
  · rw [if_pos hfull, finishPushes, if_neg (by simp [hcfg.nonBlocking])] at h
    simp only [Option.bind_some, Option.some.injEq] at h
    subst h
    simp only [if_pos hfull]
    refine ⟨?_, hc, by simp [hresp], rfl⟩
    exact congrArg (fun b : Bookkeeping => { b with request := [] }) hb
  · rw [if_neg hfull, Option.some.injEq] at h
    subst h
    simp only [if_neg hfull]
    exact ⟨hb, hc, by simp [hresp], trivial⟩

theorem handlePull_spec (hcfg : cfg.SyncEngine) (hn : st.books.expectedWorkers = n)
    (h : handlePull cfg key st req = some out) :
    out.messages = [] ∧ out.state.contents = st.contents ∧
    ((st.isPushFinished = true ∧ req.sender ∉ st.seenSender ∧
        out.state.books = st.books.countPull n req.sender ∧
        ∃ r data, out.responses = [r] ∧ r.reqMeta = req ∧ pullData cfg st = some data ∧
          r.kvs.vals = .cells data) ∨
      (¬ (st.isPushFinished = true ∧ req.sender ∉ st.seenSender) ∧ out.responses = [] ∧
        out.state.books = { st.books with qPullReqmeta := st.qPullReqmeta ++ [req] })) := by
  unfold handlePull at h
  rw [hcfg.sync, hcfg.nonBlocking] at h
  simp only [Bool.false_eq_true, Bool.not_true, or_self, if_false] at h
  split_ifs at h with hstore hready
  · obtain ⟨⟨st', r⟩, hr, h⟩ := Option.bind_eq_some_iff.mp h
    obtain ⟨hb, hc, hreq, data, hd, hv⟩ := sendPullResponse_spec hr
    cases h
    refine ⟨rfl, (contents_countPull ..).trans hc, .inl ⟨hready.1, hready.2, ?_, ?_⟩⟩
    · rw [books_countPull cfg (hb ▸ hn), hb]
    · exact ⟨r, data, rfl, hreq, hd, hv⟩
  · cases h
    exact ⟨rfl, rfl, .inr ⟨hready, rfl, rfl⟩⟩

end SyncEngine

end MegatronDPU.Server
