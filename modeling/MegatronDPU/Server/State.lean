import MegatronDPU.Server.Message

/-!
# State of one key

What the server keeps for a key, and the helpers that read or write it: registration of the
expected workers, the two kinds of response, and the copies and sums of the reducer. A failed
`CHECK`, a null pointer that is followed and an access past the end of a buffer all have no
result.
-/

namespace MegatronDPU.Server

variable {α : Type}

/-- The compressor plug-ins: `create` deserialises the arguments, aligns the length and looks the
compressor up in the registry. A compressor returns a buffer and moves to a new state. -/
structure CompressorClass (α : Type) where
  State : Type
  create : List Char → ℕ → ℕ → Option State
  compress : State → List α → ℕ → List α × State
  decompress : State → List α → ℕ → List α × State

/-- The knobs of a server, its number of workers and the start of its key range. -/
structure Config where
  syncMode : Bool := true
  isEngineBlocking : Bool := false
  enableSchedule : Bool := false
  engineThreadNum : ℕ := 4
  numWorkers : ℕ := 1
  keyRangeBegin : Key := 0

/-- The mode of a synchronous server whose engine threads do the work, with plain queues. -/
structure Config.SyncEngine (cfg : Config) : Prop where
  sync : cfg.syncMode = true
  nonBlocking : cfg.isEngineBlocking = false
  plainQueues : cfg.enableSchedule = false

/-- An allocated `BytePSArray`: the buffer with its length, and its data type. -/
structure Store (α : Type) where
  tensor : List α
  dtype : ℕ
  deriving DecidableEq

/-- A `BytePSArray` that points into memory owned elsewhere. -/
structure Merged (α : Type) where
  tensor : Pointer α := .null
  len : ℕ := 0
  dtype : ℕ := 0
  deriving DecidableEq

/-- `KeyState`, without its mutex. -/
structure KeyState (α : Type) (C : CompressorClass α) where
  expectedWorkers : ℤ := -1
  store : Option (Store α) := none
  request : List KVMeta := []
  merged : Merged α := {}
  hasPushResponse : Bool := false
  pushResponse : KVPairs α := {}
  hasPullResponse : Bool := false
  pullResponse : KVPairs α := {}
  compressor : Option C.State := none
  isPushFinished : Bool := false
  qPullReqmeta : List KVMeta := []
  seenSender : Finset ℕ := ∅
  pullCnt : ℕ := 0

variable {C : CompressorClass α}

namespace KeyState

/-- `RegisterExpectedWorkers`. -/
def registerExpectedWorkers (st : KeyState α C) (expectedWorkers : ℤ) : Option (KeyState α C) :=
  if st.expectedWorkers = -1 then some { st with expectedWorkers := expectedWorkers }
  else if st.expectedWorkers = expectedWorkers then some st else none

/-- `(size_t)GetExpectedWorkers`. -/
def getExpectedWorkers (cfg : Config) (st : KeyState α C) : ℕ :=
  if st.expectedWorkers = -1 then cfg.numWorkers else st.expectedWorkers.toNat

/-- What a pointer points to. -/
def deref (st : KeyState α C) : Pointer α → Option (List α)
  | .null => none
  | .store => st.store.map (·.tensor)
  | .buffer data => some data

end KeyState

/-! ## Responses -/

/-- `SendPushResponse`. -/
def sendPushResponse (st : KeyState α C) (req : KVMeta) : KeyState α C × Response α :=
  let st := if st.hasPushResponse then st else
    { st with pushResponse := {}, hasPushResponse := true }
  (st, ⟨req, st.pushResponse⟩)

def sendPushResponses (st : KeyState α C) : List KVMeta → KeyState α C × List (Response α)
  | [] => (st, [])
  | req :: reqs =>
    let r := sendPushResponse st req
    let rest := sendPushResponses r.1 reqs
    (rest.1, r.2 :: rest.2)

/-- `EncodeKey`. -/
def encodeKey (cfg : Config) (key : Key) : Key := key + cfg.keyRangeBegin

/-- `DecodeKey`. -/
def decodeKey (cfg : Config) (key : Key) : Key := key - cfg.keyRangeBegin

@[simp] theorem decodeKey_encodeKey (cfg : Config) (key : Key) :
    decodeKey cfg (encodeKey cfg key) = key := by
  simp [decodeKey, encodeKey]

/-- The data a pull response carries: a view of the merged buffer or, in async mode, the store. -/
def pullData (cfg : Config) (st : KeyState α C) : Option (List α) := do
  let (tensor, len) :=
    if cfg.syncMode then (st.merged.tensor, st.merged.len)
    else (Pointer.store, (st.store.map (·.tensor.length)).getD 0)
  let data ← st.deref tensor
  if len ≤ data.length then some (data.take len) else none

/-- `SendPullResponse`: the view is read at the moment it is sent. -/
def sendPullResponse (cfg : Config) (key : Key) (st : KeyState α C) (req : KVMeta) :
    Option (KeyState α C × Response α) := do
  let data ← pullData cfg st
  let kvs : KVPairs α :=
    { keys := if st.hasPullResponse then st.pullResponse.keys else [encodeKey cfg key]
      lens := [data.length]
      vals := .cells data }
  some ({ st with hasPullResponse := true, pullResponse := kvs }, ⟨req, kvs⟩)

/-! ## The reducer -/

/-- `CpuReducer::copy`. -/
def reducerCopy (dst src : List α) (len : ℕ) : Option (List α) :=
  if len ≤ dst.length ∧ len ≤ src.length then some (src.take len ++ dst.drop len) else none

/-- `CpuReducer::sum`. -/
def reducerSum [Add α] (dst src : List α) (len : ℕ) : Option (List α) :=
  if len ≤ dst.length ∧ len ≤ src.length then
    some (List.zipWith (· + ·) (dst.take len) (src.take len) ++ dst.drop len)
  else none

/-! ## Bookkeeping and contents

The state of a key has two parts that its operations change separately: the fields that decide
when a request is answered, and the data it is answered with. -/

/-- The part of a key's state that does not depend on data. -/
@[ext]
structure Bookkeeping where
  expectedWorkers : ℤ
  initialised : Bool
  request : List KVMeta
  isPushFinished : Bool
  qPullReqmeta : List KVMeta
  seenSender : Finset ℕ
  pullCnt : ℕ
  deriving DecidableEq

def KeyState.books (st : KeyState α C) : Bookkeeping where
  expectedWorkers := st.expectedWorkers
  initialised := st.store.isSome
  request := st.request
  isPushFinished := st.isPushFinished
  qPullReqmeta := st.qPullReqmeta
  seenSender := st.seenSender
  pullCnt := st.pullCnt

/-- The part of a key's state that holds data. -/
structure Contents (α : Type) (C : CompressorClass α) where
  store : Option (Store α)
  merged : Merged α
  compressor : Option C.State

def KeyState.contents (st : KeyState α C) : Contents α C := ⟨st.store, st.merged, st.compressor⟩

section

variable (st : KeyState α C)
include st

@[simp] theorem books_sendPushResponse (req : KVMeta) :
    (sendPushResponse st req).1.books = st.books := by
  unfold sendPushResponse
  split <;> rfl

@[simp] theorem contents_sendPushResponse (req : KVMeta) :
    (sendPushResponse st req).1.contents = st.contents := by
  unfold sendPushResponse
  split <;> rfl

@[simp] theorem books_sendPushResponses (reqs : List KVMeta) :
    (sendPushResponses st reqs).1.books = st.books := by
  induction reqs generalizing st with
  | nil => rfl
  | cons req reqs ih => exact (ih _).trans (books_sendPushResponse st req)

@[simp] theorem contents_sendPushResponses (reqs : List KVMeta) :
    (sendPushResponses st reqs).1.contents = st.contents := by
  induction reqs generalizing st with
  | nil => rfl
  | cons req reqs ih => exact (ih _).trans (contents_sendPushResponse st req)

@[simp] theorem reqMeta_sendPushResponses (reqs : List KVMeta) :
    (sendPushResponses st reqs).2.map (·.reqMeta) = reqs := by
  induction reqs generalizing st with
  | nil => rfl
  | cons req reqs ih => exact congrArg (req :: ·) (ih _)

end

theorem pullData_congr {st st' : KeyState α C} (cfg : Config) (h : st.contents = st'.contents) :
    pullData cfg st = pullData cfg st' := by
  simp only [KeyState.contents, Contents.mk.injEq] at h
  obtain ⟨hs, hm, -⟩ := h
  unfold pullData KeyState.deref
  rw [hs, hm]

theorem sendPullResponse_spec {cfg : Config} {key : Key} {st st' : KeyState α C} {req : KVMeta}
    {r : Response α} (h : sendPullResponse cfg key st req = some (st', r)) :
    st'.books = st.books ∧ st'.contents = st.contents ∧ r.reqMeta = req ∧
      ∃ data, pullData cfg st = some data ∧ r.kvs.vals = .cells data := by
  obtain ⟨data, hd, h⟩ := Option.bind_eq_some_iff.mp h
  cases h
  exact ⟨rfl, rfl, rfl, data, hd, rfl⟩

theorem getExpectedWorkers_of_books {st : KeyState α C} (cfg : Config) {n : ℕ}
    (h : st.books.expectedWorkers = n) : st.getExpectedWorkers cfg = n := by
  have h' : st.expectedWorkers = n := h
  unfold KeyState.getExpectedWorkers
  rw [h', if_neg (by omega), Int.toNat_natCast]

end MegatronDPU.Server
