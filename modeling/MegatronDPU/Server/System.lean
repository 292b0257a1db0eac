import MegatronDPU.Server.Engine

/-!
# A job: workers and a server

For each key a group of workers sends its requests to one server. A worker registers the size of
the group, sends its init push, the compressor arguments if there are any, and then for every
round a push and a pull; it waits for each answer before its next request (`Stage.next`). The
steps of a job are the requests of the workers and the steps of the engine threads, in any order.

The trace of a job lists the responses and the processed `ALL_RECV`s of every key.
-/

namespace MegatronDPU.Server

variable {α : Type} {C : CompressorClass α}

/-! ## Workers -/

/-- The workers of a key, and what they push. -/
structure KeyGroup (α : Type) where
  workers : Finset ℕ
  workers_nonempty : workers.Nonempty
  dtype : ℕ
  /-- Serialised compressor arguments. -/
  kwargs : Option (List Char)
  initPayload : ℕ → List α
  /-- What a worker pushes in a round. -/
  payload : ℕ → ℕ → List α

/-- The request a worker sends next, or whose answer it waits for. -/
inductive Stage
  | register
  | init
  | kwargs
  | push (round : ℕ)
  | pull (round : ℕ)
  deriving DecidableEq

namespace Stage

/-- The stage after a stage. -/
def next (g : KeyGroup α) : Stage → Stage
  | register => init
  | init => if g.kwargs.isSome then kwargs else push 0
  | kwargs => push 0
  | push r => pull r
  | pull r => push (r + 1)

/-- The number a worker gives its request; answers are matched by it. -/
def timestamp : Stage → ℕ
  | register => 0
  | init => 1
  | kwargs => 2
  | push r => 2 * r + 3
  | pull r => 2 * r + 4

def round : Stage → ℕ
  | push r => r
  | pull r => r
  | _ => 0

def type (g : KeyGroup α) : Stage → DataHandleType
  | register => ⟨.kGroupRegister, bytepsInt32⟩
  | kwargs => ⟨.kCompressedPushPull, g.dtype⟩
  | _ => ⟨.kDefaultPushPull, g.dtype⟩

def isPush : Stage → Bool
  | pull _ => false
  | _ => true

/-- The header of a client's request. -/
def reqMeta (g : KeyGroup α) (w : ℕ) (stage : Stage) : KVMeta where
  cmd := getCommandType (stage.type g).requestType (stage.type g).dtype
  push := stage.isPush
  sender := w
  timestamp := stage.timestamp

/-- The payload of a client's request. -/
def data (cfg : Config) (g : KeyGroup α) (key : Key) (w : ℕ) : Stage → KVPairs α
  | register => ⟨[encodeKey cfg key], .int g.workers.card, [sizeofInt]⟩
  | init => ⟨[encodeKey cfg key], .cells (g.initPayload w), [(g.initPayload w).length]⟩
  | kwargs => ⟨[encodeKey cfg key], .text (g.kwargs.getD []), [(g.kwargs.getD []).length]⟩
  | push r => ⟨[encodeKey cfg key], .cells (g.payload w r), [(g.payload w r).length]⟩
  | pull _ => { keys := [encodeKey cfg key] }

@[simp] theorem keys_data (cfg : Config) (g : KeyGroup α) (key : Key) (w : ℕ) (stage : Stage) :
    (stage.data cfg g key w).keys = [encodeKey cfg key] := by
  cases stage <;> rfl

@[simp] theorem depair_cmd (g : KeyGroup α) (w : ℕ) (stage : Stage) :
    depairDataHandleType (stage.reqMeta g w).cmd = some (stage.type g) := by
  unfold reqMeta
  rw [depair_getCommandType _ _ (by cases stage <;> rfl)]

end Stage

/-- Where a client is, and whether it waits for an answer. -/
structure Client where
  stage : Stage := .register
  waiting : Bool := false
  deriving DecidableEq

/-- The answer to the outstanding request lets a worker go on; any other answer does not. -/
def Client.receive (g : KeyGroup α) (c : Client) (r : Response α) : Client :=
  if c.waiting ∧ c.stage.timestamp = r.reqMeta.timestamp then ⟨c.stage.next g, false⟩ else c

/-- The answers reach the clients. -/
def deliver (g : KeyGroup α) (clients : ℕ → Client) : List (Response α) → ℕ → Client
  | [] => clients
  | r :: rs => deliver g
      (Function.update clients r.reqMeta.sender ((clients r.reqMeta.sender).receive g r)) rs

/-- Answers to the outstanding requests of different workers let exactly these workers go on. -/
theorem deliver_stage {g : KeyGroup α} {clients : ℕ → Client} {rs : List (Response α)} {ws : List ℕ}
    {stage : Stage} (hrs : rs.map (·.reqMeta) = ws.map (stage.reqMeta g)) (hnd : ws.Nodup)
    (hc : ∀ w ∈ ws, clients w = ⟨stage, true⟩) (v : ℕ) :
    deliver g clients rs v = if v ∈ ws then ⟨stage.next g, false⟩ else clients v := by
  induction ws generalizing clients rs with
  | nil =>
    obtain rfl : rs = [] := by simpa using hrs
    rfl
  | cons w ws ih =>
    obtain ⟨r, rs, rfl⟩ : ∃ r rs', rs = r :: rs' :=
      List.exists_cons_of_ne_nil (by rintro rfl; simp at hrs)
    obtain ⟨hr, hrs⟩ := List.cons_eq_cons.mp hrs
    rw [List.nodup_cons] at hnd
    have hsender : r.reqMeta.sender = w := congrArg KVMeta.sender hr
    have hstamp : r.reqMeta.timestamp = stage.timestamp := congrArg KVMeta.timestamp hr
    have hrecv : (clients w).receive g r = ⟨stage.next g, false⟩ := by
      simp [Client.receive, hc w List.mem_cons_self, hstamp]
    rw [deliver, hsender, hrecv]
    have hother : ∀ x ∈ ws, Function.update clients w ⟨stage.next g, false⟩ x = ⟨stage, true⟩ := by
      intro x hx
      rw [Function.update_of_ne (by rintro rfl; exact hnd.1 hx)]
      exact hc x (List.mem_cons_of_mem w hx)
    rw [ih hrs hnd.2 hother]
    by_cases hv : v = w
    · subst hv
      simp [hnd.1]
    · simp [hv]

/-! ## Jobs -/

/-- What the trace of a key records. -/
inductive Event (α : Type)
  | response (r : Response α)
  | allRecv
  deriving DecidableEq

def executedEvents (m : EngineMessage α) (rs : List (Response α)) : List (Event α) :=
  (if m.ops = .allRecv then [.allRecv] else []) ++ rs.map .response

/-- The server and its clients. -/
structure Job (α : Type) (C : CompressorClass α) where
  server : ServerState α C
  clients : Key → ℕ → Client := fun _ _ => {}
  trace : List (Key × Event α) := []

/-- A step of a job. -/
inductive Action
  | request (key : Key) (worker : ℕ)
  | engine (thread : ℕ)
  deriving DecidableEq

namespace Job

variable [Add α] [Zero α]

/-- A worker that is not waiting sends its next request, or an engine thread takes a step. -/
def step (cfg : Config) (groups : Key → KeyGroup α) (s : Job α C) : Action → Option (Job α C)
  | .request key w =>
    let g := groups key
    let c := s.clients key w
    if w ∈ g.workers ∧ c.waiting = false then do
      let (server, rs) ← s.server.handle cfg (c.stage.reqMeta g w) (c.stage.data cfg g key w)
      let clients := Function.update (s.clients key) w { c with waiting := true }
      some
        { server := server
          clients := Function.update s.clients key (deliver g clients rs)
          trace := s.trace ++ rs.map fun r => (key, .response r) }
    else none
  | .engine i => do
    let (server, executed, rs) ← s.server.engineStep cfg i
    match executed with
    | none => some { s with server := server }
    | some m =>
      some
        { server := server
          clients := Function.update s.clients m.key
            (deliver (groups m.key) (s.clients m.key) rs)
          trace := s.trace ++ (executedEvents m rs).map fun e => (m.key, e) }

end Job

/-! ### What a step reads of a group -/

theorem deliver_congr {g g' : KeyGroup α} (hk : g.kwargs = g'.kwargs) (clients : ℕ → Client)
    (rs : List (Response α)) : deliver g clients rs = deliver g' clients rs := by
  have hnext : ∀ stage : Stage, stage.next g = stage.next g' := by
    intro stage
    cases stage <;> simp only [Stage.next, hk]
  induction rs generalizing clients with
  | nil => rfl
  | cons r rs ih =>
    simp only [deliver, Client.receive, hnext]
    exact ih _

/-- A request depends on the data that is sent, not on the data of other requests. -/
theorem Job.step_request_congr [Add α] [Zero α] {cfg : Config} {groups groups' : Key → KeyGroup α}
    {s : Job α C} {key : Key} {w : ℕ} (hworkers : (groups key).workers = (groups' key).workers)
    (hdtype : (groups key).dtype = (groups' key).dtype)
    (hkwargs : (groups key).kwargs = (groups' key).kwargs)
    (hdata : (s.clients key w).stage.data cfg (groups key) key w =
      (s.clients key w).stage.data cfg (groups' key) key w) :
    s.step cfg groups (.request key w) = s.step cfg groups' (.request key w) := by
  have hmeta : (s.clients key w).stage.reqMeta (groups key) w =
      (s.clients key w).stage.reqMeta (groups' key) w := by
    cases (s.clients key w).stage <;> simp only [Stage.reqMeta, Stage.type, hdtype]
  simp only [Job.step, hworkers, hmeta, hdata, deliver_congr hkwargs]

theorem Job.step_engine_congr [Add α] [Zero α] {cfg : Config} {groups groups' : Key → KeyGroup α}
    {s : Job α C} {i : ℕ} (hkwargs : ∀ key, (groups key).kwargs = (groups' key).kwargs) :
    s.step cfg groups (.engine i) = s.step cfg groups' (.engine i) := by
  simp only [Job.step, deliver_congr (hkwargs _)]

/-- All interleavings of clients and engine threads. -/
def jobs [Add α] [Zero α] (cfg : Config) (C : CompressorClass α) (groups : Key → KeyGroup α) :
    Lts.System (Job α C) Action where
  init s := s = { server := .start cfg }
  step := Job.step cfg groups

end MegatronDPU.Server
