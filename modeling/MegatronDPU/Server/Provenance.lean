import MegatronDPU.Server.Blocking

/-!
# What the engine decompresses

A push message that reaches an engine thread carries the data of the request it came with. So what
is true of every request the handler has accepted is true of everything the engine hands to
`Decompress`, in all modes of the server.
-/

namespace MegatronDPU.Server

open Function List Option

variable {α : Type} {C : CompressorClass α} {P : KVPairs α → Prop} {cfg : Config} {key : Key}
  {type : DataHandleType} {req : KVMeta} {data : KVPairs α} {m : EngineMessage α}

/-- The message carries data of a request that satisfies `P`, or closes a round. -/
def EngineMessage.Carries (P : KVPairs α → Prop) (m : EngineMessage α) : Prop :=
  m.ops = .allRecv ∨ (m.ops = .copyFirst ∨ m.ops = .sumRecv) ∧ P m.sarray

/-- All messages of the server carry payloads with `P`. -/
structure ServerState.Carries (P : KVPairs α → Prop) (s : ServerState α C) : Prop where
  queued : ∀ i, ∀ m ∈ (s.queues i).queue, m.Carries P
  popped : ∀ i m, s.engines i = .popped m → m.Carries P

/-! ## The handler -/

theorem EngineMessage.Carries.mono {Q : KVPairs α → Prop} (hPQ : ∀ d, P d → Q d)
    (h : m.Carries P) : m.Carries Q :=
  h.imp_right fun ⟨hop, hp⟩ => ⟨hop, hPQ _ hp⟩

theorem EngineMessage.Carries.of_eraseId {x : EngineMessage α} (h : x.eraseId = m.eraseId)
    (hm : m.Carries P) : x.Carries P := by
  obtain ⟨-, -, -, -, hops, hsarray⟩ := fields_of_eraseId h
  unfold EngineMessage.Carries
  rw [hops, hsarray]
  exact hm

variable {st st' : KeyState α C}

section Handler

variable [Add α]

theorem carries_handleKey [Zero α] {out : Outcome α C} (hp : req.push = true → P data)
    (h : handleKey cfg key type st req data = some out) : ∀ m ∈ out.messages, m.Carries P := by
  rcases handleKey_messages h with hnil | ⟨hpush, -, hm⟩
  · simp [hnil]
  · intro m hmem
    obtain ⟨_, _, _, _, _, rfl, hops⟩ := hm m hmem
    exact hops.imp_right fun ⟨ho, hd⟩ => ⟨ho, hd ▸ hp hpush⟩

end Handler

/-! ## Steps of the server -/

namespace ServerState

variable {s t : ServerState α C} {rs : List (Response α)}

theorem Carries.mono {Q : KVPairs α → Prop} (hPQ : ∀ d, P d → Q d) (h : s.Carries P) :
    s.Carries Q :=
  ⟨fun i m hm => (h.queued i m hm).mono hPQ, fun i m hm => (h.popped i m hm).mono hPQ⟩

theorem Drained.carries (h : s.Drained) : s.Carries P := by
  refine ⟨fun i m hm => ?_, fun i m hm => ?_⟩
  · rw [(h i).1] at hm
    cases hm
  · rw [(h i).2] at hm
    cases hm

theorem Carries.handle [Add α] [Zero α] (h : s.Carries P) (hp : req.push = true → P data)
    (hs : s.handle cfg req data = some (t, rs)) : t.Carries P := by
  obtain ⟨k, type, out, -, -, hout, hdispatch, -⟩ :=
    handle_inv (show s.handle cfg (Request.mk req data).reqMeta (Request.mk req data).data = _
      from hs)
  obtain ⟨-, hengines, tid, hother, hperm, -⟩ :=
    dispatch_spec (routes_handleKey hout).thread hdispatch
  refine ⟨fun i m hm => ?_, fun i m hm => h.popped i m (by rw [hengines] at hm; exact hm)⟩
  by_cases hi : i = tid
  · subst hi
    -- up to its id the message was there, or the handler has queued it
    have hmem := hperm.mem_iff.mp (List.mem_map_of_mem hm)
    rcases mem_append.mp hmem with hmem | hmem
    · obtain ⟨x, hx, heq⟩ := List.mem_map.mp hmem
      exact (h.queued i x hx).of_eraseId heq.symm
    · obtain ⟨x, hx, heq⟩ := List.mem_map.mp hmem
      exact (carries_handleKey hp hout x hx).of_eraseId heq.symm
  · rw [hother i hi] at hm
    exact h.queued i m hm

theorem Carries.setEngine {i : ℕ} {e : EngineThread α} (h : s.Carries P)
    (he : ∀ m, e = .popped m → m.Carries P) : (s.setEngine i e).Carries P := by
  refine ⟨h.queued, fun j m hm => ?_⟩
  change Function.update s.engines i e j = _ at hm
  by_cases hj : j = i
  · subst hj
    rw [update_self] at hm
    exact he m hm
  · rw [update_of_ne hj] at hm
    exact h.popped j m hm

theorem Carries.engineStep [Add α] {i : ℕ} {executed : Option (EngineMessage α)}
    (h : s.Carries P) (hs : s.engineStep cfg i = some (t, executed, rs)) : t.Carries P := by
  obtain ⟨m, q, -, hpop, rfl, -⟩ | ⟨m, st, m', -, -, rfl, -⟩ | ⟨m, st, -, -, rfl, -⟩ :=
    engineStep_cases hs
  · have hperm := PriorityQueue.waitAndPop_perm hpop
    have hqueue : (s.setQueue i q).Carries P := by
      refine ⟨fun j x hx => ?_, h.popped⟩
      by_cases hj : j = i
      · subst hj
        have hxq : x ∈ q.queue := by
          rwa [show (s.setQueue j q).queues j = q from update_self _ _ _] at hx
        exact h.queued j x (hperm.mem_iff.mpr (mem_cons_of_mem m hxq))
      · rw [show (s.setQueue i q).queues j = s.queues j from update_of_ne hj _ _] at hx
        exact h.queued j x hx
    refine hqueue.setEngine fun x hx => ?_
    split_ifs at hx
    cases hx
    exact h.queued i m (hperm.mem_iff.mpr mem_cons_self)
  all_goals
    have hkeys : (s.setKey m.key st).Carries P := ⟨h.queued, h.popped⟩
    exact hkeys.setEngine fun x hx => by cases hx

end ServerState

/-! ## `Decompress` -/

/-- What a message hands to `Decompress` when it is prepared, if it does. -/
def decompressed (st : KeyState α C) (m : EngineMessage α) : Option (List α) :=
  if st.compressor.isSome ∧ m.ops ≠ .allRecv then
    m.sarray.lens.head?.bind fun n => (st.deref (resolveSrc m).src).map (·.take n)
  else none

theorem decompressed_eq {input payload : List α} (hops : m.ops = .copyFirst ∨ m.ops = .sumRecv)
    (hvals : m.sarray.vals = .cells payload) (hlens : m.sarray.lens = [payload.length])
    (h : decompressed st m = some input) : input = payload := by
  unfold decompressed at h
  split_ifs at h
  rw [hlens, head?_cons, bind_some] at h
  obtain ⟨src, hsrc, rfl⟩ := map_eq_some_iff.mp h
  cases payload with
  | nil => rfl
  | cons x xs =>
    have hresolve : (resolveSrc m).src = .buffer (x :: xs) := by
      unfold resolveSrc
      rcases hops with hops | hops
      all_goals
        rw [hops, hvals]
    rw [hresolve] at hsrc
    cases hsrc
    exact take_length

end MegatronDPU.Server
