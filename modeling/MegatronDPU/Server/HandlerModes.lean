import MegatronDPU.Server.Lengths

/-!
# The handler in both engine modes

With `BYTEPS_SERVER_ENGINE_BLOCKING` the handler sums pushes itself and answers pulls at once.
Its sums and its answers use the merged buffer, which only `ALL_RECV` sets. This module runs the
handler in the two modes on keys of the same `Shape`.
-/

namespace MegatronDPU.Server

open List Option

variable {α : Type} {C : CompressorClass α}

/-- The configuration with a blocking engine. -/
def Config.blocking (cfg : Config) : Config := { cfg with isEngineBlocking := true }

/-! ## What both modes keep -/

/-- What the handler reads of a key to decide about a request. -/
@[ext]
structure Shape where
  expectedWorkers : ℤ
  request : List KVMeta
  /-- Length and data type of the store. -/
  store : Option (ℕ × ℕ)

def KeyState.shape (st : KeyState α C) : Shape :=
  ⟨st.expectedWorkers, st.request, st.store.map fun stored => (stored.tensor.length, stored.dtype)⟩

/-- No compressor, no pull is queued, and the buffered requests are pushes. -/
structure KeyState.Quiet (st : KeyState α C) : Prop where
  compressor : st.compressor = none
  pulls : st.qPullReqmeta = []
  pushes : ∀ q ∈ st.request, q.push = true

variable {cfg : Config} {st st' : KeyState α C} {req : KVMeta} {data : KVPairs α}
  {type : DataHandleType} {key : Key} {out out' : Outcome α C}

theorem getExpectedWorkers_of_shape (cfg : Config) (h : st'.shape = st.shape) :
    st'.getExpectedWorkers cfg = st.getExpectedWorkers cfg := by
  have hexp : st'.expectedWorkers = st.expectedWorkers := congrArg Shape.expectedWorkers h
  unfold KeyState.getExpectedWorkers
  rw [hexp]

theorem request_of_shape (h : st'.shape = st.shape) : st'.request = st.request :=
  congrArg Shape.request h

/-- Compressor, queued pulls and merged buffer are as before. -/
structure KeyState.Keeps (st st' : KeyState α C) : Prop where
  compressor : st'.compressor = st.compressor
  pulls : st'.qPullReqmeta = st.qPullReqmeta
  merged : st'.merged.tensor = st.merged.tensor

theorem sendPushResponse_keeps (st : KeyState α C) (req : KVMeta) :
    (sendPushResponse st req).1.shape = st.shape ∧ st.Keeps (sendPushResponse st req).1 := by
  unfold sendPushResponse
  split_ifs
  · exact ⟨rfl, rfl, rfl, rfl⟩
  · exact ⟨rfl, rfl, rfl, rfl⟩

theorem KeyState.Keeps.trans {st₁ st₂ : KeyState α C} (h : st.Keeps st₁) (h' : st₁.Keeps st₂) :
    st.Keeps st₂ :=
  ⟨h'.compressor.trans h.compressor, h'.pulls.trans h.pulls, h'.merged.trans h.merged⟩

theorem sendPushResponses_keeps (st : KeyState α C) (reqs : List KVMeta) :
    (sendPushResponses st reqs).1.shape = st.shape ∧ st.Keeps (sendPushResponses st reqs).1 := by
  induction reqs generalizing st with
  | nil => exact ⟨rfl, rfl, rfl, rfl⟩
  | cons req reqs ih =>
    obtain ⟨hshape, hkeep⟩ := sendPushResponse_keeps st req
    obtain ⟨hshape', hkeep'⟩ := ih (sendPushResponse st req).1
    exact ⟨hshape'.trans hshape, hkeep.trans hkeep'⟩

/-- Two keys of one shape after the same request: they have one shape again, queue for the same
thread and answer the same requests, which are the buffered ones and the new one. -/
structure Outcome.Alike (st st' : KeyState α C) (req : KVMeta) (out out' : Outcome α C) : Prop where
  shape : out'.state.shape = out.state.shape
  thread : out'.thread = out.thread
  keeps : st.Keeps out.state
  keeps' : st'.Keeps out'.state
  answered : out'.responses.map (·.reqMeta) = out.responses.map (·.reqMeta)
  origin : ∀ q, q ∈ out.state.request ∨ q ∈ out.responses.map (·.reqMeta) →
    q ∈ st.request ∨ q = req

/-! ### Setup requests -/

theorem registerExpectedWorkers_alike {n : ℤ} {st₁ : KeyState α C} (h : st'.shape = st.shape)
    (hst : st.registerExpectedWorkers n = some st₁) :
    ∃ st₁', st'.registerExpectedWorkers n = some st₁' ∧ st₁'.shape = st₁.shape ∧ st.Keeps st₁ ∧
      st'.Keeps st₁' := by
  have hexp : st'.expectedWorkers = st.expectedWorkers := congrArg Shape.expectedWorkers h
  unfold KeyState.registerExpectedWorkers at hst ⊢
  rw [hexp]
  split_ifs at hst ⊢
  · obtain rfl := some.inj hst
    refine ⟨_, rfl, ?_, ⟨rfl, rfl, rfl⟩, ⟨rfl, rfl, rfl⟩⟩
    exact congrArg (fun shape : Shape => { shape with expectedWorkers := n }) h
  · obtain rfl := some.inj hst
    exact ⟨st', rfl, h, ⟨rfl, rfl, rfl⟩, ⟨rfl, rfl, rfl⟩⟩

theorem register_alike (h : st'.shape = st.shape)
    (hout : handleGroupRegister st req data = some out) :
    ∃ out', handleGroupRegister st' req data = some out' ∧ Outcome.Alike st st' req out out' ∧
      out'.messages = [] := by
  unfold handleGroupRegister at hout ⊢
  split at hout
  · split_ifs at hout with hc
    rw [if_pos hc]
    obtain ⟨st₁, hst, hout⟩ := Option.bind_eq_some_iff.mp hout
    obtain ⟨st₁', hst', hshape, hkeep, hkeep'⟩ := registerExpectedWorkers_alike h hst
    obtain rfl := some.inj hout
    obtain ⟨hs, hk⟩ := sendPushResponse_keeps st₁ req
    obtain ⟨hs', hk'⟩ := sendPushResponse_keeps st₁' req
    refine ⟨{ state := (sendPushResponse st₁' req).1, responses := [(sendPushResponse st₁' req).2] },
      by rw [hst']; rfl, ⟨hs'.trans (hshape.trans hs.symm), rfl, hkeep.trans hk, hkeep'.trans hk',
      rfl, ?_⟩, rfl⟩
    have hreq : (sendPushResponse st₁ req).1.request = st.request := by
      rw [request_of_shape hs]
      unfold KeyState.registerExpectedWorkers at hst
      split_ifs at hst <;> rw [← some.inj hst]
    rintro q (hq | hq)
    · exact .inl (hreq ▸ hq)
    · exact .inr (mem_singleton.mp hq)
  · cases hout

theorem collect_alike (cfg : Config) (req : KVMeta) (ready : KeyState α C → KeyState α C)
    {a a' : KeyState α C} (hreq : a.request = st.request) (hka : st.Keeps a) (hka' : st'.Keeps a')
    (h : a'.shape = a.shape)
    (hready : ∀ a b : KeyState α C, a.shape = b.shape → (ready a).shape = (ready b).shape)
    (hkeep : ∀ a : KeyState α C, a.Keeps (ready a)) :
    Outcome.Alike st st' req (collect cfg a req ready) (collect cfg a' req ready) ∧
      (collect cfg a' req ready).messages = [] := by
  have hadd : ({ a' with request := a.request ++ [req] } : KeyState α C).shape =
      ({ a with request := a.request ++ [req] } : KeyState α C).shape :=
    congrArg (fun shape : Shape => { shape with request := a.request ++ [req] }) h
  have horigin : ∀ q ∈ a.request ++ [req], q ∈ st.request ∨ q = req := fun q hq =>
    hreq ▸ (mem_append.mp hq).imp_right mem_singleton.mp
  unfold collect
  dsimp only
  rw [request_of_shape h, getExpectedWorkers_of_shape cfg hadd]
  split_ifs
  · refine ⟨⟨hadd, rfl, hka.trans ⟨rfl, rfl, rfl⟩, hka'.trans ⟨rfl, rfl, rfl⟩, rfl, ?_⟩, rfl⟩
    rintro q (hq | hq)
    · exact horigin q hq
    · cases hq
  · have hsend := fun x => sendPushResponses_keeps (ready x) (a.request ++ [req])
    have hkept := fun x => (hkeep x).trans (hsend x).2
    refine ⟨⟨?_, rfl, hka.trans ⟨(hkept _).compressor, (hkept _).pulls, (hkept _).merged⟩,
      hka'.trans ⟨(hkept _).compressor, (hkept _).pulls, (hkept _).merged⟩, ?_, ?_⟩, rfl⟩
    · exact congrArg (fun shape : Shape => { shape with request := [] })
        ((hsend _).1.trans ((hready _ _ hadd).trans (hsend _).1.symm))
    · rw [reqMeta_sendPushResponses, reqMeta_sendPushResponses]
    · rw [reqMeta_sendPushResponses]
      rintro q (hq | hq)
      · cases hq
      · exact horigin q hq

theorem initPush_alike [Zero α] {len : ℕ} (h : st'.shape = st.shape) :
    Outcome.Alike st st' req (handleInitPush cfg type st req len)
      (handleInitPush cfg.blocking type st' req len) ∧
    (handleInitPush cfg.blocking type st' req len).messages = [] := by
  have hready : ∀ x y : KeyState α C, x.shape = y.shape →
      ({ x with store := some ⟨replicate len 0, type.dtype⟩ } : KeyState α C).shape =
        ({ y with store := some ⟨replicate len 0, type.dtype⟩ } : KeyState α C).shape := by
    intro x y hxy
    have hexp : x.expectedWorkers = y.expectedWorkers := congrArg Shape.expectedWorkers hxy
    exact Shape.ext hexp (request_of_shape hxy) rfl
  unfold handleInitPush
  -- the new length of the merged buffer is no part of the shape
  by_cases hsync : cfg.syncMode = true
  · have hsync' : cfg.blocking.syncMode = true := hsync
    rw [if_pos hsync, if_pos hsync']
    exact collect_alike cfg req _ rfl ⟨rfl, rfl, rfl⟩ ⟨rfl, rfl, rfl⟩ h hready fun _ => ⟨rfl, rfl, rfl⟩
  · have hsync' : ¬cfg.blocking.syncMode = true := hsync
    rw [if_neg hsync, if_neg hsync']
    exact collect_alike cfg req _ rfl ⟨rfl, rfl, rfl⟩ ⟨rfl, rfl, rfl⟩ h hready fun _ => ⟨rfl, rfl, rfl⟩

/-! ### Pushes -/

section Push

variable [Add α] {stored : Store α} {recved : List α} {len : ℕ}

theorem handlePush_eq {queued last : List (EngineMessage α)} (hsync : cfg.syncMode = true)
    (haccept : acceptPush cfg key type st stored req data recved len = some (st, queued))
    (hfinish : st.request.length + 1 = st.getExpectedWorkers cfg → ∀ x : KeyState α C,
      finishPushes cfg key type x stored len = some ({ x with request := [] }, last)) :
    ∃ out, handlePush cfg key type st stored req data recved len = some out ∧
      out.state.shape = { st.shape with
        request := if st.request.length + 1 = st.getExpectedWorkers cfg then []
          else st.request ++ [req] } ∧
      st.Keeps out.state ∧ out.thread = some len ∧ out.responses.map (·.reqMeta) = [req] ∧
      out.messages = queued ++
        if st.request.length + 1 = st.getExpectedWorkers cfg then last else [] := by
  obtain ⟨hs, hk⟩ := sendPushResponse_keeps { st with request := st.request ++ [req] } req
  have hexp := getExpectedWorkers_of_shape cfg hs
  have hlen : (sendPushResponse { st with request := st.request ++ [req] } req).1.request.length =
      st.request.length + 1 := by
    rw [request_of_shape hs, length_append, length_singleton]
  unfold handlePush
  rw [haccept]
  simp only [bind_eq_bind, bind_some]
  rw [if_pos hsync, hexp, hlen]
  show ∃ out, (if st.request.length + 1 = st.getExpectedWorkers cfg then _ else _) = some out ∧ _
  by_cases hfull : st.request.length + 1 = st.getExpectedWorkers cfg
  · rw [if_pos hfull, hfinish hfull, if_pos hfull, if_pos hfull]
    refine ⟨_, rfl, ?_, ⟨hk.compressor, hk.pulls, hk.merged⟩, rfl, rfl, rfl⟩
    exact congrArg (fun shape : Shape => { shape with request := [] }) hs
  · rw [if_neg hfull, if_neg hfull, if_neg hfull, append_nil]
    exact ⟨_, rfl, hs, ⟨hk.compressor, hk.pulls, hk.merged⟩, rfl, rfl, rfl⟩

/-- A copy of what was received into the store. -/
def EngineMessage.IsCopy (m : EngineMessage α) : Prop :=
  m.ops = .copyFirst ∧ m.dst = .store ∧
    ∃ recved, m.src = .buffer recved ∧ m.sarray.vals = .cells recved

theorem handlePush_alike {stored' : Store α} (hsync : cfg.syncMode = true)
    (hnb : cfg.isEngineBlocking = false) (h : st'.shape = st.shape) (hst : st.store = some stored)
    (hlen : stored'.tensor.length = stored.tensor.length) (hvals : data.vals = .cells recved)
    (hharm : len = 0 ∨ (st.request = [] ∧ st.getExpectedWorkers cfg ≠ 1))
    (hout : handlePush cfg key type st stored req data recved len = some out) :
    ∃ out', handlePush cfg.blocking key type st' stored' req data recved len = some out' ∧
      Outcome.Alike st st' req out out' ∧
      (out'.messages = [] ∨ ∃ m, out'.messages = [m] ∧ m ∈ out.messages ∧ m.IsCopy ∧
        m.key = key ∧ out'.state.shape.store.map Prod.fst = some m.len) := by
  have hreq := request_of_shape h
  have hexp := getExpectedWorkers_of_shape cfg h
  have hsync' : cfg.blocking.syncMode = true := hsync
  have hbl : cfg.blocking.isEngineBlocking = true := rfl
  -- the engine mode
  have hfinish : st.request.length + 1 = st.getExpectedWorkers cfg → ∀ x : KeyState α C,
      finishPushes cfg key type x stored len =
        some ({ x with request := [] }, [pushMessage key type stored .allRecv .store {} none]) := by
    intro _ x
    rw [finishPushes, hnb, if_neg Bool.false_ne_true]
  obtain ⟨out₁, hout₁, hshape, hkeep, hthread, hresp, hmsg⟩ :=
    handlePush_eq hsync (acceptPush_engine hsync hnb) hfinish
  obtain rfl : out₁ = out := some.inj (hout₁.symm.trans hout)
  -- the blocking mode
  have haccept' : acceptPush cfg.blocking key type st' stored' req data recved len = some (st',
      if st.request = [] then
        [pushMessage key type stored' .copyFirst (.buffer recved) data (some req)] else []) := by
    unfold acceptPush
    dsimp only
    rw [hsync', hbl, hreq, if_pos rfl, if_pos rfl, if_pos rfl]
    rcases hharm with hzero | ⟨hnil, -⟩
    · split_ifs
      · rfl
      · rw [sumIntoMerged, if_pos hzero]
        rfl
    · rw [if_pos hnil, if_pos hnil]
  have hfinish' : st'.request.length + 1 = st'.getExpectedWorkers cfg.blocking →
      ∀ x : KeyState α C, finishPushes cfg.blocking key type x stored' len =
        some ({ x with request := [] }, []) := by
    intro hfull x
    have hzero : len = 0 := by
      rcases hharm with hzero | ⟨hnil, hne⟩
      · exact hzero
      · rw [hreq, hnil] at hfull
        exact absurd (hfull.trans hexp).symm hne
    rw [finishPushes, hbl, if_pos rfl, if_pos hzero]
  obtain ⟨out', hout', hshape', hkeep', hthread', hresp', hmsg'⟩ :=
    handlePush_eq hsync' haccept' hfinish'
  have hexp' : st'.getExpectedWorkers cfg.blocking = st.getExpectedWorkers cfg := hexp
  rw [hreq, hexp', h] at hshape'
  refine ⟨out', hout', ⟨hshape'.trans hshape.symm, hthread'.trans hthread.symm, hkeep, hkeep',
    hresp'.trans hresp.symm, ?_⟩, ?_⟩
  · have hrequest : out₁.state.request = _ := congrArg Shape.request hshape
    rw [hrequest, hresp]
    rintro q (hq | hq)
    · split_ifs at hq
      · cases hq
      · exact (mem_append.mp hq).imp_right mem_singleton.mp
    · exact .inr (mem_singleton.mp hq)
  · rw [ite_self, append_nil] at hmsg'
    by_cases hnil : st.request = []
    · rw [if_pos hnil] at hmsg hmsg'
      refine .inr ⟨_, hmsg', ?_, ⟨rfl, rfl, recved, rfl, hvals⟩, rfl, ?_⟩
      · rw [hmsg]
        unfold pushMessage
        rw [hlen]
        exact mem_append_left _ mem_cons_self
      · rw [hshape']
        show (st.store.map _).map _ = some stored'.tensor.length
        rw [hst, hlen]
        rfl
    · rw [if_neg hnil] at hmsg'
      exact .inl hmsg'

end Push

/-! ### The handler -/

section Handler

variable [Add α] [Zero α]

/-- A registration, an init push, an empty push, or the first push of several. -/
def HarmlessKey (cfg : Config) (st : KeyState α C) (type : DataHandleType) (req : KVMeta)
    (data : KVPairs α) : Prop :=
  req.push = true ∧ (type.requestType = .kGroupRegister ∨ st.store = none ∨ data.vals.size = 0 ∨
    (st.request = [] ∧ st.getExpectedWorkers cfg ≠ 1))

theorem handleKey_alike (hsync : cfg.syncMode = true) (hnb : cfg.isEngineBlocking = false)
    (h : st'.shape = st.shape) (hplain : type.requestType ≠ .kCompressedPushPull)
    (hharm : HarmlessKey cfg st type req data)
    (hout : handleKey cfg key type st req data = some out) :
    ∃ out', handleKey cfg.blocking key type st' req data = some out' ∧
      Outcome.Alike st st' req out out' ∧
      (out'.messages = [] ∨ ∃ m, out'.messages = [m] ∧ m ∈ out.messages ∧ m.IsCopy ∧
        m.key = key ∧ out'.state.shape.store.map Prod.fst = some m.len) := by
  have hstore : st'.store.map (fun stored => (stored.tensor.length, stored.dtype)) =
      st.store.map fun stored => (stored.tensor.length, stored.dtype) := congrArg Shape.store h
  unfold handleKey at hout ⊢
  split at hout
  · obtain ⟨out', hout', halike, hm⟩ := register_alike h hout
    exact ⟨out', hout', halike, .inl hm⟩
  · rename_i htype
    exact absurd htype hplain
  · rename_i hreg _
    rw [if_pos hharm.1] at hout ⊢
    split at hout
    · rename_i recved hvals
      split_ifs at hout with hlens
      rw [if_pos hlens]
      cases hst : st.store with
      | none =>
        rw [hst] at hstore hout
        rw [Option.map_eq_none_iff.mp hstore]
        obtain rfl := some.inj hout
        obtain ⟨halike, hm⟩ := initPush_alike h
        exact ⟨_, rfl, halike, .inl hm⟩
      | some stored =>
        rw [hst] at hstore hout
        obtain ⟨stored', hst', heq⟩ := Option.map_eq_some_iff.mp hstore
        rw [hst']
        have hpush : recved.length = 0 ∨ (st.request = [] ∧ st.getExpectedWorkers cfg ≠ 1) := by
          rcases hharm.2 with hr | hr | hr | hr
          · exact absurd hr hreg
          · rw [hst] at hr
            cases hr
          · rw [hvals] at hr
            exact .inl hr
          · exact .inr hr
        exact handlePush_alike hsync hnb h hst (congrArg Prod.fst heq) hvals hpush hout
    · cases hout

theorem harmless_of_handleKey (hsync : cfg.syncMode = true) (hnull : st.merged.tensor = .null)
    (hplain : type.requestType ≠ .kCompressedPushPull)
    (hout : handleKey cfg.blocking key type st req data = some out) :
    HarmlessKey cfg st type req data := by
  have hsync' : cfg.blocking.syncMode = true := hsync
  have hbl : cfg.blocking.isEngineBlocking = true := rfl
  unfold handleKey at hout
  split at hout
  · rename_i htype
    unfold handleGroupRegister at hout
    split at hout
    · split_ifs at hout with hc
      exact ⟨hc.1, .inl htype⟩
    · cases hout
  · rename_i htype
    exact absurd htype hplain
  · split_ifs at hout with hpush
    · refine ⟨hpush, .inr ?_⟩
      split at hout
      · rename_i recved hvals
        split_ifs at hout
        rw [hvals]
        cases hst : st.store with
        | none => exact .inl rfl
        | some stored =>
          right
          rw [hst] at hout
          by_cases hzero : recved.length = 0
          · exact .inl hzero
          right
          obtain ⟨⟨st₁, queued⟩, haccept, hout⟩ := Option.bind_eq_some_iff.mp hout
          unfold acceptPush at haccept
          dsimp only at haccept
          rw [hsync', hbl, if_pos rfl, if_pos rfl, if_pos rfl] at haccept
          split_ifs at haccept with hnil
          · refine ⟨hnil, fun hone => ?_⟩
            obtain ⟨rfl, -⟩ := Prod.mk.inj (some.inj haccept)
            obtain ⟨hs, hk⟩ := sendPushResponse_keeps
              { st with request := st.request ++ [req] } req
            have hfull : (sendPushResponse
                { st with request := st.request ++ [req] } req).1.request.length =
                KeyState.getExpectedWorkers cfg.blocking
                  (sendPushResponse { st with request := st.request ++ [req] } req).1 := by
              rw [request_of_shape hs, getExpectedWorkers_of_shape _ hs, hnil]
              exact hone.symm
            dsimp only at hout
            rw [if_pos hsync', if_pos hfull, finishPushes, hbl, if_pos rfl, if_neg hzero, hk.merged,
              hnull] at hout
            cases hout
          · rw [sumIntoMerged, if_neg hzero, hnull] at haccept
            cases haccept
      · cases hout
    · unfold handlePull at hout
      split_ifs at hout with hnone hmode
      · unfold sendPullResponse pullData at hout
        rw [hsync', if_pos rfl, hnull] at hout
        cases hout
      · exact absurd (.inl hbl) hmode
      · exact absurd (.inl hbl) hmode

end Handler

end MegatronDPU.Server
