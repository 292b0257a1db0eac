import MegatronDPU.Server.Rounds

/-!
# Setting a key up

Before its rounds a key is registered by every worker, gets an init push and, if the tensor is
compressed, the compressor arguments from every worker. The server answers the pushes of one kind
together, when the last one is there, so no worker is ahead: `Lane.InSetup` describes the time
until then, and `InSetup.step` says that a step stays in it or starts the first round.
-/

namespace MegatronDPU.Server

open List Option

variable {α : Type} {C : CompressorClass α}

/-- The bookkeeping of a key before its first round. -/
def setupBooks (expectedWorkers : ℤ) (initialised : Bool) (request : List KVMeta) :
    Bookkeeping where
  expectedWorkers := expectedWorkers
  initialised := initialised
  request := request
  isPushFinished := false
  qPullReqmeta := []
  seenSender := ∅
  pullCnt := 0

/-- Workers register and send init pushes; `order` have sent theirs. -/
structure Lane.Registering (g : KeyGroup α) (order : List ℕ) (l : Lane α C) : Prop where
  books : ∃ e, l.st.books = setupBooks e false (order.map (Stage.init.reqMeta g)) ∧
    (e = -1 ∨ e = g.workers.card) ∧ ∀ w ∈ g.workers, (l.clients w).stage = .init →
      e = g.workers.card
  fresh : l.st.compressor = none
  clients : ∀ w ∈ g.workers, l.clients w = ⟨.init, decide (w ∈ order)⟩ ∨
    w ∉ order ∧ l.clients w = ⟨.register, false⟩

/-- The store has been made by the init push of a worker. -/
def Lane.Allocated [Zero α] (g : KeyGroup α) (l : Lane α C) : Prop :=
  ∃ v ∈ g.workers, l.st.store = some ⟨List.replicate (g.initPayload v).length 0, g.dtype⟩

/-- Workers send the compressor arguments; `order` have sent theirs. -/
structure Lane.Configuring [Zero α] (g : KeyGroup α) (order : List ℕ) (l : Lane α C) : Prop where
  books : l.st.books = setupBooks g.workers.card true (order.map (Stage.kwargs.reqMeta g))
  kwargs : g.kwargs.isSome
  allocated : l.Allocated g
  clients : ∀ w ∈ g.workers, l.clients w = ⟨.kwargs, decide (w ∈ order)⟩

/-- No round has begun. -/
structure Lane.InSetup [Zero α] (g : KeyGroup α) (l : Lane α C) : Prop where
  engine : l.engine = .waiting
  queue : l.queue = []
  log : l.trace.filterMap Event.toBarrier = []
  outside : ∀ w ∉ g.workers, l.clients w = {}
  phase : ∃ order : List ℕ, order.Nodup ∧ (∀ w ∈ order, w ∈ g.workers) ∧
    order.length < g.workers.card ∧ (l.Registering g order ∨ l.Configuring g order)

/-- A key begins in its setup. -/
theorem inSetup_start [Zero α] (g : KeyGroup α) : Lane.InSetup g ({} : Lane α C) where
  engine := rfl
  queue := rfl
  log := rfl
  outside _ _ := rfl
  phase := ⟨[], .nil, by simp, Finset.card_pos.mpr g.workers_nonempty, .inl
    ⟨⟨-1, rfl, .inl rfl, nofun⟩, rfl, fun _ _ => .inr ⟨by simp, rfl⟩⟩⟩

/-! ## Collecting requests -/

variable {out : Outcome α C} {st : KeyState α C} {stage : Stage}

/-- A request that is not the last one is only buffered; the last one answers all. -/
theorem collect_spec {cfg : Config} {req : KVMeta} {ready : KeyState α C → KeyState α C} {n : ℕ}
    (h : collect cfg st req ready = out) (hn : st.books.expectedWorkers = n)
    (hle : st.request.length < n) :
    out.messages = [] ∧
    ((st.request.length + 1 < n ∧ out.responses = [] ∧
        out.state = { st with request := st.request ++ [req] }) ∨
      (st.request.length + 1 = n ∧ out.responses.map (·.reqMeta) = st.request ++ [req] ∧
        out.state.books =
          { (ready { st with request := st.request ++ [req] }).books with request := [] } ∧
        out.state.contents = (ready { st with request := st.request ++ [req] }).contents)) := by
  have he : KeyState.getExpectedWorkers cfg { st with request := st.request ++ [req] } = n :=
    getExpectedWorkers_of_books cfg hn
  unfold collect at h
  simp only [he, length_append, length_singleton] at h
  by_cases hmore : st.request.length + 1 < n
  · rw [if_pos hmore] at h
    subst h
    exact ⟨rfl, .inl ⟨hmore, rfl, rfl⟩⟩
  · rw [if_neg hmore] at h
    subst h
    refine ⟨rfl, .inr ⟨by omega, reqMeta_sendPushResponses _ _, ?_, contents_sendPushResponses _ _⟩⟩
    exact congrArg (fun b : Bookkeeping => { b with request := [] }) (books_sendPushResponses _ _)

variable {g : KeyGroup α} {l l' : Lane α C} {cfg : Config} {key : Key} {w : ℕ} {order : List ℕ}

theorem inRound_start (hb : l.st.books = setupBooks g.workers.card true [])
    (he : l.engine = .waiting) (hq : l.queue = [])
    (hlog : l.trace.filterMap Event.toBarrier = [])
    (hc : ∀ w ∈ g.workers, l.clients w = ⟨.push 0, false⟩)
    (hout : ∀ w ∉ g.workers, l.clients w = {}) : l.InRound g (.start g.workers) where
  books := by
    rw [hb]
    exact Bookkeeping.ext rfl rfl (by simp [roundBooks, setupBooks, Barrier.start]) rfl rfl rfl rfl
  ops := by
    have hpos := Finset.card_pos.mpr g.workers_nonempty
    simp [Lane.pending, he, hq, EngineThread.inFlight, roundOps, pushOps, Barrier.start, hpos.ne]
  clients v := by
    by_cases hv : v ∈ g.workers
    · simp [hc v hv, roundClient, Barrier.start, hv]
    · simp [hout v hv, roundClient, hv]
  log := hlog

/-- Worker `w` is next in a stage in which `order` have sent. -/
structure Lane.Collecting (g : KeyGroup α) (stage : Stage) (order : List ℕ) (w : ℕ)
    (l : Lane α C) : Prop where
  nodup : (order ++ [w]).Nodup
  mem : ∀ v ∈ order ++ [w], v ∈ g.workers
  sender : l.clients w = ⟨stage, false⟩
  waiting : ∀ v ∈ order, l.clients v = ⟨stage, true⟩
  push : stage.isPush = true

theorem Lane.Collecting.clients_more (h : l.Collecting g stage order w) (hrs : out.responses = [])
    (v : ℕ) :
    (l.afterRequest g w out).clients v = if v = w then ⟨stage, true⟩ else l.clients v := by
  by_cases hv : v = w
  · simp [Lane.afterRequest, hrs, deliver, hv, h.sender]
  · simp [Lane.afterRequest, hrs, deliver, hv]

theorem Lane.Collecting.clients_full (h : l.Collecting g stage order w)
    (hlen : order.length + 1 = g.workers.card)
    (hrs : out.responses.map (·.reqMeta) = (order ++ [w]).map (stage.reqMeta g)) (v : ℕ) :
    (l.afterRequest g w out).clients v =
      if v ∈ g.workers then ⟨stage.next g, false⟩ else l.clients v := by
  have hall : ∀ x ∈ order ++ [w],
      Function.update l.clients w ⟨(l.clients w).stage, true⟩ x = ⟨stage, true⟩ := by
    intro x hx
    by_cases hxw : x = w
    · simp [hxw, h.sender]
    · rw [Function.update_of_ne hxw]
      exact h.waiting x (by simpa [hxw] using hx)
  have hw : w ∈ g.workers := h.mem w (by simp)
  refine (deliver_stage hrs h.nodup hall v).trans ?_
  by_cases hv : v ∈ g.workers
  · rw [if_pos hv, if_pos (mem_of_nodup_of_length_eq h.nodup h.mem (by simpa using hlen) hv)]
  · rw [if_neg hv, if_neg fun hvo => hv (h.mem v hvo), Function.update_of_ne]
    rintro rfl
    exact hv hw

variable [Zero α] in
theorem Lane.InSetup.idle (h : l.InSetup g) (hmsg : out.messages = [])
    (hlog : (out.responses.map Event.response).filterMap Event.toBarrier = []) :
    (l.afterRequest g w out).queue = [] ∧
      (l.afterRequest g w out).trace.filterMap Event.toBarrier = [] := by
  simp only [Lane.afterRequest, filterMap_append, h.queue, h.log, hmsg, hlog, append_nil, and_self]

variable [Zero α] in
theorem Lane.Collecting.collect {init : Bool} {ready : KeyState α C → KeyState α C}
    (h : l.Collecting g stage order w) (hs : l.InSetup g) (hlt : order.length < g.workers.card)
    (hb : st.books = setupBooks g.workers.card init (order.map (stage.reqMeta g)))
    (hout : Server.collect cfg st (stage.reqMeta g w) ready = out)
    (hl : l.afterRequest g w out = l') :
    l'.queue = [] ∧ l'.trace.filterMap Event.toBarrier = [] ∧
    ((l'.st.books = setupBooks g.workers.card init ((order ++ [w]).map (stage.reqMeta g)) ∧
        l'.st.contents = st.contents ∧
        (∀ v, l'.clients v = if v = w then ⟨stage, true⟩ else l.clients v) ∧
        (l'.Registering g (order ++ [w]) ∨ l'.Configuring g (order ++ [w]) → l'.InSetup g)) ∨
      ∃ st' : KeyState α C, st'.books = { st.books with request := st'.request } ∧
        st'.contents = st.contents ∧
        l'.st.books = { (ready st').books with request := [] } ∧
        l'.st.contents = (ready st').contents ∧
        (∀ v ∈ g.workers, l'.clients v = ⟨stage.next g, false⟩) ∧
        ∀ v ∉ g.workers, l'.clients v = {}) := by
  subst hl
  have hreq : st.request = order.map (stage.reqMeta g) := congrArg Bookkeeping.request hb
  have hlen : st.request.length = order.length := by rw [hreq, length_map]
  have hn : st.books.expectedWorkers = g.workers.card := by rw [hb]; rfl
  obtain ⟨hmsg, ⟨hmore, hrs, hst⟩ | ⟨hfull, hrs, hst, hcont⟩⟩ :=
    collect_spec hout hn (hlen ▸ hlt)
  · obtain ⟨hqueue, htrace⟩ := hs.idle (w := w) hmsg (by simp [hrs])
    have hcl := h.clients_more hrs
    refine ⟨hqueue, htrace, .inl ⟨?_, by rw [Lane.afterRequest, hst]; rfl, hcl, fun hphase => ?_⟩⟩
    · show out.state.books = _
      rw [hst, map_append, map_singleton, ← hreq]
      exact congrArg
        (fun b : Bookkeeping => { b with request := st.request ++ [stage.reqMeta g w] }) hb
    · refine ⟨hs.engine, hqueue, htrace, fun v hv => ?_, order ++ [w], h.nodup, h.mem,
        by simpa using hlen ▸ hmore, hphase⟩
      rw [hcl, if_neg (by rintro rfl; exact hv (h.mem v (by simp))), hs.outside v hv]
  · have hmap : out.responses.map (·.reqMeta) = (order ++ [w]).map (stage.reqMeta g) := by
      rw [hrs, hreq, map_append, map_singleton]
    have hcl := h.clients_full (hlen ▸ hfull) hmap
    obtain ⟨hqueue, htrace⟩ := hs.idle (w := w) hmsg (filterMap_push h.push hmap)
    exact ⟨hqueue, htrace, .inr ⟨{ st with request := st.request ++ [stage.reqMeta g w] }, rfl, rfl,
      hst, hcont, fun v hv => (hcl v).trans (if_pos hv),
      fun v hv => ((hcl v).trans (if_neg hv)).trans (hs.outside v hv)⟩⟩

/-! ## Steps -/

section Steps

variable [Add α] [Zero α]

/-- The first round begins; without compressor arguments there is no compressor. -/
structure Lane.Started (g : KeyGroup α) (l : Lane α C) : Prop where
  round : l.InRound g (.start g.workers)
  allocated : l.Allocated g
  plain : g.kwargs = none → l.st.compressor = none

theorem handleKey_register (st : KeyState α C) :
    handleKey cfg key (Stage.register.type g) st (Stage.register.reqMeta g w)
        (Stage.register.data cfg g key w) =
      handleGroupRegister st (Stage.register.reqMeta g w) (Stage.register.data cfg g key w) := rfl

theorem handleKey_init (hst : st.store = none) :
    handleKey cfg key (Stage.init.type g) st (Stage.init.reqMeta g w)
        (Stage.init.data cfg g key w) =
      some (handleInitPush cfg (Stage.init.type g) st (Stage.init.reqMeta g w)
        (g.initPayload w).length) := by
  simp [handleKey, Stage.type, Stage.reqMeta, Stage.isPush, Stage.data, hst]

omit [Add α] [Zero α] in
theorem handleGroupRegister_spec
    (h : handleGroupRegister st (Stage.register.reqMeta g w) (Stage.register.data cfg g key w) =
      some out) :
    out.responses.map (·.reqMeta) = [Stage.register.reqMeta g w] ∧ out.messages = [] ∧
      out.state.contents = st.contents ∧
      out.state.books = { st.books with expectedWorkers := g.workers.card } := by
  unfold handleGroupRegister at h
  simp only [Stage.data] at h
  split_ifs at h
  obtain ⟨st1, hreg, h⟩ := Option.bind_eq_some_iff.mp h
  cases h
  refine ⟨rfl, rfl, ?_, ?_⟩
  · refine (contents_sendPushResponse st1 (Stage.register.reqMeta g w)).trans ?_
    unfold KeyState.registerExpectedWorkers at hreg
    split_ifs at hreg <;> cases hreg <;> rfl
  · refine (books_sendPushResponse st1 (Stage.register.reqMeta g w)).trans ?_
    unfold KeyState.registerExpectedWorkers at hreg
    split_ifs at hreg with h1 h2
    · cases hreg; rfl
    · cases hreg
      exact Bookkeeping.ext h2 rfl rfl rfl rfl rfl rfl

variable (h : l.InSetup g) (hnd : order.Nodup) (hmem : ∀ v ∈ order, v ∈ g.workers)
  (hlt : order.length < g.workers.card)

include h hnd hmem hlt in
/-- A worker registers while others are still to come. -/
theorem Lane.InSetup.register (hp : l.Registering g order) (hw : w ∈ g.workers) (hwo : w ∉ order)
    (hc : l.clients w = ⟨.register, false⟩) (hr : l.request cfg g key w = some l') :
    l'.InSetup g := by
  obtain ⟨-, -, out, hout, rfl⟩ := Lane.request_cases.mp hr
  rw [hc] at hout
  rw [handleKey_register] at hout
  obtain ⟨hresp, hmsg, hcont, hb⟩ := handleGroupRegister_spec hout
  obtain ⟨e, hbooks, -, -⟩ := hp.books
  have hcl := deliver_one hc hresp
  obtain ⟨hqueue, htrace⟩ := h.idle (w := w) hmsg (filterMap_push_one rfl hresp)
  refine ⟨h.engine, hqueue, htrace, fun v hv => ?_, order, hnd, hmem, hlt,
    .inl ⟨⟨_, ?_, .inr rfl, fun _ _ _ => rfl⟩, ?_, fun v hv => ?_⟩⟩
  · refine (hcl v).trans ?_
    rw [if_neg (by rintro rfl; exact hv hw), h.outside v hv]
  · rw [hbooks] at hb
    exact hb
  · exact (congrArg Contents.compressor hcont).trans hp.fresh
  · rw [show (l.afterRequest g w out).clients v = _ from hcl v]
    by_cases hv' : v = w
    · subst hv'
      simp [hwo, Stage.next]
    · simpa [hv'] using hp.clients v hv

omit [Add α] in
theorem handleInitPush_eq_collect (cfg : Config) (type : DataHandleType) (st : KeyState α C)
    (req : KVMeta)
    (len : ℕ) : ∃ st' : KeyState α C, st'.books = st.books ∧ st'.compressor = st.compressor ∧
      handleInitPush cfg type st req len = collect cfg st' req fun st =>
        { st with store := some ⟨List.replicate len 0, type.dtype⟩ } := by
  unfold handleInitPush
  split
  · refine ⟨_, ?_, ?_, rfl⟩ <;> rfl
  · exact ⟨st, rfl, rfl, rfl⟩

include h hnd hmem hlt in
/-- An init push is one more of the group's, or the last one, which ends the setup. -/
theorem Lane.InSetup.init (hp : l.Registering g order) (hw : w ∈ g.workers) (hwo : w ∉ order)
    (hc : l.clients w = ⟨.init, false⟩) (hr : l.request cfg g key w = some l') :
    l'.InSetup g ∨ l'.Started g := by
  obtain ⟨-, -, out, hout, rfl⟩ := Lane.request_cases.mp hr
  obtain ⟨e, hbooks, -, hall⟩ := hp.books
  obtain rfl := hall w hw (by rw [hc])
  have hstore : l.st.store = none := by
    have : l.st.store.isSome = false := congrArg Bookkeeping.initialised hbooks
    simpa using this
  rw [hc] at hout
  rw [handleKey_init hstore, Option.some.injEq] at hout
  obtain ⟨st, hb, hcomp, hcol⟩ := handleInitPush_eq_collect cfg (Stage.init.type g) l.st
    (Stage.init.reqMeta g w) (g.initPayload w).length
  rw [hcol] at hout
  have hcollect : l.Collecting g .init order w := by
    refine ⟨?_, by simpa [or_imp, forall_and, hw] using hmem, hc, fun v hv => ?_, rfl⟩
    · rw [← concat_eq_append]
      exact hnd.concat hwo
    · rcases hp.clients v (hmem v hv) with hcl | ⟨hvo, -⟩
      · rw [hcl, decide_eq_true hv]
      · exact absurd hv hvo
  obtain ⟨hqueue, htrace, ⟨hb', hc', hcl, hin⟩ | ⟨st', hb', hc', hst, hcont, hcl, hout'⟩⟩ :=
    hcollect.collect h hlt (hb.trans hbooks) hout rfl
  · refine .inl (hin (.inl ⟨⟨_, hb', .inr rfl, fun _ _ _ => rfl⟩, ?_, fun v hv => ?_⟩))
    · exact (congrArg Contents.compressor hc').trans (hcomp.trans hp.fresh)
    · rw [hcl]
      by_cases hvw : v = w
      · simp [hvw]
      · simpa [hvw] using hp.clients v hv
  · have hbooks' : out.state.books = setupBooks g.workers.card true [] := by
      refine hst.trans ((congrArg (fun b : Bookkeeping =>
        { b with initialised := true, request := [] }) hb').trans ?_)
      rw [hb, hbooks]
      rfl
    have hcomp' : out.state.compressor = none := (congrArg Contents.compressor hcont).trans
      ((congrArg Contents.compressor hc').trans (hcomp.trans hp.fresh))
    have halloc : (l.afterRequest g w out).Allocated g := ⟨w, hw, congrArg Contents.store hcont⟩
    cases hk : g.kwargs with
    | none =>
      refine .inr ⟨inRound_start hbooks' h.engine hqueue htrace (fun v hv => ?_) hout', halloc,
        fun _ => hcomp'⟩
      simp [hcl v hv, Stage.next, hk]
    | some kwargs =>
      refine .inl ⟨h.engine, hqueue, htrace, hout', [], .nil, by simp, by simpa using ⟨w, hw⟩,
        .inr ⟨hbooks', by simp [hk], halloc, fun v hv => ?_⟩⟩
      simp [hcl v hv, Stage.next, hk]

omit [Add α] [Zero α] in
/-- The first arguments create the compressor; the bookkeeping is that of `collect`. -/
theorem handleCompressed_eq_collect {req : KVMeta} {data : KVPairs α}
    (h : handleCompressed cfg st req data = some out) :
    ∃ st' : KeyState α C, st'.books = st.books ∧ st'.store = st.store ∧
      collect cfg st' req id = out := by
  unfold handleCompressed at h
  split at h
  · exact ⟨st, rfl, rfl, some.inj h⟩
  · split at h
    · obtain ⟨c, -, h⟩ := Option.bind_eq_some_iff.mp h
      exact ⟨{ st with compressor := some c }, rfl, rfl, some.inj h⟩
    · cases h

include h hnd hmem hlt in
theorem Lane.InSetup.configure (hp : l.Configuring g order) (hw : w ∈ g.workers)
    (hr : l.request cfg g key w = some l') : l'.InSetup g ∨ l'.Started g := by
  obtain ⟨-, hwait, out, hout, rfl⟩ := Lane.request_cases.mp hr
  have hwo : w ∉ order := by simpa [hp.clients w hw] using hwait
  have hc : l.clients w = ⟨.kwargs, false⟩ := by simp [hp.clients w hw, hwo]
  rw [hc] at hout
  replace hout : handleCompressed cfg l.st (Stage.kwargs.reqMeta g w)
      (Stage.kwargs.data cfg g key w) = some out := hout
  obtain ⟨st, hb, hstore, hcol⟩ := handleCompressed_eq_collect hout
  have hcollect : l.Collecting g .kwargs order w := by
    refine ⟨?_, by simpa [or_imp, forall_and, hw] using hmem, hc, fun v hv => ?_, rfl⟩
    · rw [← concat_eq_append]
      exact hnd.concat hwo
    · rw [hp.clients v (hmem v hv), decide_eq_true hv]
  obtain ⟨v, hv, halloc⟩ := hp.allocated
  obtain ⟨hqueue, htrace, ⟨hb', hc', hcl, hin⟩ | ⟨st', hb', hc', hst, hcont, hcl, hout'⟩⟩ :=
    hcollect.collect h hlt (hb.trans hp.books) hcol rfl
  · refine .inl (hin (.inr ⟨hb', hp.kwargs, ⟨v, hv, ?_⟩, fun v hv => ?_⟩))
    · exact (congrArg Contents.store hc').trans (hstore.trans halloc)
    · rw [hcl]
      by_cases hvw : v = w
      · simp [hvw]
      · simp [hvw, hp.clients v hv]
  · have hbooks' : out.state.books = setupBooks g.workers.card true [] := by
      refine hst.trans ((congrArg (fun b : Bookkeeping => { b with request := [] }) hb').trans ?_)
      rw [hb, hp.books]
      rfl
    have hstore' : out.state.store = st.store :=
      (congrArg Contents.store hcont).trans (congrArg Contents.store hc')
    exact .inr ⟨inRound_start hbooks' h.engine hqueue htrace hcl hout',
      ⟨v, hv, hstore'.trans (hstore.trans halloc)⟩, fun hk => by simpa [hk] using hp.kwargs⟩

/-- Every step keeps the key in its setup or ends it. -/
theorem Lane.InSetup.step (h : l.InSetup g) {a : LaneAction}
    (hs : l.step cfg g key a = some l') : l'.InSetup g ∨ l'.Started g := by
  obtain ⟨order, hnd, hmem, hlt, hp⟩ := h.phase
  cases a with
  | engine =>
    rcases Lane.work_cases hs with ⟨m, q, -, hq, -⟩ | ⟨m, _, _, he, -⟩ | ⟨m, _, _, he, -⟩
    · rw [h.queue] at hq
      cases hq
    · rw [h.engine] at he
      cases he
    · rw [h.engine] at he
      cases he
  | request w =>
    obtain ⟨hw, hwait, -⟩ := Lane.request_cases.mp hs
    rcases hp with hp | hp
    · rcases hp.clients w hw with hc | ⟨hwo, hc⟩
      · have hwo : w ∉ order := by simpa [hc] using hwait
        exact h.init hnd hmem hlt hp hw hwo (by simp [hc, hwo]) hs
      · exact .inl (h.register hnd hmem hlt hp hw hwo hc hs)
    · exact h.configure hnd hmem hlt hp hw hs

end Steps

end MegatronDPU.Server
