import MegatronDPU.Server.Blocking
import MegatronDPU.Server.Sums

/-!
# A job goes on

What a job needs to go on, for keys without a compressor whose tensors keep their lengths. Every
step of a lane raises its potential (`Serves.potential_lt`): eight for every move of a worker, less
what the engine has still to do. Nobody is through with a round that another worker has not begun
(`Serves.lt_begun`), and if no message is left, a worker that is furthest behind does not wait
(`Serves.exists_free`).
-/

namespace MegatronDPU.Server

open Lts Finset Function List Option ServerState

variable {α : Type} [AddCommMonoid α] {C : CompressorClass α} {cfg : Config} {key : Key}
  {g : KeyGroup α} {len w r : ℕ} {b : Barrier g.workers} {l l' : Lane α C}

/-! ## Requests are accepted -/

variable {st : KeyState α C} {req : KVMeta} {m : EngineMessage α} {a : LaneAction}
  {out : Outcome α C}

section

omit [AddCommMonoid α]

theorem handleGroupRegister_isSome
    (h : st.expectedWorkers = -1 ∨ st.expectedWorkers = g.workers.card) :
    ∃ out, handleGroupRegister st (Stage.register.reqMeta g w)
      (Stage.register.data cfg g key w) = some out := by
  have hpos : (0 : ℤ) < g.workers.card := by exact_mod_cast card_pos.mpr g.workers_nonempty
  have hreg : ∃ st', st.registerExpectedWorkers g.workers.card = some st' := by
    unfold KeyState.registerExpectedWorkers
    rcases h with h | h
    · exact ⟨_, if_pos h⟩
    · by_cases h' : st.expectedWorkers = -1
      · exact ⟨_, if_pos h'⟩
      · exact ⟨_, by rw [if_neg h', if_pos h]⟩
  obtain ⟨st', hreg⟩ := hreg
  unfold handleGroupRegister
  simp only [Stage.data]
  rw [if_pos ⟨rfl, trivial, hpos⟩, hreg]
  exact ⟨_, rfl⟩

theorem handlePull_isSome (hcfg : cfg.SyncEngine) (hst : st.store.isSome)
    (hdata : st.isPushFinished = true → (pullData cfg st).isSome) :
    ∃ out, handlePull cfg key st req = some out := by
  unfold handlePull
  rw [if_neg (by rw [isNone_eq_false_iff.mpr hst]; simp),
    if_neg (by simp [hcfg.sync, hcfg.nonBlocking])]
  split_ifs with h
  · obtain ⟨data, hd⟩ := isSome_iff_exists.mp (hdata h.1)
    unfold sendPullResponse
    rw [hd]
    exact ⟨_, rfl⟩
  · exact ⟨_, rfl⟩

end

theorem Lane.Serves.exists_outcome (hcfg : cfg.SyncEngine) (hg : g.Uncompressed len)
    (h : l.Serves g len) (hw : w ∈ g.workers) :
    ∃ out, handleKey cfg key ((l.clients w).stage.type g) l.st ((l.clients w).stage.reqMeta g w)
      ((l.clients w).stage.data cfg g key w) = some out := by
  rcases h with h | ⟨b, hr, hs⟩
  · obtain ⟨order, -, -, -, hp | hp⟩ := h.phase
    · obtain ⟨e, hb, he, -⟩ := hp.books
      rcases hp.clients w hw with hcl | ⟨-, hcl⟩
      · have hnone : l.st.store = none := by
          have hinit : l.st.store.isSome = false := congrArg Bookkeeping.initialised hb
          rwa [isSome_eq_false_iff, isNone_iff_eq_none] at hinit
        rw [hcl]
        exact ⟨_, handleKey_init hnone⟩
      · have hexp : l.st.expectedWorkers = e := congrArg Bookkeeping.expectedWorkers hb
        rw [hcl]
        exact handleGroupRegister_isSome (hexp ▸ he)
    · have hkwargs := hp.kwargs
      rw [hg.kwargs] at hkwargs
      cases hkwargs
  · obtain ⟨stored, hst⟩ := hr.exists_store
    have hpull : ∀ r, ∃ out, handleKey cfg key ((Stage.pull r).type g) l.st
        ((Stage.pull r).reqMeta g w) ((Stage.pull r).data cfg g key w) = some out := by
      intro r
      rw [handleKey_pull]
      refine handlePull_isSome hcfg (by rw [hst]; rfl) fun hfin => ?_
      -- a finished round has been completed
      have hlate : l.st.isPushFinished = decide b.late.Nonempty :=
        congrArg Bookkeeping.isPushFinished hr.books
      rw [hlate, decide_eq_true_iff] at hfin
      obtain ⟨v, hv⟩ := hfin
      rw [hs.pullData hcfg (.inl (b.done_ne_zero_of_late hv)) hst]
      rfl
    rw [hr.clients, roundClient, if_pos hw]
    split_ifs
    · exact hpull _
    · exact hpull _
    · exact isSome_iff_exists.mp
        (handleKey_push_isSome hcfg rfl rfl rfl rfl (by rw [hst]; rfl))

/-! ## The engine works -/

/-- All pending messages write to the store. -/
def Lane.Aimed (l : Lane α C) : Prop := ∀ m ∈ l.pending, m.dst = .store

omit [AddCommMonoid α] in
theorem Lane.Aimed.of_pending_eq_nil (h : l.pending = []) : l.Aimed := by
  intro m hm
  rw [h] at hm
  cases hm

theorem Lane.InSetup.pending (h : l.InSetup g) : l.pending = [] := by
  rw [Lane.pending, h.engine, h.queue]
  rfl

omit [AddCommMonoid α] in
theorem Lane.InRound.pending_start (h : l.InRound g (.start g.workers)) : l.pending = [] := by
  have hpos := card_pos.mpr g.workers_nonempty
  rw [← map_eq_nil_iff, h.ops]
  simp [Barrier.start, roundOps, pushOps, hpos.ne]

/-- Every step of a round leaves the pending messages aimed at the store. -/
theorem Lane.Aimed.step (hcfg : cfg.SyncEngine) (h : l.Aimed) (hr : l.InRound g b)
    (hs : l.step cfg g key a = some l') : l'.Aimed := by
  cases a with
  | request w =>
    have hw := (Lane.request_cases.mp hs).1
    by_cases hl : w ∈ b.late
    · obtain ⟨-, -, he, hq, -⟩ := hr.request_answer hcfg hl hs
      unfold Lane.Aimed Lane.pending
      rw [he, hq]
      exact h
    · by_cases ho : w ∈ b.order
      · obtain ⟨-, -, -, he, hq, -⟩ := hr.request_hold hcfg ho hs
        unfold Lane.Aimed Lane.pending
        rw [he, hq]
        exact h
      · obtain ⟨-, -, he, -, stored, -, hq⟩ := hr.request_push hcfg hw ho hl hs
        intro m hm
        rw [Lane.pending, he, hq, ← append_assoc, mem_append, List.mem_cons] at hm
        rcases hm with hm | rfl | hm
        · exact h m hm
        · rfl
        · split_ifs at hm
          · rw [List.mem_singleton.mp hm]
            rfl
          · cases hm
  | engine =>
    rcases Lane.work_cases hs with ⟨m, queue, he, hq, rfl⟩ | ⟨m, st, m', he, hp, rfl⟩ |
      ⟨m, st, rs, he, hx, rfl⟩
    · intro x hx
      refine h x ?_
      rw [Lane.pending, he, hq]
      exact hx
    · intro x hx
      rcases List.mem_cons.mp hx with rfl | hx
      · rw [(preprocess_spec hp).2.2.2.2]
        exact h m (by rw [pending_popped he]; exact mem_cons_self)
      · exact h x (by rw [pending_popped he]; exact mem_cons_of_mem m hx)
    · intro x hx
      exact h x (by rw [pending_ready he]; exact mem_cons_of_mem m hx)

/-- What keeps a lane from getting stuck. -/
structure Lane.Live (g : KeyGroup α) (len : ℕ) (l : Lane α C) : Prop where
  serves : l.Serves g len
  aimed : l.Aimed

/-- Every step keeps a lane from getting stuck. -/
theorem Lane.Live.step (hcfg : cfg.SyncEngine) (hg : g.Uncompressed len) (h : l.Live g len)
    (ha : l.CopyAfterPulls a) (hs : l.step cfg g key a = some l') : l'.Live g len := by
  refine ⟨h.serves.step hcfg hg ha hs, ?_⟩
  rcases h.serves with hl | ⟨b, hr, -⟩
  · rcases hl.step hs with h' | h'
    · exact .of_pending_eq_nil h'.pending
    · exact .of_pending_eq_nil h'.round.pending_start
  · exact h.aimed.step hcfg hr hs

theorem live_of_reach (hcfg : cfg.SyncEngine) (hg : g.Uncompressed len)
    (h : Reach (lanes cfg C g key) Lane.CopyAfterPulls l) : l.Live g len := by
  refine h.invariant (P := Lane.Live g len) ?_ fun l a l' hl hcopy hs => hl.step hcfg hg hcopy hs
  rintro l rfl
  exact ⟨.inl (inSetup_start g), .of_pending_eq_nil rfl⟩

omit [AddCommMonoid α] in
theorem drain_isSome (h : (pullData cfg st).isSome) (kept reqs : List KVMeta) :
    (drain cfg key st kept reqs).isSome := by
  induction reqs generalizing st kept with
  | nil => rfl
  | cons req reqs ih =>
    obtain ⟨data, hd⟩ := isSome_iff_exists.mp h
    rw [drain]
    split_ifs
    · rfl
    · exact ih h _
    · obtain ⟨⟨st', x⟩, hsend⟩ : ∃ p, sendPullResponse cfg key st req = some p := by
        unfold sendPullResponse
        rw [hd]
        exact ⟨_, rfl⟩
      have hc : (countPull cfg st' req.sender).contents = st.contents :=
        (contents_countPull cfg st' _).trans (sendPullResponse_spec hsend).2.1
      have hdata : (pullData cfg (countPull cfg st' req.sender)).isSome := by
        rw [pullData_congr cfg hc]
        exact h
      obtain ⟨p, hrest⟩ := isSome_iff_exists.mp (ih hdata kept)
      rw [hsend]
      simp only [bind_eq_bind, bind_some]
      split_ifs
      · rfl
      · rw [hrest]
        rfl

theorem Lane.Sums.exists_execute (hcfg : cfg.SyncEngine) (hg : g.Uncompressed len)
    (h : l.Sums g len b) (hr : l.InRound g b) (he : l.engine = .ready m) :
    ∃ p, execute cfg l.st m = some p := by
  obtain ⟨stored, hst, hlen, -⟩ := h.store
  rcases h.pending_cases hr (pending_ready he) with ⟨hlt, hop, -, hv, -⟩ | ⟨-, -, hop, -, -⟩
  · simp only [EngineMessage.view, pushView, Prod.mk.injEq] at hv
    have hpay : (g.payload b.order[b.processed] b.done).length = len :=
      hg.payload _ (b.order_mem _ (getElem_mem hlt)) _
    have hfit : len ≤ stored.tensor.length ∧
        len ≤ (g.payload b.order[b.processed] b.done).length := ⟨hlen.ge, hpay.ge⟩
    have hsrc : l.st.deref m.src = some (g.payload b.order[b.processed] b.done) := by
      rw [hv.1]
      rfl
    rcases hop with hop | hop
    · unfold execute
      rw [hop]
      simp only [hst, hsrc, hv.2.2, reducerCopy, if_pos hfit, bind_eq_bind, bind_some]
      exact ⟨_, rfl⟩
    · unfold execute
      rw [hop]
      simp only [hst, hsrc, hv.2.2, reducerSum, if_pos hfit, bind_eq_bind, bind_some]
      exact ⟨_, rfl⟩
  · unfold execute
    rw [hop]
    have hdata : Server.pullData cfg { l.st with isPushFinished := true } = some stored.tensor :=
      (pullData_congr cfg rfl).trans (h.pullData hcfg (.inr ⟨m, he, hop⟩) hst)
    exact isSome_iff_exists.mp (drain_isSome (by rw [hdata]; rfl) _ _)

theorem Lane.Sums.exists_preprocess (h : l.Sums g len b) (hr : l.InRound g b) (ha : l.Aimed)
    (he : l.engine = .popped m) : ∃ p, preprocess l.st m = some p := by
  have hdst : m.dst = .store := ha m (by rw [pending_popped he]; exact mem_cons_self)
  have hsrc : m.src.isNull = false := by
    rcases h.pending_cases hr (pending_popped he) with ⟨_, -, -, hv, -⟩ | ⟨-, -, -, -, hv⟩
    all_goals
      rw [show m.src = _ from congrArg Prod.fst hv]
      rfl
  unfold preprocess
  rw [if_neg (by rw [hdst, hsrc]; simp [Pointer.isNull])]
  simp only [h.plain]
  split
  · exact ⟨_, rfl⟩
  · exact ⟨_, rfl⟩
  · rename_i hnone _
    cases hnone
  · rename_i hnone _
    cases hnone

/-! ## Threads are found -/

omit [AddCommMonoid α] in
theorem leastLoad_isSome {loads : List ℕ} {minLoad : ℕ} {found : Option ℕ} {i : ℕ}
    (h : found.isSome ∨ ∃ load ∈ loads, load < minLoad) :
    (leastLoad minLoad found i loads).isSome := by
  induction loads generalizing minLoad found i with
  | nil =>
    rcases h with h | ⟨_, h, -⟩
    · exact h
    · cases h
  | cons load loads ih =>
    rw [leastLoad]
    split_ifs with hlt
    · exact ih (.inl rfl)
    · rcases h with h | ⟨x, hx, hlt'⟩
      · exact ih (.inl h)
      · rcases List.mem_cons.mp hx with rfl | hx
        · exact absurd hlt' hlt
        · exact ih (.inr ⟨x, hx, hlt'⟩)

/-- The thread a handler asks for: none while the key is set up, one for a push of data, and the
known one for a pull. -/
def Stage.threadLen (g : KeyGroup α) (w : ℕ) : Stage → Option ℕ
  | .push r => some (g.payload w r).length
  | .pull _ => some 0
  | _ => none

omit [AddCommMonoid α] in
theorem thread_collect {ready : KeyState α C → KeyState α C} :
    (collect cfg st req ready).thread = none := by
  unfold collect
  dsimp only
  split_ifs <;> rfl

theorem thread_handlePush (hcfg : cfg.SyncEngine) {type : DataHandleType} {stored : Store α}
    {data : KVPairs α} {recved : List α} {n : ℕ}
    (h : handlePush cfg key type st stored req data recved n = some out) : out.thread = some n := by
  obtain ⟨⟨st', queued⟩, -, h⟩ := bind_eq_some_iff.mp h
  dsimp only at h
  rw [if_pos hcfg.sync] at h
  split_ifs at h
  · obtain ⟨⟨st', last⟩, -, h⟩ := bind_eq_some_iff.mp h
    cases h
    rfl
  · cases h
    rfl

omit [AddCommMonoid α] in
theorem thread_handlePull (hcfg : cfg.SyncEngine) (h : handlePull cfg key st req = some out) :
    out.thread = some 0 := by
  unfold handlePull at h
  split_ifs at h with hnone hmode
  · simp [hcfg.sync, hcfg.nonBlocking] at hmode
  · obtain ⟨⟨st', x⟩, -, h⟩ := bind_eq_some_iff.mp h
    cases h
    rfl
  · cases h
    rfl

section

variable (hw : w ∈ g.workers) (h : handleKey cfg key ((l.clients w).stage.type g) l.st
  ((l.clients w).stage.reqMeta g w) ((l.clients w).stage.data cfg g key w) = some out)
include hw h

theorem Lane.InRound.thread_outcome (hcfg : cfg.SyncEngine) (hr : l.InRound g b) :
    out.thread = (l.clients w).stage.threadLen g w := by
  obtain ⟨stored, hst⟩ := hr.exists_store
  rw [hr.clients, roundClient, if_pos hw] at h ⊢
  split_ifs at h ⊢
  iterate 2
    · rw [handleKey_pull] at h
      exact thread_handlePull hcfg h
  · rw [handleKey_push hst] at h
    exact thread_handlePush hcfg h

theorem Lane.InSetup.thread_outcome (hg : g.kwargs = none) (hl : l.InSetup g) :
    out.thread = none := by
  obtain ⟨order, -, -, -, hp | hp⟩ := hl.phase
  · obtain ⟨e, hb, -⟩ := hp.books
    rcases hp.clients w hw with hcl | ⟨-, hcl⟩
    · have hinit : l.st.store.isSome = false := congrArg Bookkeeping.initialised hb
      rw [isSome_eq_false_iff, isNone_iff_eq_none] at hinit
      rw [hcl] at h
      rw [handleKey_init hinit] at h
      cases h
      exact thread_collect
    · rw [hcl] at h
      rw [handleKey_register] at h
      unfold handleGroupRegister at h
      simp only [Stage.data] at h
      split_ifs at h
      obtain ⟨_, -, h⟩ := bind_eq_some_iff.mp h
      cases h
      rfl
  · have hkwargs := hp.kwargs
    rw [hg] at hkwargs
    cases hkwargs

theorem Lane.Serves.thread_cases {len n : ℕ} (hcfg : cfg.SyncEngine) (hg : g.Uncompressed len)
    (hserves : l.Serves g len) (hn : out.thread = some n) :
    (∃ r, (l.clients w).stage = .push r ∧ n = len) ∨
      ∃ r, (l.clients w).stage = .pull r ∧ n = 0 := by
  rcases hserves with hl | ⟨b, hr, -⟩
  · rw [hl.thread_outcome hw h hg.kwargs] at hn
    cases hn
  · rw [hr.thread_outcome hw h hcfg] at hn
    cases hstage : (l.clients w).stage <;> rw [hstage] at hn <;> cases hn
    · exact .inl ⟨_, rfl, hg.payload w hw _⟩
    · exact .inr ⟨_, rfl, rfl⟩

end

section

omit [AddCommMonoid α]

theorem dispatch_threads {s s' : ServerState α C} (h : s.dispatch key out = some s') :
    s'.engines = s.engines ∧
    ((s'.hashCache = s.hashCache ∧ s'.accLoad = s.accLoad ∧
        (out.thread = none ∨ (s.hashCache key).isSome)) ∨
      ∃ n tid, out.thread = some n ∧ s.hashCache key = none ∧
        s'.hashCache = update s.hashCache key (some tid) ∧
        s'.accLoad = s.accLoad.modify tid fun load => (load + n) % 2 ^ 64) := by
  rcases dispatch_cases h with ⟨hnone, rfl⟩ | ⟨n, tid, s₁, hn, h₁, -, he, hh, ha, -⟩
  · exact ⟨rfl, .inl ⟨rfl, rfl, .inl hnone⟩⟩
  · rcases getThreadID_cases h₁ with ⟨htid, rfl⟩ | ⟨hnone, -, rfl⟩
    · exact ⟨he, .inl ⟨hh, ha, .inr (by rw [htid]; rfl)⟩⟩
    · exact ⟨he, .inr ⟨n, tid, hn, hnone, hh, ha⟩⟩

/-- A handler finds its thread if the key has one already, or if there is something to push and a
thread is not at its limit. -/
theorem exists_dispatch {s : ServerState α C}
    (h : ∀ n, out.thread = some n → (s.hashCache key).isSome ∨
      0 < n ∧ ∃ load ∈ s.accLoad, load < 2 ^ 64 - 1) :
    ∃ s', s.dispatch key out = some s' := by
  unfold dispatch
  split
  · exact ⟨s, rfl⟩
  · rename_i n hn
    have hid : ∃ p, s.getThreadID key n = some p := by
      unfold getThreadID
      split
      · exact ⟨_, rfl⟩
      · rename_i hnone
        rcases h n hn with hsome | ⟨hpos, hload⟩
        · rw [hnone] at hsome
          cases hsome
        · obtain ⟨tid, htid⟩ : ∃ tid, leastLoad (2 ^ 64 - 1) none 0 s.accLoad = some tid :=
            isSome_iff_exists.mp (leastLoad_isSome (.inr hload))
          rw [if_neg hpos.ne', htid]
          exact ⟨_, rfl⟩
    obtain ⟨⟨s₁, tid⟩, hid⟩ := hid
    rw [hid]
    exact ⟨_, rfl⟩

end

theorem sum_modify_le (loads : List ℕ) (i n : ℕ) :
    (loads.modify i fun load => (load + n) % 2 ^ 64).sum ≤ loads.sum + n := by
  induction loads generalizing i with
  | nil => simp
  | cons load loads ih =>
    cases i with
    | zero =>
      have hmod := Nat.mod_le (load + n) (2 ^ 64)
      rw [modify_zero_cons, List.sum_cons, List.sum_cons]
      omega
    | succ i =>
      rw [modify_succ_cons, List.sum_cons, List.sum_cons]
      have := ih i
      omega

/-- Threads of a job with keys of given lengths: keys that are pushed to have one, and the loads
are no more than the lengths of these keys. -/
structure Job.Threaded (lens : Key → ℕ) (keys : Finset Key) (s : Job α C) : Prop where
  running : ∀ i, s.server.engines i ≠ .stopped
  threads : s.server.accLoad ≠ []
  load : s.server.accLoad.sum ≤ ∑ key ∈ keys with (s.server.hashCache key).isSome, lens key
  hashed : ∀ key w, 0 < (s.clients key w).stage.pushes → (s.server.hashCache key).isSome

section Job

variable {groups : Key → KeyGroup α} {lens : Key → ℕ} {keys : Finset Key} {s t : Job α C}

theorem routed_of_reach (hcfg : cfg.SyncEngine) {G : Job α C → Action → Prop}
    (h : Reach (jobs cfg C groups) G s) : s.server.Routed := by
  refine h.invariant (P := fun s => s.server.Routed) ?_ fun s a t hs _ hstep =>
    (lane_step hs hstep 0).1
  rintro s rfl
  exact routed_start hcfg.plainQueues

omit [AddCommMonoid α] in
theorem threaded_start (hthreads : 0 < cfg.engineThreadNum) :
    Job.Threaded lens keys ({ server := .start cfg } : Job α C) where
  running _ := nofun
  threads := by
    show replicate _ _ ≠ _
    simp [hthreads.ne']
  load := by
    show (replicate _ _).sum ≤ _
    simp
  hashed _ _ h := absurd h (lt_irrefl 0)

theorem Lane.InSetup.stage_zero (h : l.InSetup g) (w : ℕ) :
    (l.clients w).stage.pushes = 0 ∧ (l.clients w).stage.round = 0 := by
  by_cases hw : w ∈ g.workers
  · obtain ⟨order, -, -, -, hp | hp⟩ := h.phase
    · rcases hp.clients w hw with hc | ⟨-, hc⟩ <;> rw [hc] <;> exact ⟨rfl, rfl⟩
    · rw [hp.clients w hw]
      exact ⟨rfl, rfl⟩
  · rw [h.outside w hw]
    exact ⟨rfl, rfl⟩

omit [AddCommMonoid α] in
theorem Lane.InRound.pushes_start (h : l.InRound g (.start g.workers)) (w : ℕ) :
    (l.clients w).stage.pushes = 0 := by
  rw [h.clients, roundClient]
  simp only [Barrier.start, notMem_empty, not_mem_nil, if_false]
  split_ifs <;> rfl

theorem sum_lens_update {hashCache : Key → Option ℕ} {n tid : ℕ} (hkey : key ∈ keys)
    (hnone : hashCache key = none) (hn : n ≤ lens key) :
    (∑ k ∈ keys with (hashCache k).isSome, lens k) + n ≤
      ∑ k ∈ keys with (update hashCache key (some tid) k).isSome, lens k := by
  have hnot : key ∉ keys.filter fun k => (hashCache k).isSome = true := by
    simp [hnone]
  have hset : (keys.filter fun k => (update hashCache key (some tid) k).isSome = true) =
      insert key (keys.filter fun k => (hashCache k).isSome = true) := by
    ext k
    by_cases hk : k = key
    · subst hk
      simp [hkey]
    · simp [hk]
  rw [hset, sum_insert hnot]
  omega

/-- An engine's turn changes neither the threads nor the loads. -/
theorem Job.Threaded.engine {i : ℕ} (hrouted : s.server.Routed) (h : s.Threaded lens keys)
    (hs : s.step cfg groups (.engine i) = some t) : t.Threaded lens keys := by
  have hshows := fun key => (engine_shows hrouted hs key).2
  obtain ⟨⟨server, executed, rs⟩, he, hs⟩ := bind_eq_some_iff.mp hs
  have hserver : server.hashCache = s.server.hashCache ∧ server.accLoad = s.server.accLoad ∧
      ∀ j, server.engines j ≠ .stopped := by
    have hupd : ∀ e : EngineThread α, e ≠ .stopped →
        ∀ j, update s.server.engines i e j ≠ .stopped := by
      intro e he j
      rw [update_apply]
      split_ifs
      · exact he
      · exact h.running j
    rcases engineStep_cases he with ⟨m, q, -, hpop, rfl, -⟩ |
      ⟨m, st, m', -, -, rfl, -⟩ | ⟨m, st, -, -, rfl, -⟩
    · have hq := (PriorityQueue.waitAndPop_of_not_schedule (hrouted.plain i) hpop).1
      have hterm := (hrouted.queued i m (hq ▸ mem_cons_self)).2
      rw [if_neg hterm]
      exact ⟨rfl, rfl, hupd _ nofun⟩
    · exact ⟨rfl, rfl, hupd _ nofun⟩
    · exact ⟨rfl, rfl, hupd _ nofun⟩
  obtain ⟨hh, ha, hrun⟩ := hserver
  have ht : t.server = server := by
    cases executed <;> cases hs <;> rfl
  refine ⟨by rw [ht]; exact hrun, by rw [ht, ha]; exact h.threads,
    by rw [ht, ha, hh]; exact h.load, fun key w hpushes => ?_⟩
  rw [ht, hh]
  rcases hshows key with heq | ⟨w', hreq, -⟩ | ⟨j, -, hkey, -⟩
  · refine h.hashed key w ?_
    rw [← show t.clients key = s.clients key from congrArg Lane.clients heq]
    exact hpushes
  · cases hreq
  · rw [hkey]
    rfl

section

variable (hcfg : cfg.SyncEngine) (hg : (groups key).Uncompressed (lens key))
  (hserves : (s.lane key).Serves (groups key) (lens key))
include hcfg hg hserves

/-- A request gives its key a thread, and the load grows by the key's length. -/
theorem Job.Threaded.request (hrouted : s.server.Routed) (h : s.Threaded lens keys)
    (hkey : key ∈ keys) (hs : s.step cfg groups (.request key w) = some t) :
    t.Threaded lens keys := by
  have hshows := (request_shows hrouted hs key).2
  obtain ⟨hw, -, out, ho, hd, hc, -⟩ := Job.request_cases hs
  obtain ⟨he, hcase⟩ := dispatch_threads hd
  -- a new thread is for a push of the length of the key
  have hlen : ∀ n, out.thread = some n → s.server.hashCache key = none → n ≤ lens key := by
    intro n hn hnone
    rcases hserves.thread_cases hw ho hcfg hg hn with ⟨_, -, rfl⟩ | ⟨_, -, rfl⟩
    · rfl
    · exact Nat.zero_le _
  have hmono : ∀ k, (s.server.hashCache k).isSome → (t.server.hashCache k).isSome := by
    intro k hk
    rcases hcase with ⟨hh', -⟩ | ⟨n, tid, -, -, hh', -⟩
    · rw [hh']
      exact hk
    · rw [hh', update_apply]
      split_ifs
      · rfl
      · exact hk
  refine ⟨fun i => ?_, ?_, ?_, fun k v hpushes => ?_⟩
  · rw [he]
    exact h.running i
  · rcases hcase with ⟨-, ha, -⟩ | ⟨n, tid, -, -, -, ha⟩
    · rw [ha]
      exact h.threads
    · rw [ha, Ne, modify_eq_nil_iff]
      exact h.threads
  · rcases hcase with ⟨hh', ha, -⟩ | ⟨n, tid, hn, hnone, hh', ha⟩
    · rw [ha, hh']
      exact h.load
    · rw [ha, hh']
      exact (sum_modify_le _ tid n).trans ((Nat.add_le_add_right h.load n).trans
        (sum_lens_update hkey hnone (hlen n hn hnone)))
  · by_cases hk : k = key
    swap
    · rw [hc, update_of_ne hk] at hpushes
      exact hmono k (h.hashed k v hpushes)
    subst hk
    rcases hserves with hl | ⟨b, hr, -⟩
    · -- nothing is pushed yet, nor after this request
      have hzero : ((t.lane k).clients v).stage.pushes = 0 := by
        rcases hshows with heq | ⟨w', ha, hreq⟩ | ⟨i, ha, -⟩
        · rw [heq]
          exact (hl.stage_zero v).1
        · rcases hl.step (a := .request w') hreq with h' | h'
          · exact (h'.stage_zero v).1
          · exact h'.round.pushes_start v
        · cases ha
      exact absurd (show (t.clients k v).stage.pushes = 0 from hzero) hpushes.ne'
    · have hthread : out.thread ≠ none := by
        rw [hr.thread_outcome hw ho hcfg, hr.clients, roundClient, if_pos hw]
        split_ifs <;> exact some_ne_none _
      rcases hcase with ⟨hh', -, hnone | hsome⟩ | ⟨n, tid, -, -, hh', -⟩
      · exact absurd hnone hthread
      · rw [hh']
        exact hsome
      · rw [hh', update_self]
        rfl

theorem exists_request (h : s.Threaded lens keys) (hroom : ∑ k ∈ keys, lens k < 2 ^ 64 - 1)
    (hpos : 0 < lens key) (hw : w ∈ (groups key).workers)
    (hc : (s.clients key w).waiting = false) :
    ∃ t, s.step cfg groups (.request key w) = some t := by
  obtain ⟨out, ho⟩ : ∃ out, handleKey cfg key _ _ _ (((s.lane key).clients w).stage.data cfg
      (groups key) key w) = some out := hserves.exists_outcome hcfg hg hw
  have hfree : ∃ load ∈ s.server.accLoad, load < 2 ^ 64 - 1 := by
    obtain ⟨load, hload⟩ := exists_mem_of_ne_nil _ h.threads
    refine ⟨load, hload, ?_⟩
    calc load ≤ s.server.accLoad.sum := le_sum_of_mem hload
      _ ≤ _ := h.load
      _ ≤ ∑ k ∈ keys, lens k := sum_le_sum_of_subset (filter_subset _ _)
      _ < 2 ^ 64 - 1 := hroom
  have hthread : ∀ n, out.thread = some n → ((s.server.setKey key out.state).hashCache key).isSome ∨
      0 < n ∧ ∃ load ∈ (s.server.setKey key out.state).accLoad, load < 2 ^ 64 - 1 := by
    intro n hn
    rcases hserves.thread_cases hw ho hcfg hg hn with ⟨_, -, rfl⟩ | ⟨r, hstage, -⟩
    · exact .inr ⟨hpos, hfree⟩
    · exact .inl (h.hashed key w ((congrArg Stage.pushes hstage).symm ▸ Nat.succ_pos r))
  obtain ⟨server, hd⟩ := exists_dispatch hthread
  have hhandle : s.server.handle cfg ((s.clients key w).stage.reqMeta (groups key) w)
      ((s.clients key w).stage.data cfg (groups key) key w) = some (server, out.responses) := by
    have ho' : handleKey cfg key ((s.clients key w).stage.type (groups key))
        (s.server.keyStates key) ((s.clients key w).stage.reqMeta (groups key) w)
        ((s.clients key w).stage.data cfg (groups key) key w) = some out := ho
    unfold handle
    rw [Stage.keys_data]
    simp only [Stage.depair_cmd, decodeKey_encodeKey, bind_eq_bind, bind_some, ho', hd]
  unfold Job.step
  dsimp only
  rw [if_pos ⟨hw, hc⟩, hhandle]
  exact ⟨_, rfl⟩

end

theorem exists_engine (hcfg : cfg.SyncEngine) (hg : ∀ k, (groups k).Uncompressed (lens k))
    (hlive : ∀ k, (s.lane k).Live (groups k) (lens k)) (hrouted : s.server.Routed)
    (hrun : ∀ i, s.server.engines i ≠ .stopped) (hp : (s.lane key).pending ≠ []) :
    ∃ i t, s.step cfg groups (.engine i) = some t := by
  obtain ⟨i, hi⟩ : ∃ i, s.server.hashCache key = some i := by
    refine ne_none_iff_exists'.mp fun hnone => hp ?_
    simp [Lane.pending, Job.lane, laneEngine, laneQueue, hnone,
      EngineThread.inFlight]
  refine ⟨i, ?_⟩
  suffices hstep : ∃ p, s.server.engineStep cfg i = some p by
    obtain ⟨⟨server, executed, rs⟩, hstep⟩ := hstep
    unfold Job.step
    dsimp only
    rw [hstep]
    cases executed <;> exact ⟨_, rfl⟩
  -- a lane whose thread has a message is in its rounds
  have hround : ∀ k, (s.lane k).pending ≠ [] →
      ∃ b, (s.lane k).InRound (groups k) b ∧ (s.lane k).Sums (groups k) (lens k) b := by
    intro k hk
    rcases (hlive k).serves with hl | hr
    · exact absurd hl.pending hk
    · exact hr
  unfold engineStep
  cases he : s.server.engines i with
  | waiting =>
    have hq : (s.server.queues i).queue ≠ [] := by
      intro hnil
      apply hp
      simp [Lane.pending, Job.lane, laneEngine, laneQueue, hi, he,
        EngineThread.ofKey, EngineThread.inFlight, PriorityQueue.ofKey, hnil]
    obtain ⟨m, rest, hq⟩ := exists_cons_of_ne_nil hq
    unfold PriorityQueue.waitAndPop
    rw [hrouted.plain i, if_neg Bool.false_ne_true, hq]
    exact ⟨_, rfl⟩
  | popped m =>
    have hkey := hrouted.popped i m he
    have hlane : (s.lane m.key).engine = .popped m.eraseId :=
      (laneEngine_of_hashCache hkey).trans (by simp [he, EngineThread.ofKey])
    obtain ⟨b, hr, hs⟩ := hround m.key (by rw [pending_popped hlane]; exact cons_ne_nil _ _)
    obtain ⟨⟨st, m'⟩, hpre⟩ := hs.exists_preprocess hr (hlive m.key).aimed hlane
    rw [preprocess_eraseId] at hpre
    obtain ⟨⟨st', m''⟩, hpre, -⟩ := map_eq_some_iff.mp hpre
    dsimp only
    rw [show preprocess (s.server.keyStates m.key) m = _ from hpre]
    exact ⟨_, rfl⟩
  | ready m =>
    have hkey := hrouted.ready i m he
    have hlane : (s.lane m.key).engine = .ready m.eraseId :=
      (laneEngine_of_hashCache hkey).trans (by simp [he, EngineThread.ofKey])
    obtain ⟨b, hr, hs⟩ := hround m.key (by rw [pending_ready hlane]; exact cons_ne_nil _ _)
    obtain ⟨⟨st, rs⟩, hex⟩ := hs.exists_execute hcfg (hg m.key) hr hlane
    rw [execute_eraseId] at hex
    dsimp only
    rw [show execute cfg (s.server.keyStates m.key) m = _ from hex]
    exact ⟨_, rfl⟩
  | stopped => exact absurd he (hrun i)

end Job

/-! ## A potential -/

/-- Counts the requests and answers of a client. -/
def Client.progress (c : Client) : ℕ := 2 * c.stage.timestamp + c.waiting.toNat

def EngineThread.cost : EngineThread α → ℕ
  | .popped _ => 2
  | .ready _ => 1
  | _ => 0

/-- The engine steps that are left. -/
def Lane.cost (l : Lane α C) : ℕ := 3 * l.queue.length + l.engine.cost

def Lane.progress (g : KeyGroup α) (l : Lane α C) : ℕ := ∑ w ∈ g.workers, (l.clients w).progress

section

omit [AddCommMonoid α]

theorem timestamp_lt_next (stage : Stage) : stage.timestamp < (stage.next g).timestamp := by
  cases stage with
  | init =>
    unfold Stage.next
    split_ifs <;> decide
  | push r => exact Nat.lt_succ_self _
  | pull r =>
    simp only [Stage.next, Stage.timestamp]
    omega
  | _ => simp [Stage.next, Stage.timestamp]

theorem progress_le_receive (c : Client) (x : Response α) :
    c.progress ≤ (c.receive g x).progress := by
  unfold Client.receive
  split_ifs with h
  · have hnext := timestamp_lt_next (g := g) c.stage
    simp only [Client.progress, h.1, Bool.toNat_true, Bool.toNat_false]
    omega
  · exact le_rfl

theorem deliver_induction {P : Client → Prop} (hP : ∀ c x, P c → P (c.receive g x)) {v : ℕ}
    (rs : List (Response α)) {clients : ℕ → Client} (h : P (clients v)) :
    P (deliver g clients rs v) := by
  induction rs generalizing clients with
  | nil => exact h
  | cons x rs ih =>
    refine ih ?_
    rw [update_apply]
    split_ifs with hv
    · exact hP _ x (hv ▸ h)
    · exact h

theorem progress_le_deliver (clients : ℕ → Client) (rs : List (Response α)) (v : ℕ) :
    (clients v).progress ≤ (deliver g clients rs v).progress :=
  deliver_induction (P := fun c => _ ≤ c.progress)
    (fun c x h => h.trans (progress_le_receive c x)) rs le_rfl

theorem Lane.cost_of_pending (h : l.pending = []) : l.cost = 0 := by
  obtain ⟨he, hq⟩ := append_eq_nil_iff.mp h
  rw [Lane.cost, hq]
  cases hengine : l.engine with
  | popped | ready =>
    rw [hengine] at he
    cases he
  | _ => rfl

theorem progress_request (hw : w ∈ g.workers) (hc : (l.clients w).waiting = false)
    (out : Outcome α C) : l.progress g + 1 ≤ (l.afterRequest g w out).progress g := by
  have hsum : l.progress g + 1 = ∑ v ∈ g.workers,
      (update l.clients w ⟨(l.clients w).stage, true⟩ v).progress := by
    have hself : (l.clients w).progress + 1 = (⟨(l.clients w).stage, true⟩ : Client).progress := by
      simp [Client.progress, hc]
    rw [Lane.progress, ← add_sum_erase _ _ hw, ← add_sum_erase _ _ hw, update_self, ← hself]
    have hrest : ∑ v ∈ g.workers.erase w, (l.clients v).progress = ∑ v ∈ g.workers.erase w,
        (update l.clients w ⟨(l.clients w).stage, true⟩ v).progress :=
      sum_congr rfl fun v hv => by rw [update_of_ne (ne_of_mem_erase hv)]
    omega
  rw [hsum]
  exact sum_le_sum fun v _ => progress_le_deliver _ _ v

end

theorem Lane.Serves.potential_lt (hcfg : cfg.SyncEngine) (h : l.Serves g len)
    (hs : l.step cfg g key a = some l') :
    8 * l.progress g + l'.cost < 8 * l'.progress g + l.cost := by
  cases a with
  | request w =>
    obtain ⟨hw, hc, out, -, hl'⟩ := Lane.request_cases.mp hs
    have hprogress : l.progress g + 1 ≤ l'.progress g := hl' ▸ progress_request hw hc out
    have hcost : l'.cost ≤ l.cost + 6 := by
      rcases h with hl | ⟨b, hr, -⟩
      · have hzero : l'.cost = 0 := by
          rcases hl.step hs with h' | h'
          · exact Lane.cost_of_pending h'.pending
          · exact Lane.cost_of_pending h'.round.pending_start
        omega
      · have hsame : l'.engine = l.engine → l'.queue = l.queue → l'.cost ≤ l.cost + 6 := by
          intro he hq
          rw [Lane.cost, he, hq]
          exact Nat.le_add_right _ _
        by_cases hl : w ∈ b.late
        · obtain ⟨-, -, he, hq, -⟩ := hr.request_answer hcfg hl hs
          exact hsame he hq
        · by_cases ho : w ∈ b.order
          · obtain ⟨-, -, -, he, hq, -⟩ := hr.request_hold hcfg ho hs
            exact hsame he hq
          · obtain ⟨-, -, he, -, stored, -, hq⟩ := hr.request_push hcfg hw ho hl hs
            rw [Lane.cost, Lane.cost, he, hq, length_append, length_cons]
            split_ifs <;> simp only [length_nil, length_singleton] <;> omega
    omega
  | engine =>
    rcases Lane.work_cases hs with ⟨m, queue, he, hq, rfl⟩ | ⟨m, st, m', he, hp, rfl⟩ |
      ⟨m, st, rs, he, hx, rfl⟩
    · simp only [Lane.progress, Lane.cost, he, hq, length_cons, EngineThread.cost]
      omega
    · simp only [Lane.progress, Lane.cost, he, EngineThread.cost]
      omega
    · have hprogress : l.progress g ≤ ∑ v ∈ g.workers, (deliver g l.clients rs v).progress :=
        sum_le_sum fun v _ => progress_le_deliver _ _ v
      simp only [Lane.progress, Lane.cost, Lane.executed, he, EngineThread.cost] at hprogress ⊢
      omega

/-! ## Rounds begun -/

/-- The rounds in which a worker has made a request; the setup belongs to round `0`. -/
def Client.begun (c : Client) : ℕ :=
  match c.stage with
  | .register => c.waiting.toNat
  | .init => 1
  | .kwargs => 1
  | .push r => if c.waiting then r + 1 else max r 1
  | .pull r => r + 1

theorem begun_waiting (stage : Stage) : (⟨stage, true⟩ : Client).begun = stage.round + 1 := by
  cases stage <;> rfl

theorem round_le_begun (c : Client) : c.stage.round ≤ c.begun := by
  unfold Client.begun
  cases c.stage with
  | push r =>
    dsimp only [Stage.round]
    split_ifs <;> omega
  | _ => simp [Stage.round]

theorem timestamp_le_begun (c : Client) : c.stage.timestamp ≤ 2 * c.begun + 3 := by
  unfold Client.begun
  cases c.stage with
  | push r =>
    dsimp only [Stage.timestamp]
    split_ifs <;> omega
  | _ =>
    dsimp only [Stage.timestamp]
    omega

section

omit [AddCommMonoid α]

theorem begun_receive (c : Client) (x : Response α) : (c.receive g x).begun = c.begun := by
  unfold Client.receive
  split_ifs with h
  · obtain ⟨stage, waiting⟩ := c
    obtain rfl : waiting = true := h.1
    rw [begun_waiting]
    cases stage with
    | init =>
      dsimp only [Stage.next]
      split_ifs <;> rfl
    | pull r => exact Nat.max_eq_left (Nat.succ_pos r)
    | _ => rfl
  · rfl

theorem begun_deliver (clients : ℕ → Client) (rs : List (Response α)) (v : ℕ) :
    (deliver g clients rs v).begun = (clients v).begun :=
  deliver_induction (fun c x h => (begun_receive c x).trans h) rs rfl

theorem round_le_receive (c : Client) (x : Response α) :
    c.stage.round ≤ (c.receive g x).stage.round := by
  unfold Client.receive
  split_ifs
  · cases c.stage <;> simp [Stage.next, Stage.round]
  · exact le_rfl

theorem round_le_deliver (clients : ℕ → Client) (rs : List (Response α)) (v : ℕ) :
    (clients v).stage.round ≤ (deliver g clients rs v).stage.round :=
  deliver_induction (P := fun c => _ ≤ c.stage.round)
    (fun c x h => h.trans (round_le_receive c x)) rs le_rfl

end

theorem Lane.begun_work (h : l.work cfg g = some l') (v : ℕ) :
    (l'.clients v).begun = (l.clients v).begun ∧
      (l.clients v).stage.round ≤ (l'.clients v).stage.round := by
  rcases Lane.work_cases h with ⟨_, _, -, -, rfl⟩ | ⟨_, _, _, -, -, rfl⟩ | ⟨_, _, rs, -, -, rfl⟩
  · exact ⟨rfl, le_rfl⟩
  · exact ⟨rfl, le_rfl⟩
  · exact ⟨begun_deliver _ rs v, round_le_deliver _ rs v⟩

theorem Lane.Serves.lt_begun (h : l.Serves g len) {v : ℕ} (hv : v ∈ g.workers)
    (hr : r < (l.clients w).stage.round) : r < (l.clients v).begun := by
  rcases h with hl | ⟨b, hb, -⟩
  · rw [(hl.stage_zero w).2] at hr
    cases hr
  · have hdone : r < b.done := by
      refine hr.trans_le ?_
      rw [hb.clients, roundClient]
      split_ifs
      · exact Nat.sub_le _ _
      · exact le_rfl
      · exact le_rfl
      · exact Nat.zero_le _
    rw [hb.clients, roundClient, if_pos hv]
    split_ifs <;> simp only [Client.begun, Bool.false_eq_true, if_false] <;> omega

omit [AddCommMonoid α] in
theorem Lane.InRound.exists_order (h : l.InRound g b) (hp : l.pending ≠ []) : ∃ v, v ∈ b.order := by
  refine exists_mem_of_ne_nil _ fun hnil => hp ?_
  have hpos := card_pos.mpr g.workers_nonempty
  rw [← map_eq_nil_iff, h.ops, hnil]
  simp [roundOps, pushOps, hpos.ne]

theorem Lane.Serves.exists_free (h : l.Serves g len) (hp : l.pending = []) :
    ∃ v ∈ g.workers, (l.clients v).waiting = false ∧
      ∀ w ∈ g.workers, (l.clients v).stage.round ≤ (l.clients w).stage.round := by
  have hmissing : ∀ order : List ℕ, order.length < g.workers.card → ∃ v ∈ g.workers, v ∉ order := by
    intro order hlt
    obtain ⟨v, hv, hnot⟩ := exists_mem_notMem_of_card_lt_card
      ((toFinset_card_le order).trans_lt hlt)
    exact ⟨v, hv, fun h => hnot (List.mem_toFinset.mpr h)⟩
  rcases h with hl | ⟨b, hb, -⟩
  · obtain ⟨order, -, -, hlt, hphase⟩ := hl.phase
    obtain ⟨v, hv, hnot⟩ := hmissing order hlt
    refine ⟨v, hv, ?_, fun w _ => (hl.stage_zero v).2.trans_le (Nat.zero_le _)⟩
    rcases hphase with hphase | hphase
    · rcases hphase.clients v hv with hc | ⟨-, hc⟩
      · rw [hc]
        exact decide_eq_false hnot
      · rw [hc]
    · rw [hphase.clients v hv]
      exact decide_eq_false hnot
  · -- a full round has its `ALL_RECV` still to come
    have hlt : b.order.length < g.workers.card := by
      refine b.order_length_le.lt_of_ne fun hfull => ?_
      have hops := hb.ops
      have hle := b.processed_le
      rw [hp, roundOps, if_pos hfull, map_nil, eq_comm, drop_eq_nil_iff,
        length_append, length_pushOps, length_singleton] at hops
      omega
    by_cases hlate : b.late.Nonempty
    · obtain ⟨v, hv⟩ := hlate
      refine ⟨v, b.late_subset hv, ?_, fun w hw => ?_⟩
      · rw [hb.client_late hv]
      · rw [hb.client_late hv, hb.clients, roundClient, if_pos hw]
        split_ifs
        · exact le_rfl
        · exact Nat.sub_le _ _
        · exact Nat.sub_le _ _
    · rw [not_nonempty_iff_eq_empty] at hlate
      obtain ⟨v, hv, hnot⟩ := hmissing b.order hlt
      have hclients : ∀ w ∈ g.workers, (l.clients w).stage.round = b.done := by
        intro w hw
        rw [hb.clients, roundClient, if_pos hw, hlate, if_neg (notMem_empty w)]
        split_ifs <;> rfl
      refine ⟨v, hv, ?_, fun w hw => by rw [hclients v hv, hclients w hw]⟩
      rw [hb.clients, roundClient, if_pos hv, hlate, if_neg (notMem_empty v), if_neg hnot]

variable {groups : Key → KeyGroup α} {lens : Key → ℕ} {keys : Finset Key} {s : Job α C}

/-- Requests are for these keys, and no copy comes ahead of the pulls. -/
def Within (keys : Finset Key) (s : Job α C) (a : Action) : Prop :=
  (∀ key, CopyAfterPulls key s a) ∧ ∀ key w, a = .request key w → key ∈ keys

/-- What a worker asks next is accepted, and if all workers of a key wait, an engine goes on. -/
theorem never_stuck (hcfg : cfg.SyncEngine) (hnum : 0 < cfg.engineThreadNum)
    (hg : ∀ k, (groups k).Uncompressed (lens k)) (hroom : ∑ k ∈ keys, lens k < 2 ^ 64 - 1)
    (h : Reach (jobs cfg C groups) (Within keys) s) (hpos : 0 < lens key) :
    (∀ w ∈ (groups key).workers, (s.clients key w).waiting = false →
      ∃ t, s.step cfg groups (.request key w) = some t) ∧
    ((∀ w ∈ (groups key).workers, (s.clients key w).waiting = true) →
      ∃ i t, s.step cfg groups (.engine i) = some t) := by
  have hlive {s : Job α C} (h : Reach (jobs cfg C groups) (Within keys) s) (k : Key) :=
    live_of_reach hcfg (hg k) (reach_lane hcfg.plainQueues (fun _ _ _ => trivial)
      (fun _ _ hi hc => (hc.1 k).lane hi) h)
  have hthread : s.Threaded lens keys := by
    induction h with
    | init hs => exact hs ▸ threaded_start hnum
    | @step s t a hs ha hstep ih =>
      have hr := routed_of_reach hcfg hs
      cases a with
      | request k w => exact ih.request hcfg (hg k) (hlive hs k).serves hr (ha.2 k w rfl) hstep
      | engine i => exact ih.engine hr hstep
  have hserves := (hlive h key).serves
  refine ⟨fun w hw => exists_request hcfg (hg key) hserves hthread hroom hpos hw, fun hwait => ?_⟩
  have hpending : (s.lane key).pending ≠ [] := by
    intro hp
    obtain ⟨v, hv, hfree, -⟩ := hserves.exists_free hp
    exact absurd (hfree.symm.trans (hwait v hv)) Bool.false_ne_true
  exact exists_engine hcfg hg (hlive h) (routed_of_reach hcfg h) hthread.running hpending

/-- One worker waits for its pull and the other may ask; then both wait, and the engine goes on. -/
theorem never_stuck_pair : ∃ s t : Job ℤ noCompressor,
    Reach (jobs {} noCompressor fun _ => pairGroup) (Within {5}) t ∧
      (s.clients 5 0).waiting = true ∧ (s.clients 5 1).waiting = false ∧
      s.step {} (fun _ => pairGroup) (.request 5 1) = some t ∧
      (∀ w ∈ pairGroup.workers, (t.clients 5 w).waiting = true) ∧
      ∃ i u, t.step {} (fun _ => pairGroup) (.engine i) = some u := by
  have hwithin : ∀ (s : Job ℤ noCompressor) a, a ∈ [Action.request 5 0, .request 5 1] →
      Within {5} s a := by
    intro s a ha
    rcases List.mem_pair.mp ha with rfl | rfl
    all_goals
      refine ⟨fun _ => trivial, fun key w heq => ?_⟩
      cases heq
      exact Finset.mem_singleton_self 5
  have hstuck {s : Job ℤ noCompressor}
      (hs : Reach (jobs {} noCompressor fun _ => pairGroup) (Within {5}) s) :
      (∀ w ∈ pairGroup.workers, (s.clients 5 w).waiting = false → _) ∧ (_ → _) :=
    never_stuck ⟨rfl, rfl, rfl⟩ (by decide)
      (fun _ => ⟨rfl, fun _ _ => rfl, fun _ _ _ => rfl⟩)
      (by decide : ∑ _k ∈ ({5} : Finset Key), 1 < _) hs Nat.one_pos
  obtain ⟨s, hs, hzero, hone, hnext⟩ := exists_reach (S := jobs {} noCompressor fun _ => pairGroup)
    (G := fun _ a => a ∈ [Action.request 5 0, .request 5 1])
    (P := fun s => (s.clients 5 0).waiting = true ∧ (s.clients 5 1).waiting = false ∧
      ∃ t ∈ s.step {} (fun _ => pairGroup) (.request 5 1),
        ∀ w ∈ pairGroup.workers, (t.clients 5 w).waiting = true)
    (.init rfl) (pairPushes ++ [.request 5 0]) (by decide +kernel)
  have hs := hs.mono hwithin
  obtain ⟨t, hstep⟩ := (hstuck hs).1 1 (by decide) hone
  obtain ⟨t', hstep', hwait⟩ := hnext
  obtain rfl := Option.some.inj (hstep.symm.trans hstep')
  have ht := hs.step (hwithin s (.request 5 1) (by decide)) hstep
  exact ⟨s, t, ht, hzero, hone, hstep, hwait, (hstuck ht).2 hwait⟩

end MegatronDPU.Server
