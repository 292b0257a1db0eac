import MegatronDPU.Server.Setup

/-!
# Every pull is answered once

The bookkeeping of synchronous rounds is right in every interleaving, with or without a
compressor (`pullsOnce_of_reach`). The facts are those of the barrier a lane is read off
(`lane_inv`); `Job.lane` carries them over to the whole server.
-/

namespace MegatronDPU.Server

open Lts List Bookkeeping Event

variable {α : Type} {C : CompressorClass α} {g : KeyGroup α} {l l' : Lane α C} {cfg : Config}
  {key : Key}

/-! ## Lanes -/

section Lanes

variable [Add α] [Zero α]

/-- A round is followed by a round. -/
theorem Lane.InRound.step {b : Barrier g.workers} (hcfg : cfg.SyncEngine) (h : l.InRound g b)
    {a : LaneAction} (hs : l.step cfg g key a = some l') : ∃ b', l'.InRound g b' := by
  cases a with
  | request w =>
    have hw := (Lane.request_cases.mp hs).1
    by_cases hl : w ∈ b.late
    · exact ⟨_, (h.request_answer hcfg hl hs).1⟩
    · by_cases ho : w ∈ b.order
      · obtain ⟨hh, h', -⟩ := h.request_hold hcfg ho hs
        exact ⟨_, h'⟩
      · exact ⟨_, (h.request_push hcfg hw ho hl hs).1⟩
  | engine =>
    rcases Lane.work_cases hs with ⟨m, queue, he, hq, rfl⟩ | ⟨m, st, m', he, hp, rfl⟩ |
      ⟨m, st, rs, he, hx, rfl⟩
    · exact ⟨b, h.pop he hq⟩
    · exact ⟨b, h.prepare he hp⟩
    · rcases h.pending_cases (pending_ready he) with ⟨hlt, -⟩ | ⟨-, -, hop, -⟩
      · exact ⟨_, (h.execute_push he hx hlt).2⟩
      · obtain ⟨hfull, h', -⟩ := h.execute_allRecv he hx hop
        exact ⟨_, h'⟩

theorem lane_inv (hcfg : cfg.SyncEngine) (h : Reach (lanes cfg C g key) Free l) :
    l.InSetup g ∨ ∃ b, l.InRound g b := by
  refine h.invariant (P := fun l => l.InSetup g ∨ ∃ b, l.InRound g b) ?_ ?_
  · rintro l rfl
    exact .inl (inSetup_start g)
  · rintro l a l' (hl | ⟨b, hl⟩) - hs
    · rcases hl.step hs with h' | h'
      · exact .inl h'
      · exact .inr ⟨_, h'.round⟩
    · exact .inr (hl.step hcfg hs)

end Lanes

/-! ## Reading the trace -/

/-- The event answers the pull of the worker in the round. -/
def Event.isAnswer (w round : ℕ) : Event α → Bool
  | .response r => r.reqMeta.push = false ∧ r.reqMeta.sender = w ∧
      r.reqMeta.timestamp = (Stage.pull round).timestamp
  | .allRecv => false

def Event.isAllRecv : Event α → Bool
  | .response _ => false
  | .allRecv => true

theorem isAnswer_iff {w round : ℕ} {e : Event α} :
    e.isAnswer w round = true ↔ e.toBarrier = some (.answered w round) := by
  cases e with
  | allRecv => simp [isAnswer, toBarrier]
  | response r =>
    have hans : (response r).isAnswer w round = true ↔ r.reqMeta.push = false ∧
        r.reqMeta.sender = w ∧ r.reqMeta.timestamp = 2 * round + 4 := decide_eq_true_iff
    rw [hans, toBarrier]
    split_ifs with h
    · rw [Option.some.injEq, BarrierEvent.answered.injEq]
      constructor
      · rintro ⟨-, hs, ht⟩
        exact ⟨hs, by omega⟩
      · rintro ⟨hs, ht⟩
        exact ⟨h.1, hs, by omega⟩
    · refine ⟨fun hr => absurd ⟨hr.1, by omega, by omega⟩ h, fun hr => by cases hr⟩

theorem isAllRecv_iff {e : Event α} : e.isAllRecv = true ↔ e.toBarrier = some .completed := by
  cases e with
  | allRecv => simp [isAllRecv, toBarrier]
  | response r =>
    simp only [isAllRecv, toBarrier, Bool.false_eq_true, false_iff]
    split_ifs <;> simp

theorem count_filterMap_toBarrier {p : Event α → Bool} {e : BarrierEvent ℕ}
    (hp : ∀ x, p x = true ↔ x.toBarrier = some e) (trace : List (Event α)) :
    (trace.filterMap toBarrier).count e = trace.countP p := by
  induction trace with
  | nil => rfl
  | cons x trace ih =>
    cases hx : x.toBarrier with
    | none =>
      have : p x = false := by
        rw [← Bool.not_eq_true, hp, hx]
        simp
      rw [filterMap_cons_none hx, ih, countP_cons_of_neg (by simp [this])]
    | some y =>
      rw [filterMap_cons_some hx, count_cons, ih, countP_cons]
      congr 1
      by_cases hy : y = e
      · simp [hy, (hp x).mpr (hx.trans (congrArg some hy))]
      · have : p x = false := by
          rw [← Bool.not_eq_true, hp, hx]
          simpa using hy
        simp [hy, this]

/-! ## The rounds of a key -/

/-- The events of a key. -/
def ofKey (trace : List (Key × Event α)) (key : Key) : List (Event α) :=
  (trace.filter (·.1 = key)).map (·.2)

/-- The pushes that a client has sent. -/
def Stage.pushes : Stage → ℕ
  | .push r => r
  | .pull r => r + 1
  | _ => 0

/-- The state of a key, its workers and its events between two steps. -/
structure PullsOnce (g : KeyGroup α) (st : KeyState α C) (clients : ℕ → Client)
    (trace : List (Event α)) : Prop where
  /-- `pull_cnt` counts the senders seen and stays below the number of workers. -/
  count : st.pullCnt = st.seenSender.card
  below : st.pullCnt < g.workers.card
  /-- One answer for each round a worker is through with, none for the others. -/
  once : ∀ w r, trace.countP (·.isAnswer w r) = if r < (clients w).stage.round then 1 else 0
  /-- The `k`-th `ALL_RECV` comes after all pushes of `k` rounds. -/
  whole : ∀ w ∈ g.workers, trace.countP (·.isAllRecv) ≤ (clients w).stage.pushes
  /-- No answer before the `ALL_RECV` of its round. -/
  after : ∀ pre e post w r, trace = pre ++ e :: post → e.isAnswer w r = true →
    r < pre.countP (·.isAllRecv)
  /-- The queued pulls are the outstanding ones, each of them once. -/
  nodup : st.qPullReqmeta.Nodup
  queued : ∀ req, req ∈ st.qPullReqmeta ↔ ∃ w ∈ g.workers, ∃ r,
    req = (Stage.pull r).reqMeta g w ∧ clients w = ⟨.pull r, true⟩
  /-- No pull waits for a round whose `ALL_RECV` is processed. -/
  early : ∀ w ∈ g.workers, ∀ r, clients w = ⟨.pull r, true⟩ → trace.countP (·.isAllRecv) ≤ r

theorem Lane.InSetup.pullsOnce [Zero α] (h : l.InSetup g) : PullsOnce g l.st l.clients l.trace := by
  obtain ⟨order, -, -, -, hp⟩ := h.phase
  have hbooks : ∃ e i reqs, l.st.books = setupBooks e i reqs := by
    rcases hp with hp | hp
    · obtain ⟨e, hb, -⟩ := hp.books
      exact ⟨e, _, _, hb⟩
    · exact ⟨_, _, _, hp.books⟩
  have hstage : ∀ w, (l.clients w).stage ∈ [Stage.register, .init, .kwargs] := by
    intro w
    by_cases hw : w ∈ g.workers
    · rcases hp with hp | hp
      · rcases hp.clients w hw with hc | ⟨-, hc⟩ <;> simp [hc]
      · simp [hp.clients w hw]
    · simp [h.outside w hw]
  have hround : ∀ w, (l.clients w).stage.round = 0 := by
    intro w
    rcases mem_cons.mp (hstage w) with hs | hs
    · rw [hs]; rfl
    · rcases mem_pair.mp hs with hs | hs <;> rw [hs] <;> rfl
  have hpull : ∀ w r, l.clients w ≠ ⟨.pull r, true⟩ := by
    intro w r hc
    have := hstage w
    simp [hc] at this
  obtain ⟨e, i, reqs, hb⟩ := hbooks
  have hq : l.st.qPullReqmeta = [] := congrArg qPullReqmeta hb
  have hseen : l.st.seenSender = ∅ := congrArg seenSender hb
  have hcnt : l.st.pullCnt = 0 := congrArg pullCnt hb
  have hrecv : l.trace.countP (·.isAllRecv) = 0 := by
    rw [← count_filterMap_toBarrier (fun _ => isAllRecv_iff), h.log]; rfl
  have hans : ∀ w r, l.trace.countP (·.isAnswer w r) = 0 := by
    intro w r
    rw [← count_filterMap_toBarrier (fun _ => isAnswer_iff), h.log]; rfl
  refine ⟨by rw [hcnt, hseen]; rfl, hcnt ▸ Finset.card_pos.mpr g.workers_nonempty, fun w r => ?_,
    fun w _ => by rw [hrecv]; exact Nat.zero_le _, ?_, by rw [hq]; exact .nil, fun req => ?_,
    fun w _ r hc => absurd hc (hpull w r)⟩
  · rw [hans, hround, if_neg (Nat.not_lt_zero r)]
  · rintro pre e post w r htrace he
    have := hans w r
    rw [htrace, countP_append, countP_cons_of_pos he] at this
    omega
  · rw [hq]
    simpa using fun w _ r _ hc => hpull w r hc

theorem roundClient_waiting {workers late : Finset ℕ} {done r w : ℕ} {order held : List ℕ} :
    roundClient workers done order held late w = ⟨.pull r, true⟩ ↔
      w ∈ workers ∧ w ∉ late ∧ w ∈ order ∧ w ∈ held ∧ done = r := by
  unfold roundClient
  split_ifs with hw hl ho <;> simp_all [and_comm]

theorem round_roundClient {workers late : Finset ℕ} {done w : ℕ} {order held : List ℕ} :
    (roundClient workers done order held late w).stage.round =
      if w ∈ workers then if w ∈ late then done - 1 else done else 0 := by
  unfold roundClient
  split_ifs <;> rfl

theorem Lane.InRound.pullsOnce {b : Barrier g.workers} (h : l.InRound g b) :
    PullsOnce g l.st l.clients l.trace := by
  have hseen : l.st.seenSender = seenOf g.workers b.late := congrArg seenSender h.books
  have hcnt : l.st.pullCnt = (seenOf g.workers b.late).card := congrArg pullCnt h.books
  have hq : l.st.qPullReqmeta = b.held.map ((Stage.pull b.done).reqMeta g) :=
    congrArg qPullReqmeta h.books
  have hrecv : l.trace.countP (·.isAllRecv) = b.done := by
    rw [← count_filterMap_toBarrier (fun _ => isAllRecv_iff), h.log, b.log_completed]
  have hwait : ∀ w r, l.clients w = ⟨.pull r, true⟩ ↔ w ∈ b.held ∧ b.done = r := by
    intro w r
    rw [h.clients, roundClient_waiting]
    refine ⟨fun hw => hw.2.2.2, fun ⟨hw, hr⟩ => ?_⟩
    have ho := b.held_mem w hw
    exact ⟨b.order_mem w ho, fun hl => b.late_order w hl ho, ho, hw, hr⟩
  refine ⟨by rw [hcnt, hseen], ?_, fun w r => ?_, fun w hw => ?_, ?_, ?_, fun req => ?_,
    fun w _ r hc => ?_⟩
  · rw [hcnt]
    rcases b.late.eq_empty_or_nonempty with hl | ⟨w, hw⟩
    · simp [hl, seenOf, g.workers_nonempty]
    · have hcard := card_seenOf b.late_subset hw
      have := Finset.card_pos.mpr ⟨w, hw⟩
      omega
  · rw [← count_filterMap_toBarrier (fun _ => isAnswer_iff), h.log, b.log_answers, h.clients,
      round_roundClient]
    by_cases hw : w ∈ g.workers <;> simp [hw]
  · rw [hrecv, h.clients, roundClient, if_pos hw]
    split_ifs with hl
    · have := b.done_ne_zero_of_late hl
      simp only [Stage.pushes]
      omega
    · exact Nat.le_succ _
    · exact le_rfl
  · intro pre e post w r htrace he
    rw [← count_filterMap_toBarrier (fun _ => isAllRecv_iff)]
    refine b.log_order _ w r (post.filterMap toBarrier) ?_
    rw [← h.log, htrace, filterMap_append, filterMap_cons_some (isAnswer_iff.mp he)]
  · rw [hq]
    exact b.held_nodup.map fun v w hvw => congrArg KVMeta.sender hvw
  · rw [hq, mem_map]
    constructor
    · rintro ⟨w, hw, rfl⟩
      exact ⟨w, b.order_mem w (b.held_mem w hw), b.done, rfl, (hwait w _).mpr ⟨hw, rfl⟩⟩
    · rintro ⟨w, -, r, rfl, hc⟩
      obtain ⟨hw, rfl⟩ := (hwait w r).mp hc
      exact ⟨w, hw, rfl⟩
  · rw [hrecv, ((hwait w r).mp hc).2]

/-- In synchronous mode with engine threads and plain queues, for every key, group of workers and
compressor and in every interleaving: the pulls of a key are counted right, answered once per round
and after its `ALL_RECV`, and none is lost or forgotten in the queue. -/
theorem pullsOnce_of_reach [Add α] [Zero α] (hcfg : cfg.SyncEngine) {groups : Key → KeyGroup α}
    {s : Job α C} (h : Reach (jobs cfg C groups) Free s) (key : Key) :
    PullsOnce (groups key) (s.server.keyStates key) (s.clients key) (ofKey s.trace key) := by
  have hl : Reach (lanes cfg C (groups key) key) Free (s.lane key) :=
    reach_lane hcfg.plainQueues (fun _ _ _ => trivial) (fun _ _ _ _ => trivial) h
  rcases lane_inv hcfg hl with hs | ⟨b, hb⟩
  · exact hs.pullsOnce
  · exact hb.pullsOnce

/-! ## A small job -/

/-- No compressor can be created. -/
def noCompressor : CompressorClass ℤ where
  State := Unit
  create _ _ _ := none
  compress c data _ := (data, c)
  decompress c data _ := (data, c)

/-- Two workers that push one cell: worker `w` pushes `10 * r + w + 1` in round `r`. -/
def pairGroup : KeyGroup ℤ where
  workers := {0, 1}
  workers_nonempty := ⟨0, by simp⟩
  dtype := 0
  kwargs := none
  initPayload _ := [0]
  payload w r := [10 * r + w + 1]

/-- Both workers register, send their init pushes and push their first data. -/
def pairPushes : List Action :=
  [.request 5 0, .request 5 1, .request 5 0, .request 5 1, .request 5 0, .request 5 1]

def threeMessages : List Action := List.replicate 9 (.engine 0)

theorem pullsOnce_of_reach_pair :
    ∃ s : Job ℤ noCompressor, Reach (jobs {} noCompressor fun _ => pairGroup) Free s ∧
      (s.clients 5 0 = ⟨.push 1, false⟩ ∧ s.clients 5 1 = ⟨.pull 0, false⟩) ∧
      PullsOnce pairGroup (s.server.keyStates 5) (s.clients 5) (ofKey s.trace 5) := by
  obtain ⟨s, hs, hc⟩ := exists_reach (S := jobs {} noCompressor fun _ => pairGroup) (G := Free)
    (P := fun s => s.clients 5 0 = ⟨.push 1, false⟩ ∧ s.clients 5 1 = ⟨.pull 0, false⟩)
    (.init rfl) (pairPushes ++ .request 5 0 :: threeMessages) (by decide +kernel)
  exact ⟨s, hs, hc, pullsOnce_of_reach ⟨rfl, rfl, rfl⟩ hs 5⟩

end MegatronDPU.Server
