import MegatronDPU.Lib.Barrier
import MegatronDPU.Server.Lane

/-!
# The rounds of a key

Once a key is set up, its lane runs a round barrier: pushes contribute, the engine processes them
in order, `ALL_RECV` completes the round, and pulls are answered at once, queued, or answered by
`ALL_RECV`. `Lane.InRound l b` reads the whole bookkeeping of the lane off a barrier `b`; every
request and every engine step is one of its moves.
-/

namespace MegatronDPU.Server

open Finset List Stage Lane Event

variable {α : Type} {C : CompressorClass α}

/-! ## Reading a lane off a barrier -/

/-- The engine operations of a round with `k` pushes. -/
def pushOps : ℕ → List EngineOp
  | 0 => []
  | k + 1 => .copyFirst :: replicate k .sumRecv

@[simp] theorem length_pushOps (k : ℕ) : (pushOps k).length = k := by
  cases k <;> simp [pushOps]

theorem pushOps_succ (k : ℕ) :
    pushOps (k + 1) = pushOps k ++ [if k = 0 then .copyFirst else .sumRecv] := by
  cases k with
  | zero => rfl
  | succ k => simp [pushOps, replicate_succ']

theorem mem_pushOps {k : ℕ} {op : EngineOp} (h : op ∈ pushOps k) :
    op = .copyFirst ∨ op = .sumRecv := by
  cases k with
  | zero => simp [pushOps] at h
  | succ k =>
    rcases List.mem_cons.mp h with h | h
    · exact .inl h
    · exact .inr (mem_replicate.mp h).2

/-- The message in the hands of the thread. -/
def EngineThread.inFlight : EngineThread α → List (EngineMessage α)
  | .popped m => [m]
  | .ready m => [m]
  | _ => []

/-- The messages that are not executed. -/
def Lane.pending (l : Lane α C) : List (EngineMessage α) := l.engine.inFlight ++ l.queue

/-- What an event is for the barrier of the rounds. -/
def Event.toBarrier : Event α → Option (BarrierEvent ℕ)
  | .allRecv => some .completed
  | .response r =>
    if r.reqMeta.push = false ∧ 4 ≤ r.reqMeta.timestamp ∧ r.reqMeta.timestamp % 2 = 0 then
      some (.answered r.reqMeta.sender ((r.reqMeta.timestamp - 4) / 2))
    else none

/-- The workers whose pull of the last round is answered while others are late. -/
def seenOf (workers late : Finset ℕ) : Finset ℕ := if late = ∅ then ∅ else workers \ late

/-- The bookkeeping of a key in a round. -/
def roundBooks (g : KeyGroup α) (done : ℕ) (order held : List ℕ) (late : Finset ℕ) :
    Bookkeeping where
  expectedWorkers := g.workers.card
  initialised := true
  request := if order.length = g.workers.card then [] else order.map ((push done).reqMeta g)
  isPushFinished := decide late.Nonempty
  qPullReqmeta := held.map ((pull done).reqMeta g)
  seenSender := seenOf g.workers late
  pullCnt := (seenOf g.workers late).card

/-- The operations the engine has still to execute, with `n` workers of which `k` have pushed. -/
def roundOps (n k processed : ℕ) : List EngineOp :=
  (pushOps k ++ if k = n then [EngineOp.allRecv] else []).drop processed

/-- A client in a round. -/
def roundClient (workers : Finset ℕ) (done : ℕ) (order held : List ℕ) (late : Finset ℕ) (w : ℕ) :
    Client :=
  if w ∈ workers then
    if w ∈ late then ⟨.pull (done - 1), false⟩
    else if w ∈ order then ⟨.pull done, decide (w ∈ held)⟩
    else ⟨.push done, false⟩
  else {}

/-- The lane is in its rounds, and `b` says where. -/
structure Lane.InRound (g : KeyGroup α) (b : Barrier g.workers) (l : Lane α C) : Prop where
  books : l.st.books = roundBooks g b.done b.order b.held b.late
  ops : l.pending.map (·.ops) = roundOps g.workers.card b.order.length b.processed
  clients : ∀ w, l.clients w = roundClient g.workers b.done b.order b.held b.late w
  log : l.trace.filterMap toBarrier = b.log

variable {g : KeyGroup α} {b : Barrier g.workers} {l l' : Lane α C} {cfg : Config} {key : Key} {w : ℕ}

theorem Lane.InRound.client_late (h : l.InRound g b) (hw : w ∈ b.late) :
    l.clients w = ⟨.pull (b.done - 1), false⟩ := by
  rw [h.clients, roundClient, if_pos (b.late_subset hw), if_pos hw]

theorem Lane.InRound.client_order (h : l.InRound g b) (hw : w ∈ b.order) :
    l.clients w = ⟨.pull b.done, decide (w ∈ b.held)⟩ := by
  rw [h.clients, roundClient, if_pos (b.order_mem w hw), if_neg fun hl => b.late_order w hl hw,
    if_pos hw]

/-! ### Moves of the bookkeeping -/

section Moves

variable {done : ℕ} {order held : List ℕ} {late : Finset ℕ}

theorem roundBooks_push : { roundBooks g done order held late with
      request := if order.length + 1 = g.workers.card then []
        else order.map ((push done).reqMeta g) ++ [(push done).reqMeta g w] } =
      roundBooks g done (order ++ [w]) held late := by
  simp [roundBooks]

theorem roundBooks_hold : { roundBooks g done order held late with
      qPullReqmeta := held.map ((pull done).reqMeta g) ++ [(pull done).reqMeta g w] } =
      roundBooks g done order (held ++ [w]) late := by
  simp [roundBooks]

section

variable (hsub : late ⊆ g.workers) (hw : w ∈ late)
include hsub hw

theorem card_seenOf : (seenOf g.workers late).card + late.card = g.workers.card := by
  rw [seenOf, if_neg (ne_empty_of_mem hw)]
  exact card_sdiff_add_card_eq_card hsub

theorem seenOf_erase (hlast : late.erase w ≠ ∅) :
    seenOf g.workers (late.erase w) = insert w (seenOf g.workers late) := by
  rw [seenOf, seenOf, if_neg (ne_empty_of_mem hw), if_neg hlast]
  ext v
  simp only [mem_insert, mem_sdiff, mem_erase]
  by_cases hv : v = w
  · simp [hv, hsub hw]
  · simp [hv]

theorem roundBooks_answer : (roundBooks g done order held late).countPull g.workers.card w =
      roundBooks g done order held (late.erase w) := by
  have hcard := card_seenOf hsub hw
  have herase := card_erase_add_one hw
  have hcnt : (roundBooks g done order held late).pullCnt = (seenOf g.workers late).card := rfl
  unfold Bookkeeping.countPull
  by_cases hlast : late.erase w = ∅
  · rw [hlast, card_empty] at herase
    rw [if_pos (by omega), hlast]
    exact Bookkeeping.ext rfl rfl rfl rfl rfl rfl rfl
  · have hpos := card_pos.mpr (nonempty_iff_ne_empty.mpr hlast)
    have hnot : w ∉ seenOf g.workers late := by simp [seenOf, ne_empty_of_mem hw, hw]
    have hseen := seenOf_erase hsub hw hlast
    rw [if_neg (by omega)]
    refine Bookkeeping.ext rfl rfl rfl ?_ rfl hseen.symm ?_
    · show decide late.Nonempty = decide (late.erase w).Nonempty
      rw [decide_eq_true ⟨w, hw⟩, decide_eq_true (nonempty_iff_ne_empty.mpr hlast)]
    · show (seenOf g.workers late).card + 1 = (seenOf g.workers (late.erase w)).card
      rw [hseen, card_insert_of_notMem hnot]

end

theorem seenOf_sdiff {answered : Finset ℕ} (hsub : answered ⊆ g.workers)
    (hne : answered ≠ g.workers) : seenOf g.workers (g.workers \ answered) = answered := by
  have : g.workers \ answered ≠ ∅ := fun h =>
    hne (hsub.antisymm (sdiff_eq_empty_iff_subset.mp h))
  rw [seenOf, if_neg this, Finset.sdiff_sdiff_eq_self hsub]

/-- `ALL_RECV` answers the queued pulls; if all workers were queued the round is closed at once. -/
theorem roundBooks_complete (hnd : held.Nodup) (hmem : ∀ v ∈ held, v ∈ g.workers)
    (hfull : order.length = g.workers.card) :
    Bookkeeping.drain { roundBooks g done order held ∅ with isPushFinished := true }
        g.workers.card held =
      roundBooks g (done + 1) [] [] (g.workers \ held.toFinset) := by
  have hcard := toFinset_card_of_nodup hnd
  have hsub : held.toFinset ⊆ g.workers := fun v hv => hmem v (mem_toFinset.mp hv)
  have hpos := card_pos.mpr g.workers_nonempty
  have hreq : (roundBooks g done order held ∅).request = [] := if_pos hfull
  have hreq' : [] = (roundBooks g (done + 1) [] [] (g.workers \ held.toFinset)).request := by
    simp [roundBooks]
  have hcnt : (roundBooks g done order held ∅).pullCnt = 0 := rfl
  unfold Bookkeeping.drain
  rw [hcnt, hreq, zero_add]
  by_cases hall : held.toFinset = g.workers
  · have hlen : held.length = g.workers.card := by rw [← hcard, hall]
    have hne : held ≠ [] := fun h => by simp [h] at hlen; omega
    rw [if_pos ⟨hne, hlen⟩, hall, sdiff_self]
    exact Bookkeeping.ext rfl rfl (by simp [roundBooks]) rfl rfl rfl rfl
  · have hlen : held.length ≠ g.workers.card := fun h =>
      hall (eq_of_subset_of_card_le hsub (by rw [hcard, h]))
    have hseen := seenOf_sdiff hsub hall
    rw [if_neg fun h => hlen h.2]
    refine Bookkeeping.ext rfl rfl hreq' ?_ rfl ?_ ?_
    · refine (decide_eq_true ?_).symm
      exact sdiff_nonempty.mpr fun h => hall (hsub.antisymm h)
    · exact (empty_union _).trans hseen.symm
    · show held.length = (seenOf g.workers (g.workers \ held.toFinset)).card
      rw [hseen, hcard]

/-! ### Moves of the workers -/

theorem roundClient_push (hw : w ∈ g.workers) (hl : w ∉ late) (hh : w ∉ held) (v : ℕ) :
    roundClient g.workers done (order ++ [w]) held late v =
      if v = w then ⟨.pull done, false⟩ else roundClient g.workers done order held late v := by
  unfold roundClient
  by_cases hv : v = w
  · simp [hv, hw, hl, hh]
  · simp [hv]

theorem roundClient_answer (hw : w ∈ g.workers) (ho : w ∉ order) (hd : done ≠ 0) (v : ℕ) :
    roundClient g.workers done order held (late.erase w) v =
      if v = w then ⟨.push (done - 1 + 1), false⟩
      else roundClient g.workers done order held late v := by
  unfold roundClient
  by_cases hv : v = w
  · simp [hv, hw, ho, Nat.sub_add_cancel (Nat.one_le_iff_ne_zero.mpr hd)]
  · simp [hv]

theorem roundClient_hold (hw : w ∈ g.workers) (ho : w ∈ order) (hl : w ∉ late) (v : ℕ) :
    roundClient g.workers done order (held ++ [w]) late v =
      if v = w then ⟨.pull done, true⟩ else roundClient g.workers done order held late v := by
  unfold roundClient
  by_cases hv : v = w
  · simp [hv, hw, ho, hl]
  · simp [hv]

theorem roundClient_complete (hall : ∀ v ∈ g.workers, v ∈ order)
    (hmem : ∀ v ∈ held, v ∈ g.workers) (v : ℕ) :
    roundClient g.workers (done + 1) [] [] (g.workers \ held.toFinset) v =
      if v ∈ held then ⟨.push (done + 1), false⟩
      else roundClient g.workers done order held ∅ v := by
  unfold roundClient
  by_cases hv : v ∈ held
  · simp [hv, hmem v hv]
  · by_cases hw : v ∈ g.workers
    · simp [hv, hw, hall v hw]
    · simp [hv, hw]

end Moves

/-! ## Events -/

theorem toBarrier_pull {r : Response α} {round : ℕ}
    (h : r.reqMeta = (pull round).reqMeta g w) :
    (response r).toBarrier = some (.answered w round) := by
  simp only [toBarrier, h, reqMeta, isPush, timestamp, true_and]
  rw [if_pos (by omega), show (2 * round + 4 - 4) / 2 = round by omega]

theorem toBarrier_allRecv : (allRecv : Event α).toBarrier = some .completed := rfl

section

variable {stage : Stage} (hs : stage.isPush = true)
include hs

theorem toBarrier_push {r : Response α} (h : r.reqMeta = stage.reqMeta g w) :
    (response r).toBarrier = none := by
  simp [toBarrier, h, reqMeta, hs]

theorem filterMap_push {rs : List (Response α)} {ws : List ℕ}
    (h : rs.map (·.reqMeta) = ws.map (stage.reqMeta g)) :
    (rs.map response).filterMap toBarrier = [] := by
  rw [filterMap_eq_nil_iff]
  intro e he
  obtain ⟨r, hr, rfl⟩ := List.mem_map.mp he
  obtain ⟨v, -, hv⟩ := List.mem_map.mp (h ▸ mem_map_of_mem hr : r.reqMeta ∈ _)
  exact toBarrier_push hs hv.symm

theorem filterMap_push_one {rs : List (Response α)} (h : rs.map (·.reqMeta) = [stage.reqMeta g w]) :
    (rs.map response).filterMap toBarrier = [] := by
  have hone : rs.map (·.reqMeta) = [w].map (stage.reqMeta g) := h
  exact filterMap_push hs hone

end

theorem filterMap_pull {rs : List (Response α)} {round : ℕ} {ws : List ℕ}
    (h : rs.map (·.reqMeta) = ws.map ((pull round).reqMeta g)) :
    (rs.map response).filterMap toBarrier =
      ws.map fun w => .answered w round := by
  induction ws generalizing rs with
  | nil =>
    obtain rfl : rs = [] := by simpa using h
    rfl
  | cons v ws ih =>
    obtain ⟨r, rs, rfl⟩ : ∃ r rs', rs = r :: rs' :=
      exists_cons_of_ne_nil (by rintro rfl; simp at h)
    obtain ⟨hr, hrs⟩ := cons_eq_cons.mp h
    rw [List.map_cons, filterMap_cons_some (toBarrier_pull hr), ih hrs]
    rfl

/-! ## Requests -/

section Requests

variable [Add α] [Zero α]

theorem handleKey_push {st : KeyState α C} {stored : Store α} (hst : st.store = some stored)
    (r : ℕ) :
    handleKey cfg key ((push r).type g) st ((push r).reqMeta g w)
        ((push r).data cfg g key w) =
      handlePush cfg key ((push r).type g) st stored ((push r).reqMeta g w)
        ((push r).data cfg g key w) (g.payload w r) (g.payload w r).length := by
  simp [handleKey, type, reqMeta, isPush, data, hst]

theorem handleKey_pull (st : KeyState α C) (r : ℕ) :
    handleKey cfg key ((pull r).type g) st ((pull r).reqMeta g w)
        ((pull r).data cfg g key w) =
      handlePull cfg key st ((pull r).reqMeta g w) := rfl

section

omit [Add α] [Zero α]

theorem Lane.InRound.exists_store (h : l.InRound g b) : ∃ stored, l.st.store = some stored :=
  Option.isSome_iff_exists.mp (congrArg Bookkeeping.initialised h.books)

theorem pending_afterRequest (out : Outcome α C) :
    (l.afterRequest g w out).pending = l.pending ++ out.messages := by
  simp [pending, afterRequest]

theorem deliver_one {stage : Stage} {rs : List (Response α)} (hc : l.clients w = ⟨stage, false⟩)
    (hrs : rs.map (·.reqMeta) = [stage.reqMeta g w]) (v : ℕ) :
    deliver g (Function.update l.clients w ⟨(l.clients w).stage, true⟩) rs v =
      if v = w then ⟨stage.next g, false⟩ else l.clients v := by
  have hone : rs.map (·.reqMeta) = [w].map (stage.reqMeta g) := hrs
  rw [hc, deliver_stage hone (by simp) (by simp)]
  by_cases hv : v = w
  · simp [hv]
  · simp [hv]

theorem roundOps_push {n k processed : ℕ} (hk : k ≠ n) (hle : processed ≤ k) :
    roundOps n (k + 1) processed = roundOps n k processed ++
      ((if k = 0 then EngineOp.copyFirst else .sumRecv) ::
        if k + 1 = n then [.allRecv] else []) := by
  unfold roundOps
  rw [if_neg hk, append_nil, pushOps_succ, append_assoc,
    drop_append_of_le_length (by simpa using hle), singleton_append]

end

section

variable (hcfg : cfg.SyncEngine) (h : l.InRound g b)
include hcfg h

theorem Lane.InRound.request_push (hw : w ∈ g.workers) (ho : w ∉ b.order) (hl : w ∉ b.late)
    (hr : l.request cfg g key w = some l') :
    l'.InRound g (b.push w hw ho hl) ∧ l'.st.contents = l.st.contents ∧ l'.engine = l.engine ∧
      (∃ r, l'.trace = l.trace ++ [.response r] ∧ r.reqMeta = (push b.done).reqMeta g w) ∧
      ∃ stored, l.st.store = some stored ∧
        l'.queue = l.queue ++
          pushMessage key ((push b.done).type g) stored
            (if b.order = [] then .copyFirst else .sumRecv) (.buffer (g.payload w b.done))
            ((push b.done).data cfg g key w) (some ((push b.done).reqMeta g w)) ::
          if b.order.length + 1 = g.workers.card then
            [pushMessage key ((push b.done).type g) stored .allRecv .store {} none]
          else [] := by
  obtain ⟨-, -, out, hout, rfl⟩ := Lane.request_cases.mp hr
  obtain ⟨stored, hst⟩ := h.exists_store
  have hc : l.clients w = ⟨.push b.done, false⟩ := by
    simp [h.clients, roundClient, hw, ho, hl]
  rw [hc] at hout
  rw [handleKey_push hst] at hout
  have hn : l.st.books.expectedWorkers = g.workers.card := by rw [h.books]; rfl
  obtain ⟨hb, hcont, hresp, hmsg⟩ := handlePush_spec hcfg hn hout
  have hnot : b.order.length ≠ g.workers.card := fun h => ho (b.mem_order_of_full h hw)
  have hreq : l.st.request = b.order.map ((push b.done).reqMeta g) :=
    (congrArg Bookkeeping.request h.books).trans (if_neg hnot)
  simp only [hreq, length_map, map_eq_nil_iff] at hb hmsg
  have hdeliver := deliver_one (l := l) hc hresp
  obtain ⟨r, hr, hmeta⟩ := map_eq_singleton_iff.mp hresp
  refine ⟨⟨?_, ?_, fun v => ?_, ?_⟩, hcont, rfl, ⟨r, by simp [afterRequest, hr], hmeta⟩, stored,
    hst, congrArg (l.queue ++ ·) hmsg⟩
  · rw [h.books] at hb
    exact hb.trans roundBooks_push
  · rw [pending_afterRequest, map_append, h.ops, hmsg]
    simp only [Barrier.push, length_append, length_singleton]
    rw [roundOps_push hnot b.processed_le]
    simp only [length_eq_zero_iff]
    split_ifs <;> rfl
  · refine (hdeliver v).trans ?_
    rw [h.clients]
    exact (roundClient_push hw hl (fun hh => ho (b.held_mem w hh)) v).symm
  · have hlog := filterMap_push_one rfl hresp
    simp only [afterRequest, filterMap_append, h.log, hlog, append_nil, Barrier.push]

theorem Lane.InRound.request_answer (hl : w ∈ b.late) (hr : l.request cfg g key w = some l') :
    l'.InRound g (b.answer w hl) ∧ l'.st.contents = l.st.contents ∧ l'.engine = l.engine ∧
      l'.queue = l.queue ∧ ∃ r data, l'.trace = l.trace ++ [.response r] ∧
        r.reqMeta = (pull (b.done - 1)).reqMeta g w ∧ pullData cfg l.st = some data ∧
        r.kvs.vals = .cells data := by
  obtain ⟨hw, -, out, hout, rfl⟩ := Lane.request_cases.mp hr
  have hc := h.client_late hl
  rw [hc] at hout
  rw [handleKey_pull] at hout
  have hne : b.late ≠ ∅ := ne_empty_of_mem hl
  have hn : l.st.books.expectedWorkers = g.workers.card := by rw [h.books]; rfl
  have hfin : l.st.isPushFinished = true :=
    (congrArg Bookkeeping.isPushFinished h.books).trans (decide_eq_true ⟨w, hl⟩)
  have hseen : l.st.seenSender = g.workers \ b.late :=
    (congrArg Bookkeeping.seenSender h.books).trans (if_neg hne)
  have hnot : w ∉ l.st.seenSender := by simp [hseen, hl]
  obtain ⟨hmsg, hcont, hcase⟩ := handlePull_spec hcfg hn hout
  obtain ⟨-, -, hb, r, data, hrs, hreq, hd, hv⟩ | ⟨hno, -⟩ := hcase
  · have hresp : out.responses.map (·.reqMeta) = [(pull (b.done - 1)).reqMeta g w] := by
      simp [hrs, hreq]
    refine ⟨⟨?_, ?_, fun v => ?_, ?_⟩, hcont, rfl, ?_, r, data, ?_, hreq, hd, hv⟩
    · rw [h.books] at hb
      exact hb.trans (roundBooks_answer b.late_subset hl)
    · rw [pending_afterRequest, hmsg, append_nil]
      exact h.ops
    · refine (deliver_one hc hresp v).trans ?_
      rw [h.clients]
      exact (roundClient_answer hw (b.late_order w hl) (b.done_ne_zero_of_late hl) v).symm
    · show (l.trace ++ _).filterMap _ = b.log ++ _
      rw [filterMap_append, h.log, hrs, List.map_singleton,
        filterMap_cons_some (toBarrier_pull hreq), filterMap_nil]
    · simp [afterRequest, hmsg]
    · simp [afterRequest, hrs]
  · exact absurd ⟨hfin, hnot⟩ hno

theorem Lane.InRound.request_hold (ho : w ∈ b.order) (hr : l.request cfg g key w = some l') :
    ∃ hh : w ∉ b.held, l'.InRound g (b.hold w ho hh) ∧ l'.st.contents = l.st.contents ∧
      l'.engine = l.engine ∧ l'.queue = l.queue ∧ l'.trace = l.trace := by
  obtain ⟨hw, hwait, out, hout, rfl⟩ := Lane.request_cases.mp hr
  have hl : w ∉ b.late := fun hl => b.late_order w hl ho
  have hc := h.client_order ho
  have hh : w ∉ b.held := by simpa [hc] using hwait
  rw [hc] at hout
  rw [handleKey_pull] at hout
  have hn : l.st.books.expectedWorkers = g.workers.card := by rw [h.books]; rfl
  have hfin : l.st.isPushFinished = decide b.late.Nonempty :=
    congrArg Bookkeeping.isPushFinished h.books
  have hseen : l.st.seenSender = seenOf g.workers b.late := congrArg Bookkeeping.seenSender h.books
  have hq : l.st.qPullReqmeta = b.held.map ((pull b.done).reqMeta g) :=
    congrArg Bookkeeping.qPullReqmeta h.books
  obtain ⟨hmsg, hcont, hcase⟩ := handlePull_spec hcfg hn hout
  obtain ⟨hf, hs, -⟩ | ⟨-, hrs, hb⟩ := hcase
  · -- its pull of the last round is answered, so it was seen if that round is still open
    rw [hfin, decide_eq_true_eq] at hf
    rw [hseen, seenOf, if_neg hf.ne_empty] at hs
    exact absurd (mem_sdiff.mpr ⟨hw, hl⟩) hs
  · refine ⟨hh, ⟨?_, ?_, fun v => ?_, ?_⟩, hcont, rfl, ?_, ?_⟩
    · rw [hq, h.books] at hb
      exact hb.trans roundBooks_hold
    · rw [pending_afterRequest, hmsg, append_nil]
      exact h.ops
    · show deliver g _ out.responses v = roundClient g.workers b.done b.order (b.held ++ [w]) b.late v
      rw [hrs, roundClient_hold hw ho hl, hc, ← h.clients]
      by_cases hv : v = w
      · subst hv
        simp [deliver]
      · simp [deliver, hv]
    · simp only [afterRequest, hrs, map_nil, append_nil]
      exact h.log
    · simp [afterRequest, hmsg]
    · simp [afterRequest, hrs]

end

end Requests

/-! ## Engine steps -/

theorem roundOps_cons {n k processed : ℕ} {op : EngineOp} {ops : List EngineOp}
    (hle : processed ≤ k) (h : op :: ops = roundOps n k processed) :
    (processed < k ∧ (op = .copyFirst ∨ op = .sumRecv) ∧ (op = .copyFirst ↔ processed = 0) ∧
      ops = roundOps n k (processed + 1)) ∨
    (processed = k ∧ k = n ∧ op = .allRecv ∧ ops = []) := by
  unfold roundOps at *
  rcases hle.lt_or_eq with hlt | rfl
  · have hlen : processed < (pushOps k).length := by simpa using hlt
    rw [drop_append_of_le_length hlen.le, drop_eq_getElem_cons hlen, cons_append] at h
    obtain ⟨rfl, rfl⟩ := cons_eq_cons.mp h
    refine .inl ⟨hlt, mem_pushOps (getElem_mem hlen), ?_, ?_⟩
    · cases k with
      | zero => omega
      | succ k => cases processed <;> simp [pushOps]
    · rw [drop_append_of_le_length (by simpa using hlt)]
  · rw [drop_left' (by simp)] at h
    split_ifs at h with hfull
    · obtain ⟨rfl, rfl⟩ := cons_eq_cons.mp h
      exact .inr ⟨rfl, hfull, rfl, rfl⟩

theorem Lane.InRound.pop (h : l.InRound g b) {m : EngineMessage α} {queue : List (EngineMessage α)}
    (he : l.engine = .waiting) (hq : l.queue = m :: queue) :
    InRound g b { l with engine := .popped m, queue := queue } where
  books := h.books
  ops := by
    rw [← h.ops]
    simp [pending, he, hq, EngineThread.inFlight]
  clients := h.clients
  log := h.log

theorem Lane.InRound.prepare (h : l.InRound g b) {m m' : EngineMessage α} {st : KeyState α C}
    (he : l.engine = .popped m) (hp : preprocess l.st m = some (st, m')) :
    InRound g b { l with st := st, engine := .ready m' } where
  books := (preprocess_spec hp).2.2.1.trans h.books
  ops := by
    rw [← h.ops]
    simp [pending, he, EngineThread.inFlight, (preprocess_spec hp).2.1]
  clients := h.clients
  log := h.log

/-- The next message processes a push of the round, or completes it. -/
theorem Lane.InRound.pending_cases (h : l.InRound g b) {m : EngineMessage α}
    {rest : List (EngineMessage α)} (hp : l.pending = m :: rest) :
    (b.processed < b.order.length ∧ (m.ops = .copyFirst ∨ m.ops = .sumRecv) ∧
      (m.ops = .copyFirst ↔ b.processed = 0) ∧
      rest.map (·.ops) = roundOps g.workers.card b.order.length (b.processed + 1)) ∨
    (b.processed = b.order.length ∧ b.order.length = g.workers.card ∧ m.ops = .allRecv ∧
      rest = []) := by
  have hops := h.ops
  rw [hp, List.map_cons] at hops
  rcases roundOps_cons b.processed_le hops with hpush | ⟨hp, hf, hm, hq⟩
  · exact .inl hpush
  · exact .inr ⟨hp, hf, hm, map_eq_nil_iff.mp hq⟩

theorem pending_popped {m : EngineMessage α} (he : l.engine = .popped m) :
    l.pending = m :: l.queue := by
  rw [pending, he]; rfl

theorem pending_ready {m : EngineMessage α} (he : l.engine = .ready m) :
    l.pending = m :: l.queue := by
  rw [pending, he]; rfl

section Execute

variable [Add α] {m : EngineMessage α} {st : KeyState α C} {rs : List (Response α)}

section

variable (h : l.InRound g b) (he : l.engine = .ready m) (hx : execute cfg l.st m = some (st, rs))
include h he hx

theorem Lane.InRound.execute_push (hlt : b.processed < b.order.length) :
    rs = [] ∧ (l.executed g m st rs).InRound g (b.process hlt) := by
  obtain ⟨-, hop, -, hq⟩ | ⟨hp, -⟩ := h.pending_cases (pending_ready he)
  · obtain ⟨hb, rfl⟩ := books_execute hx hop
    have hev : executedEvents m [] = [] := by
      rcases hop with hop | hop <;> simp [executedEvents, hop]
    exact ⟨rfl, hb.trans h.books, hq, h.clients, by
      rw [executed, hev, append_nil]; exact h.log⟩
  · omega

/-- The last message of a round completes it and answers the pulls that waited. -/
theorem Lane.InRound.execute_allRecv (hop : m.ops = .allRecv) :
    ∃ hfull : b.order.length = g.workers.card,
      (l.executed g m st rs).InRound g (b.complete hfull) ∧
      st.contents = l.st.contents ∧
      rs.map (·.reqMeta) = b.held.map ((pull b.done).reqMeta g) ∧
      ∀ r ∈ rs, ∃ data, pullData cfg l.st = some data ∧ r.kvs.vals = .cells data := by
  obtain ⟨-, hop', -⟩ | ⟨hp, hfull, -, hq⟩ := h.pending_cases (pending_ready he)
  · rcases hop' with h' | h' <;> rw [hop] at h' <;> cases h'
  refine ⟨hfull, ?_⟩
  have hlate := b.late_of_full hfull
  have hheld : ∀ v ∈ b.held, v ∈ g.workers := fun v hv => b.order_mem v (b.held_mem v hv)
  have hqueue : l.st.qPullReqmeta = b.held.map ((pull b.done).reqMeta g) :=
    congrArg Bookkeeping.qPullReqmeta h.books
  have hsenders : (b.held.map ((pull b.done).reqMeta g)).map (·.sender) = b.held := by
    simp [Function.comp_def, reqMeta]
  have hseen : l.st.seenSender = ∅ :=
    (congrArg Bookkeeping.seenSender h.books).trans (by simp [roundBooks, hlate, seenOf])
  have hcnt : l.st.pullCnt = 0 :=
    (congrArg Bookkeeping.pullCnt h.books).trans (by simp [roundBooks, hlate, seenOf])
  have hlen : b.held.length ≤ g.workers.card := by
    rw [← toFinset_card_of_nodup b.held_nodup]
    exact card_le_card fun v hv => hheld v (mem_toFinset.mp hv)
  have hn : l.st.books.expectedWorkers = g.workers.card := by rw [h.books]; rfl
  have hdrain : drain cfg m.key { l.st with isPushFinished := true } []
      (b.held.map ((pull b.done).reqMeta g)) = some (st, rs) := by
    rw [← hqueue, ← hx, execute, hop]
  obtain ⟨hm, hc, hb, hd⟩ := drain_spec hdrain hn (by rw [hsenders]; exact b.held_nodup)
    (by simp [hseen]) (by simpa [hcnt] using hlen)
  refine ⟨⟨?_, ?_, fun v => ?_, ?_⟩, hc, hm, hd⟩
  · rw [hsenders] at hb
    refine hb.trans ?_
    have hbooks : KeyState.books { l.st with isPushFinished := true } =
        { roundBooks g b.done b.order b.held ∅ with isPushFinished := true } := by
      rw [← hlate, ← h.books]; rfl
    rw [hbooks]
    exact roundBooks_complete b.held_nodup hheld hfull
  · have hpos := card_pos.mpr g.workers_nonempty
    simp [pending, executed, EngineThread.inFlight, hq, Barrier.complete, roundOps,
      pushOps, hpos.ne]
  · have hwait : ∀ w ∈ b.held, l.clients w = ⟨.pull b.done, true⟩ := by
      intro w hw
      rw [h.client_order (b.held_mem w hw), decide_eq_true hw]
    refine (deliver_stage hm b.held_nodup hwait v).trans ?_
    rw [h.clients, hlate]
    exact (roundClient_complete (fun v hv => b.mem_order_of_full hfull hv) hheld v).symm
  · show (l.trace ++ executedEvents m rs).filterMap _ = b.log ++ _
    rw [filterMap_append, h.log, executedEvents, if_pos hop, singleton_append,
      filterMap_cons_some toBarrier_allRecv, filterMap_pull hm]

end

end Execute

end MegatronDPU.Server
