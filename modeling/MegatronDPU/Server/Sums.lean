import MegatronDPU.Server.PullOnce

/-!
# What a pull is answered with

The sum of a round lives in one buffer per key, which the next round overwrites with its first push.
Nothing makes the engine wait for the pulls of the others: a late pull then reads the next round
(`late_pull_reads_next_round`). If the engine waits (`CopyAfterPulls`), every answer is the sum of
its round (`pulls_sum_of_reach`).
-/

namespace MegatronDPU.Server

open Lts List EngineMessage
open Event (response)

variable {α : Type} [AddCommMonoid α] {C : CompressorClass α}

/-! ## Sums of payloads -/

/-- All tensors of the key have the same length, and there is no compressor. -/
structure KeyGroup.Uncompressed (g : KeyGroup α) (len : ℕ) : Prop where
  kwargs : g.kwargs = none
  init : ∀ w ∈ g.workers, (g.initPayload w).length = len
  payload : ∀ w ∈ g.workers, ∀ r, (g.payload w r).length = len

/-- The elementwise sum of what a list of workers pushes in a round. -/
def cellSum (g : KeyGroup α) (len : ℕ) (ws : List ℕ) (r : ℕ) : List α :=
  List.ofFn fun i : Fin len => (ws.map fun w => (g.payload w r).getD i 0).sum

/-- The elementwise sum of the payloads of all workers in a round. -/
def roundSum (g : KeyGroup α) (len r : ℕ) : List α :=
  List.ofFn fun i : Fin len => ∑ w ∈ g.workers, (g.payload w r).getD i 0

variable {g : KeyGroup α} {len r w : ℕ}

@[simp] theorem length_cellSum (ws : List ℕ) : (cellSum g len ws r).length = len := by
  simp [cellSum]

theorem cellSum_singleton (h : (g.payload w r).length = len) :
    cellSum g len [w] r = g.payload w r := by
  subst h
  refine ext_getElem (by simp) fun i h1 h2 => ?_
  simp [cellSum, getD_eq_getElem?_getD]

omit [AddCommMonoid α] in
theorem reducerCopy_full {dst src : List α} (hd : dst.length = len) (hs : src.length = len) :
    reducerCopy dst src len = some src := by
  rw [reducerCopy, if_pos ⟨hd.ge, hs.ge⟩, take_of_length_le hs.le,
    drop_of_length_le hd.le, append_nil]

theorem reducerSum_cellSum {ws : List ℕ} (h : (g.payload w r).length = len) :
    reducerSum (cellSum g len ws r) (g.payload w r) len = some (cellSum g len (ws ++ [w]) r) := by
  subst h
  rw [reducerSum, if_pos ⟨by simp, le_rfl⟩, Option.some.injEq]
  refine ext_getElem (by simp) fun i h1 h2 => ?_
  have hi : i < (g.payload w r).length := by simpa using h2
  rw [getElem_append_left (by simpa using hi)]
  simp [cellSum, getD_eq_getElem?_getD]

theorem cellSum_eq_roundSum {ws : List ℕ} (hnd : ws.Nodup) (hmem : ∀ v ∈ ws, v ∈ g.workers)
    (hlen : ws.length = g.workers.card) : cellSum g len ws r = roundSum g len r := by
  have hset : ws.toFinset = g.workers := by
    refine Finset.eq_of_subset_of_card_le (fun v hv => hmem v (mem_toFinset.mp hv)) ?_
    rw [toFinset_card_of_nodup hnd, hlen]
  unfold cellSum roundSum
  congr 1
  funext i
  rw [← hset, sum_toFinset _ hnd]

/-! ## The invariant -/

/-- What a message is executed on. -/
def EngineMessage.view (m : EngineMessage α) : Pointer α × Vals α × ℕ :=
  (m.src, m.sarray.vals, m.len)

/-- The view of a worker's push. -/
def pushView (g : KeyGroup α) (len done w : ℕ) : Pointer α × Vals α × ℕ :=
  (.buffer (g.payload w done), .cells (g.payload w done), len)

/-- What the `ALL_RECV` message should hold. -/
def allRecvView (len : ℕ) : Pointer α × Vals α × ℕ := (.store, .cells [], len)

/-- The views of the messages of a round. -/
def roundViews (g : KeyGroup α) (len done : ℕ) (order : List ℕ) : List (Pointer α × Vals α × ℕ) :=
  order.map (pushView g len done) ++
    if order.length = g.workers.card then [allRecvView len] else []

section

omit [AddCommMonoid α]

theorem roundViews_push {done processed : ℕ} {order : List ℕ} (hk : order.length ≠ g.workers.card)
    (hle : processed ≤ order.length) :
    (roundViews g len done (order ++ [w])).drop processed =
      (roundViews g len done order).drop processed ++
        pushView g len done w ::
          if order.length + 1 = g.workers.card then [allRecvView len] else [] := by
  unfold roundViews
  rw [if_neg hk, append_nil, map_append, append_assoc,
    drop_append_of_le_length (by simpa using hle), length_append]
  rfl

theorem roundViews_cons {done processed : ℕ} {order : List ℕ} {v : Pointer α × Vals α × ℕ}
    {vs : List (Pointer α × Vals α × ℕ)} (hle : processed ≤ order.length)
    (h : v :: vs = (roundViews g len done order).drop processed) :
    (∃ hlt : processed < order.length, v = pushView g len done order[processed] ∧
      vs = (roundViews g len done order).drop (processed + 1)) ∨
    (processed = order.length ∧ v = allRecvView len) := by
  unfold roundViews at *
  rcases hle.lt_or_eq with hlt | rfl
  · have hlen : processed < (order.map (pushView g len done)).length := by simpa using hlt
    rw [drop_append_of_le_length hlen.le, drop_eq_getElem_cons hlen, cons_append] at h
    obtain ⟨rfl, rfl⟩ := cons_eq_cons.mp h
    refine .inl ⟨hlt, by rw [getElem_map], ?_⟩
    rw [drop_append_of_le_length (by simpa using hlt)]
  · rw [drop_left' (by simp)] at h
    split_ifs at h with hfull
    · exact .inr ⟨rfl, (cons_eq_cons.mp h).1⟩

theorem view_resolveSrc {m : EngineMessage α}
    (h : m.view = pushView g len r w ∨ m.view = allRecvView len) :
    (resolveSrc m).view = m.view := by
  have hsrc : ∀ x xs, m.sarray.vals = .cells (x :: xs) → m.src = .buffer (x :: xs) := by
    intro x xs hv
    rcases h with h | h
    · obtain ⟨hs, hv', -⟩ : m.src = _ ∧ m.sarray.vals = _ ∧ m.len = _ := by
        simpa [view, pushView] using h
      rw [hs]
      rw [hv', Vals.cells.injEq] at hv
      rw [hv]
    · obtain ⟨-, hv', -⟩ : m.src = _ ∧ m.sarray.vals = _ ∧ m.len = _ := by
        simpa [view, allRecvView] using h
      rw [hv', Vals.cells.injEq] at hv
      cases hv
  unfold resolveSrc
  split
  · rename_i hv
    simp [view, hsrc _ _ hv]
  · rename_i hv
    simp [view, hsrc _ _ hv]
  · rfl

end

/-- Store and messages hold the sums of the round. -/
structure Lane.Sums (g : KeyGroup α) (len : ℕ) (b : Barrier g.workers) (l : Lane α C) : Prop where
  plain : l.st.compressor = none
  /-- The store holds the sum of the processed pushes, and until its first push is processed the
  sum of the last round as long as somebody is late. -/
  store : ∃ stored, l.st.store = some stored ∧ stored.tensor.length = len ∧
    (0 < b.processed → stored.tensor = cellSum g len (b.order.take b.processed) b.done) ∧
    (b.late.Nonempty → b.processed = 0 ∧ stored.tensor = roundSum g len (b.done - 1))
  merged : (b.done ≠ 0 ∨ ∃ m, l.engine = .ready m ∧ m.ops = .allRecv) →
    l.st.merged.tensor = .store ∧ l.st.merged.len = len
  views : l.pending.map (·.view) = (roundViews g len b.done b.order).drop b.processed
  answers : ∀ x w r, response x ∈ l.trace → (response x).isAnswer w r = true →
    x.kvs.vals = .cells (roundSum g len r)

variable {b : Barrier g.workers} {l l' : Lane α C} {cfg : Config} {key : Key}

/-- A pull answers with the store once a round is complete. -/
theorem Lane.Sums.pullData (hcfg : cfg.SyncEngine) (h : l.Sums g len b)
    (hdone : b.done ≠ 0 ∨ ∃ m, l.engine = .ready m ∧ m.ops = .allRecv) {stored : Store α}
    (hst : l.st.store = some stored) : Server.pullData cfg l.st = some stored.tensor := by
  obtain ⟨stored', hst', hlen, -⟩ := h.store
  obtain rfl : stored' = stored := Option.some.inj (hst'.symm.trans hst)
  obtain ⟨ht, hl⟩ := h.merged hdone
  simp [Server.pullData, hcfg.sync, ht, hl, KeyState.deref, hst, hlen]

section

omit [AddCommMonoid α]

theorem isAnswer_pull {x : Response α} {v r' : ℕ} (hx : x.reqMeta = (Stage.pull r).reqMeta g w)
    (h : (response x).isAnswer v r' = true) : r' = r := by
  have h' := (isAnswer_iff.mp h).symm.trans (toBarrier_pull hx)
  rw [Option.some.injEq, BarrierEvent.answered.injEq] at h'
  exact h'.2

theorem not_isAnswer_push {x : Response α} {stage : Stage} {v r' : ℕ} (hs : stage.isPush = true)
    (hx : x.reqMeta = stage.reqMeta g w) : (response x).isAnswer v r' = false := by
  rw [← Bool.not_eq_true, isAnswer_iff, toBarrier_push hs hx]
  exact nofun

end

/-- Rounds begin with nothing summed. -/
theorem Lane.Sums.start (hg : g.Uncompressed len) (h : l.Started g) :
    l.Sums g len (.start g.workers) := by
  have hcomp := h.plain hg.kwargs
  obtain ⟨v, hv, hst⟩ := h.allocated
  have hpos := Finset.card_pos.mpr g.workers_nonempty
  have hpending : l.pending = [] := by
    rw [← map_eq_nil_iff, h.round.ops]
    simp [Barrier.start, roundOps, pushOps, hpos.ne]
  refine ⟨hcomp, ⟨_, hst, by simpa using hg.init v hv, fun hp => absurd hp (lt_irrefl 0),
    fun hl => absurd hl (by simp [Barrier.start])⟩, ?_, ?_, ?_⟩
  · rintro (hd | ⟨m, hm, -⟩)
    · exact absurd rfl hd
    · simp [Lane.pending, hm, EngineThread.inFlight] at hpending
  · simp [hpending, Barrier.start, roundViews, hpos.ne]
  · intro x w r hx ha
    have hlog : l.trace.filterMap Event.toBarrier = [] := h.round.log
    rw [filterMap_eq_nil_iff] at hlog
    rw [isAnswer_iff, hlog _ hx] at ha
    cases ha

/-! ## Requests -/

section Requests

theorem Lane.Sums.of_eq (h : l.Sums g len b) (hc : l'.st.contents = l.st.contents)
    (he : l'.engine = l.engine) (hq : l'.queue = l.queue) (ht : l'.trace = l.trace) :
    l'.Sums g len b := by
  obtain ⟨hstore, hmerged, hcomp⟩ := Contents.mk.inj hc
  exact ⟨hcomp.trans h.plain, hstore ▸ h.store,
    by rw [he, hmerged]; exact h.merged, by rw [Lane.pending, he, hq]; exact h.views,
    ht ▸ h.answers⟩

/-- A push that arrives changes no sum yet. -/
theorem Lane.Sums.request_push (hcfg : cfg.SyncEngine) (h : l.Sums g len b) (hr : l.InRound g b)
    (hw : w ∈ g.workers) (ho : w ∉ b.order) (hl : w ∉ b.late)
    (hs : l.request cfg g key w = some l') : l'.Sums g len (b.push w hw ho hl) := by
  obtain ⟨-, hc, he, ⟨x, ht, hx⟩, stored, hst, hq⟩ := hr.request_push hcfg hw ho hl hs
  obtain ⟨hstore, hmerged, hcomp⟩ := Contents.mk.inj hc
  obtain ⟨stored', hst', hlen, hpart, hlate⟩ := h.store
  obtain rfl : stored' = stored := Option.some.inj (hst'.symm.trans hst)
  have hnot : b.order.length ≠ g.workers.card := fun h => ho (b.mem_order_of_full h hw)
  refine ⟨hcomp.trans h.plain,
    ⟨stored', hstore.trans hst', hlen, fun hp => ?_, hlate⟩, ?_, ?_, ?_⟩
  · rw [hpart hp]
    show _ = cellSum g len ((b.order ++ [w]).take b.processed) b.done
    rw [take_append_of_le_length b.processed_le]
  · rw [he, hmerged]
    exact h.merged
  · have hsplit : l'.pending = l.pending ++ l'.queue.drop l.queue.length := by
      rw [Lane.pending, Lane.pending, he, hq, append_assoc, drop_left]
    rw [hsplit, map_append, h.views, hq, drop_left]
    show _ = (roundViews g len b.done (b.order ++ [w])).drop b.processed
    rw [roundViews_push hnot b.processed_le]
    split_ifs <;> simp [view, pushMessage, Stage.data, pushView, allRecvView, hlen]
  · intro y v r hy ha
    rw [ht, mem_append, mem_singleton, Event.response.injEq] at hy
    rcases hy with hy | rfl
    · exact h.answers y v r hy ha
    · rw [not_isAnswer_push rfl hx] at ha
      cases ha

theorem Lane.Sums.request_answer (hcfg : cfg.SyncEngine) (h : l.Sums g len b) (hr : l.InRound g b)
    (hl : w ∈ b.late) (hs : l.request cfg g key w = some l') : l'.Sums g len (b.answer w hl) := by
  obtain ⟨-, hc, he, hq, x, data, ht, hx, hd, hv⟩ := hr.request_answer hcfg hl hs
  obtain ⟨hstore, hmerged, hcomp⟩ := Contents.mk.inj hc
  obtain ⟨stored, hst, hlen, hpart, hlate⟩ := h.store
  obtain ⟨h0, hsum⟩ := hlate ⟨w, hl⟩
  refine ⟨hcomp.trans h.plain,
    ⟨stored, hstore.trans hst, hlen, hpart, fun _ => ⟨h0, hsum⟩⟩, ?_, ?_, ?_⟩
  · rw [he, hmerged]
    exact h.merged
  · rw [Lane.pending, he, hq]
    exact h.views
  · intro y v r hy ha
    rw [ht, mem_append, mem_singleton, Event.response.injEq] at hy
    rcases hy with hy | rfl
    · exact h.answers y v r hy ha
    · rw [h.pullData hcfg (.inl (b.done_ne_zero_of_late hl)) hst, Option.some.injEq] at hd
      rw [hv, ← hd, hsum, isAnswer_pull hx ha]

end Requests

/-! ## Engine steps -/

theorem Lane.Sums.pop (h : l.Sums g len b) {m : EngineMessage α}
    {queue : List (EngineMessage α)} (he : l.engine = .waiting) (hq : l.queue = m :: queue) :
    Lane.Sums g len b { l with engine := .popped m, queue := queue } where
  plain := h.plain
  store := h.store
  merged := by
    rintro (hd | ⟨m', hm, -⟩)
    · exact h.merged (.inl hd)
    · cases hm
  views := by
    rw [← h.views]
    simp [Lane.pending, he, hq, EngineThread.inFlight]
  answers := h.answers

/-- The next message holds a push of the round, or ends it. -/
theorem Lane.Sums.pending_cases (h : l.Sums g len b) (hr : l.InRound g b) {m : EngineMessage α}
    {rest : List (EngineMessage α)} (hp : l.pending = m :: rest) :
    (∃ hlt : b.processed < b.order.length, (m.ops = .copyFirst ∨ m.ops = .sumRecv) ∧
      (m.ops = .copyFirst ↔ b.processed = 0) ∧
      m.view = pushView g len b.done b.order[b.processed] ∧
      rest.map (·.view) = (roundViews g len b.done b.order).drop (b.processed + 1)) ∨
    (b.processed = b.order.length ∧ b.order.length = g.workers.card ∧ m.ops = .allRecv ∧
      rest = [] ∧ m.view = allRecvView len) := by
  have hviews := h.views
  rw [hp, map_cons] at hviews
  rcases hr.pending_cases hp with ⟨hlt, hop, hfirst, -⟩ | ⟨hall, hfull, hop, hrest⟩
  · rcases roundViews_cons b.processed_le hviews with ⟨_, hv, hvs⟩ | ⟨heq, -⟩
    · exact .inl ⟨hlt, hop, hfirst, hv, hvs⟩
    · omega
  · rcases roundViews_cons b.processed_le hviews with ⟨hlt, -⟩ | ⟨-, hv⟩
    · omega
    · exact .inr ⟨hall, hfull, hop, hrest, hv⟩

theorem Lane.Sums.prepare (h : l.Sums g len b) (hr : l.InRound g b) {m m' : EngineMessage α}
    {st : KeyState α C} (he : l.engine = .popped m) (hp : preprocess l.st m = some (st, m')) :
    Lane.Sums g len b { l with st := st, engine := .ready m' } := by
  have hcases := h.pending_cases hr (pending_popped he)
  have hview : (resolveSrc m).view = m.view := by
    rcases hcases with ⟨_, -, -, hv, -⟩ | ⟨-, -, -, -, hv⟩
    · exact view_resolveSrc (.inl hv)
    · exact view_resolveSrc (g := g) (w := 0) (r := 0) (.inr hv)
  have hviews : (resolveSrc m).view :: l.queue.map (·.view) =
      (roundViews g len b.done b.order).drop b.processed := by
    rw [← h.views, pending_popped he, hview, map_cons]
  obtain ⟨-, hop, -⟩ := resolveSrc_fields m
  unfold preprocess at hp
  split_ifs at hp
  simp only [h.plain] at hp
  rcases hcases with ⟨-, hpush, -⟩ | ⟨-, -, hall, -, hv⟩
  · have hkeep : some (l.st, resolveSrc m) = some (st, m') := by
      rw [← hp]
      rcases hpush with hm | hm <;> rw [hm] at hop <;> simp [hop]
    cases hkeep
    refine ⟨h.plain, h.store, ?_, hviews, h.answers⟩
    rintro (hd | ⟨m', hm, hm'⟩)
    · exact h.merged (.inl hd)
    · -- the message is a push
      cases hm
      rw [hop] at hm'
      rcases hpush with hm | hm <;> rw [hm] at hm' <;> cases hm'
  · rw [hall] at hop
    rw [hop] at hp
    cases hp
    have hres : (resolveSrc m).view = allRecvView len := hview.trans hv
    simp only [view, allRecvView, Prod.mk.injEq] at hres
    exact ⟨rfl, h.store, fun _ => ⟨hres.1, hres.2.2⟩, hviews, h.answers⟩

section Execute

variable {m : EngineMessage α} {st : KeyState α C} {rs : List (Response α)}

/-- The engine adds a push to the store. -/
theorem Lane.Sums.execute_push (hg : g.Uncompressed len) (h : l.Sums g len b)
    (hr : l.InRound g b) (he : l.engine = .ready m) (hx : execute cfg l.st m = some (st, rs))
    (hlt : b.processed < b.order.length)
    (hcopy : m.ops = .copyFirst → l.st.isPushFinished = false) :
    (l.executed g m st rs).Sums g len (b.process hlt) := by
  unfold Lane.executed
  obtain ⟨stored, hst, hlen, hpart, hlate⟩ := h.store
  obtain ⟨rfl, -⟩ := hr.execute_push he hx hlt
  obtain ⟨_, hop, hfirst, hv, hrest⟩ | ⟨hall, -⟩ := h.pending_cases hr (pending_ready he)
  swap
  · omega
  have hfin : l.st.isPushFinished = decide b.late.Nonempty :=
    congrArg Bookkeeping.isPushFinished hr.books
  have hnone : ¬b.late.Nonempty := by
    intro hl
    have h0 := (hlate hl).1
    rw [hcopy (hfirst.mpr h0), eq_comm, decide_eq_false_iff_not] at hfin
    exact hfin hl
  have hpay : (g.payload b.order[b.processed] b.done).length = len :=
    hg.payload _ (b.order_mem _ (getElem_mem hlt)) _
  have hev : executedEvents m [] = [] := by
    rcases hop with hop | hop <;> simp [executedEvents, hop]
  simp only [view, pushView, Prod.mk.injEq] at hv
  obtain ⟨stored', src, tensor, hst', hsrc, hc, ha, rfl, -⟩ := execute_push_cases hx hop
  obtain rfl : stored' = stored := Option.some.inj (hst'.symm.trans hst)
  obtain rfl : g.payload b.order[b.processed] b.done = src := by
    simpa [hv.1, KeyState.deref] using hsrc
  have htensor : tensor = cellSum g len (b.order.take (b.processed + 1)) b.done := by
    rw [take_succ_eq_append_getElem hlt]
    rw [hv.2.2] at hc ha
    rcases hop with hm | hm
    · have hcopied := (reducerCopy_full hlen hpay).symm.trans (hc hm)
      rw [Option.some.injEq] at hcopied
      have htake : b.order.take b.processed = [] := by rw [hfirst.mp hm, take_zero]
      rw [htake, nil_append, cellSum_singleton hpay, hcopied]
    · have hpos : 0 < b.processed := by
        rw [Nat.pos_iff_ne_zero, Ne, ← hfirst, hm]
        decide
      have hadded := ha hm
      rw [hpart hpos, reducerSum_cellSum hpay, Option.some.injEq] at hadded
      exact hadded.symm
  subst htensor
  refine ⟨h.plain, ⟨_, rfl, by simp, fun _ => rfl, fun hl => absurd hl hnone⟩, ?_, hrest, ?_⟩
  · rintro (hd | ⟨m', hm, -⟩)
    · exact h.merged (.inl hd)
    · cases hm
  · rw [hev, append_nil]
    exact h.answers

/-- The last message of a round makes its sum the answer. -/
theorem Lane.Sums.execute_allRecv (hcfg : cfg.SyncEngine) (h : l.Sums g len b)
    (hr : l.InRound g b) (he : l.engine = .ready m) (hx : execute cfg l.st m = some (st, rs))
    (hop : m.ops = .allRecv) (hfull : b.order.length = g.workers.card) :
    (l.executed g m st rs).Sums g len (b.complete hfull) := by
  unfold Lane.executed
  obtain ⟨stored, hst, hlen, hpart, -⟩ := h.store
  obtain ⟨-, -, hc, hreqs, hdata⟩ := hr.execute_allRecv he hx hop
  obtain ⟨_, hpush, -⟩ | ⟨hall, -, -, hq, -⟩ := h.pending_cases hr (pending_ready he)
  · rcases hpush with hm | hm <;> rw [hop] at hm <;> cases hm
  have hpos := Finset.card_pos.mpr g.workers_nonempty
  have hsum : stored.tensor = roundSum g len b.done := by
    rw [hpart (by omega), hall, take_length]
    exact cellSum_eq_roundSum b.order_nodup b.order_mem hfull
  have hready : ∃ m, l.engine = .ready m ∧ m.ops = .allRecv := ⟨m, he, hop⟩
  obtain ⟨hstore, hmerged, hcomp⟩ := Contents.mk.inj hc
  refine ⟨hcomp.trans h.plain,
    ⟨stored, hstore.trans hst, hlen, fun hp => absurd hp (lt_irrefl 0),
      fun _ => ⟨rfl, hsum⟩⟩, fun _ => ?_, ?_, ?_⟩
  · rw [hmerged]
    exact h.merged (.inr hready)
  · simp [Lane.pending, hq, EngineThread.inFlight, Barrier.complete, roundViews, hpos.ne]
  · intro y v r hy ha
    rw [executedEvents, if_pos hop, mem_append] at hy
    rcases hy with hy | hy
    · exact h.answers y v r hy ha
    · have hmem : y ∈ rs := by simpa using hy
      obtain ⟨w, -, hw⟩ := mem_map.mp (hreqs ▸ mem_map_of_mem hmem : y.reqMeta ∈ _)
      obtain ⟨data, hd, hvals⟩ := hdata y hmem
      rw [h.pullData hcfg (.inr hready) hst, Option.some.injEq] at hd
      rw [hvals, ← hd, hsum, isAnswer_pull hw.symm ha]

end Execute

/-! ## Runs -/

/-- The first push of a round is executed only after all pulls of the last round are answered. -/
def Lane.CopyAfterPulls (l : Lane α C) : LaneAction → Prop
  | .request _ => True
  | .engine => ∀ m, l.engine = .ready m → m.ops = .copyFirst → l.st.isPushFinished = false

section

variable (hcfg : cfg.SyncEngine) (hg : g.Uncompressed len)
include hcfg hg

/-- Every step of a round keeps the sums those of the processed pushes. -/
theorem Lane.Sums.step (h : l.Sums g len b) (hr : l.InRound g b) {a : LaneAction}
    (ha : l.CopyAfterPulls a) (hs : l.step cfg g key a = some l') :
    ∃ b', l'.InRound g b' ∧ l'.Sums g len b' := by
  cases a with
  | request w =>
    have hw := (Lane.request_cases.mp hs).1
    by_cases hl : w ∈ b.late
    · exact ⟨_, (hr.request_answer hcfg hl hs).1, h.request_answer hcfg hr hl hs⟩
    · by_cases ho : w ∈ b.order
      · obtain ⟨hh, hr', hc, he, hq, ht⟩ := hr.request_hold hcfg ho hs
        obtain ⟨plain, store, merged, views, answers⟩ := h.of_eq hc he hq ht
        exact ⟨_, hr', plain, store, merged, views, answers⟩
      · exact ⟨_, (hr.request_push hcfg hw ho hl hs).1, h.request_push hcfg hr hw ho hl hs⟩
  | engine =>
    rcases Lane.work_cases hs with ⟨m, queue, he, hq, rfl⟩ | ⟨m, st, m', he, hp, rfl⟩ |
      ⟨m, st, rs, he, hx, rfl⟩
    · exact ⟨b, hr.pop he hq, h.pop he hq⟩
    · exact ⟨b, hr.prepare he hp, h.prepare hr he hp⟩
    · rcases hr.pending_cases (pending_ready he) with ⟨hlt, -⟩ | ⟨-, -, hop, -⟩
      · exact ⟨_, (hr.execute_push he hx hlt).2, h.execute_push hg hr he hx hlt (ha m he)⟩
      · obtain ⟨hfull, hr', -⟩ := hr.execute_allRecv he hx hop
        exact ⟨_, hr', h.execute_allRecv hcfg hr he hx hop hfull⟩

/-- The key is being set up, or its rounds sum what was pushed. -/
def Lane.Serves (g : KeyGroup α) (len : ℕ) (l : Lane α C) : Prop :=
  l.InSetup g ∨ ∃ b, l.InRound g b ∧ l.Sums g len b

/-- Every step keeps the lane in its setup or its rounds summing. -/
theorem Lane.Serves.step (h : l.Serves g len) {a : LaneAction} (ha : l.CopyAfterPulls a)
    (hs : l.step cfg g key a = some l') : l'.Serves g len := by
  rcases h with hl | ⟨b, hr, hl⟩
  · rcases hl.step hs with h' | h'
    · exact .inl h'
    · exact .inr ⟨_, h'.round, .start hg h'⟩
  · exact .inr (hl.step hcfg hg hr ha hs)

theorem serves_of_reach (h : Reach (lanes cfg C g key) Lane.CopyAfterPulls l) : l.Serves g len := by
  refine h.invariant (P := Lane.Serves g len) ?_ fun l a l' hl hcopy hs => hl.step hcfg hg hcopy hs
  rintro l rfl
  exact .inl (inSetup_start g)

theorem lane_answers (h : Reach (lanes cfg C g key) Lane.CopyAfterPulls l) {x : Response α}
    (hx : response x ∈ l.trace) (ha : (response x).isAnswer w r = true) :
    x.kvs.vals = .cells (roundSum g len r) := by
  rcases serves_of_reach hcfg hg h with hl | ⟨b, -, hl⟩
  · have hlog := filterMap_eq_nil_iff.mp hl.log
    rw [isAnswer_iff, hlog _ hx] at ha
    cases ha
  · exact hl.answers x w r hx ha

end

/-- The thread is about to execute a `COPY_FIRST` of the key. -/
def EngineThread.copies (key : Key) : EngineThread α → Bool
  | .ready m => m.key = key ∧ m.ops = .copyFirst
  | _ => false

/-- No step executes a `COPY_FIRST` of the key while a pull of the key's last round is unanswered:
`is_push_finished` is false again once all workers have their answers. -/
def CopyAfterPulls (key : Key) (s : Job α C) : Action → Prop
  | .request _ _ => True
  | .engine i => (s.server.engines i).copies key = true →
      (s.server.keyStates key).isPushFinished = false

instance (key : Key) (s : Job α C) : ∀ a, Decidable (CopyAfterPulls key s a)
  | .request _ _ => instDecidableTrue
  | .engine i => inferInstanceAs (Decidable ((s.server.engines i).copies key = true → _))

omit [AddCommMonoid α] in
theorem CopyAfterPulls.lane {s : Job α C} {i : ℕ} (hi : s.server.hashCache key = some i)
    (h : CopyAfterPulls key s (.engine i)) : (s.lane key).CopyAfterPulls .engine := by
  intro m hm hop
  apply h
  have he : (s.server.engines i).ofKey key = .ready m := (laneEngine_of_hashCache hi).symm.trans hm
  cases hs : s.server.engines i with
  | ready x =>
    rw [hs, EngineThread.ofKey] at he
    split_ifs at he with hk
    cases he
    exact decide_eq_true ⟨hk, hop⟩
  | popped x =>
    rw [hs, EngineThread.ofKey] at he
    split_ifs at he
  | _ =>
    rw [hs] at he
    cases he

/-- In synchronous mode with engine threads and plain queues and without a compressor, in every
interleaving in which a `COPY_FIRST` of the key waits for the pulls of the round before: every pull
of round `r` is answered with the elementwise sum of what the workers pushed in round `r`. -/
theorem pulls_sum_of_reach (hcfg : cfg.SyncEngine) {groups : Key → KeyGroup α}
    (hg : (groups key).Uncompressed len) {s : Job α C}
    (h : Reach (jobs cfg C groups) (CopyAfterPulls key) s) {x : Response α}
    (hx : response x ∈ ofKey s.trace key)
    (ha : (response x).isAnswer w r = true) :
    x.kvs.vals = .cells (roundSum (groups key) len r) := by
  have hl : Reach (lanes cfg C (groups key) key) Lane.CopyAfterPulls (s.lane key) :=
    reach_lane hcfg.plainQueues (fun _ _ _ => trivial) (fun _ _ hi hc => hc.lane hi) h
  exact lane_answers hcfg hg hl hx ha

/-- Two rounds of two workers: the second pull of worker `0` is answered with `11 + 12`. -/
theorem pulls_sum_of_reach_pair : ∃ s : Job ℤ noCompressor,
      Reach (jobs {} noCompressor fun _ => pairGroup) (CopyAfterPulls 5) s ∧
      ∃ x, response x ∈ ofKey s.trace 5 ∧ (response x).isAnswer 0 1 = true ∧
        x.kvs.vals = .cells (roundSum pairGroup 1 1) := by
  obtain ⟨s, hs, e, he, ha⟩ := exists_reach (S := jobs {} noCompressor fun _ => pairGroup)
    (G := CopyAfterPulls 5) (P := fun s => ∃ e ∈ ofKey s.trace 5, e.isAnswer 0 1 = true)
    (.init rfl)
    (pairPushes ++ threeMessages ++ [.request 5 0, .request 5 1, .request 5 0, .request 5 1] ++
      threeMessages ++ [.request 5 0])
    (by decide +kernel)
  cases e with
  | allRecv => cases ha
  | response x =>
    exact ⟨s, hs, x, he, ha, pulls_sum_of_reach ⟨rfl, rfl, rfl⟩
      ⟨rfl, fun _ _ => rfl, fun _ _ _ => rfl⟩ hs he ha⟩

/-- Worker `0` has its answer of round `0` and pushes `11` for round `1`; the engine copies it, and
the pull of round `0` by worker `1` is answered with `11` instead of `1 + 2`. -/
theorem late_pull_reads_next_round :
    ∃ s : Job ℤ noCompressor, Reach (jobs {} noCompressor fun _ => pairGroup) Free s ∧
      ∃ x, response x ∈ ofKey s.trace 5 ∧ (response x).isAnswer 1 0 = true ∧
        x.kvs.vals = .cells [11] ∧ roundSum pairGroup 1 0 = [3] := by
  have hrun := exists_reach (S := jobs {} noCompressor fun _ => pairGroup) (G := Free)
    (P := fun s => ∃ e ∈ ofKey s.trace 5, e.isAnswer 1 0 = true ∧
      e = .response ⟨(Stage.pull 0).reqMeta pairGroup 1, ⟨[encodeKey {} 5], .cells [11], [1]⟩⟩)
    (.init rfl)
    (pairPushes ++ threeMessages ++ [.request 5 0, .request 5 0, .engine 0, .engine 0, .engine 0,
      .request 5 1])
    (by decide +kernel)
  obtain ⟨s, hs, e, he, ha, rfl⟩ := hrun
  exact ⟨s, hs, _, he, ha, rfl, by decide⟩

end MegatronDPU.Server
