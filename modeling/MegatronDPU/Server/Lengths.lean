import MegatronDPU.Server.PullOnce

/-!
# The length of a store

A store is allocated with the length of an init push. No handler and no engine step changes its
length afterwards (`store_length_of_reach`), and no handler compares the length of a push with it:
in synchronous mode with engine threads every push of data is accepted (`handleKey_push_isSome`).
-/

namespace MegatronDPU.Server

open Lts Option

variable {α : Type} {C : CompressorClass α} {g : KeyGroup α} {l l' : Lane α C} {cfg : Config}
  {key : Key}

/-! ## Pushes are accepted -/

theorem handleKey_push_isSome [Add α] [Zero α] (hcfg : cfg.SyncEngine) {type : DataHandleType}
    {st : KeyState α C} {req : KVMeta} {data : KVPairs α} {recved : List α}
    (htype : type.requestType = .kDefaultPushPull) (hpush : req.push = true)
    (hvals : data.vals = .cells recved) (hlens : data.lens = [recved.length])
    (hst : st.store.isSome) : (handleKey cfg key type st req data).isSome := by
  obtain ⟨stored, hst⟩ := Option.isSome_iff_exists.mp hst
  have haccept : ∃ ms, acceptPush cfg key type st stored req data recved recved.length =
      some (st, ms) := by
    unfold acceptPush
    simp only [hcfg.sync, hcfg.nonBlocking, if_true]
    by_cases hreq : st.request = []
    · exact ⟨_, if_pos hreq⟩
    · exact ⟨_, if_neg hreq⟩
  obtain ⟨ms, haccept⟩ := haccept
  have hkey : handleKey cfg key type st req data =
      handlePush cfg key type st stored req data recved recved.length := by
    simp [handleKey, htype, hpush, hvals, hlens, hst]
  rw [hkey, handlePush, haccept]
  simp only [bind_eq_bind, bind_some, hcfg.sync, if_true]
  split_ifs
  · simp [finishPushes, hcfg.nonBlocking]
  · rfl

/-! ## The length of a store does not change -/

theorem length_reducerCopy {dst src out : List α} {len : ℕ}
    (h : reducerCopy dst src len = some out) : out.length = dst.length := by
  unfold reducerCopy at h
  split_ifs at h with hlen
  cases h
  rw [List.length_append, List.length_take, List.length_drop]
  omega

theorem length_reducerSum [Add α] {dst src out : List α} {len : ℕ}
    (h : reducerSum dst src len = some out) : out.length = dst.length := by
  unfold reducerSum at h
  split_ifs at h with hlen
  cases h
  rw [List.length_append, List.length_zipWith, List.length_take, List.length_take, List.length_drop]
  omega

/-- The store has the length of an init push. -/
def Lane.StoreLength (g : KeyGroup α) (l : Lane α C) : Prop :=
  ∀ stored, l.st.store = some stored →
    ∃ v ∈ g.workers, stored.tensor.length = (g.initPayload v).length

theorem Lane.Allocated.storeLength [Zero α] (h : l.Allocated g) : l.StoreLength g := by
  intro stored hst
  obtain ⟨v, hv, halloc⟩ := h
  cases halloc.symm.trans hst
  exact ⟨v, hv, List.length_replicate⟩

theorem Lane.InSetup.storeLength [Zero α] (h : l.InSetup g) : l.StoreLength g := by
  obtain ⟨order, -, -, -, hp | hp⟩ := h.phase
  · intro stored hst
    obtain ⟨e, hb, -⟩ := hp.books
    have hnone : l.st.store.isSome = false := congrArg Bookkeeping.initialised hb
    rw [hst] at hnone
    cases hnone
  · exact hp.allocated.storeLength

theorem Lane.StoreLength.of_store_eq (h : l.StoreLength g) (he : l'.st.store = l.st.store) :
    l'.StoreLength g :=
  fun stored hst => h stored (he ▸ hst)

theorem Lane.StoreLength.execute_push [Add α] {m : EngineMessage α} {st : KeyState α C}
    {rs : List (Response α)} (h : l.StoreLength g) (hx : execute cfg l.st m = some (st, rs))
    (hop : m.ops = .copyFirst ∨ m.ops = .sumRecv) (hl : l'.st = st) : l'.StoreLength g := by
  obtain ⟨stored, src, tensor, hst, -, hcopy, hsum, rfl, -⟩ := execute_push_cases hx hop
  intro stored' hst'
  rw [hl] at hst'
  cases hst'
  obtain ⟨v, hv, hlen⟩ := h stored hst
  refine ⟨v, hv, ?_⟩
  rcases hop with hop | hop
  · exact (length_reducerCopy (hcopy hop)).trans hlen
  · exact (length_reducerSum (hsum hop)).trans hlen

/-- No step of a round changes the length of the store. -/
theorem Lane.StoreLength.step [Add α] [Zero α] {b : Barrier g.workers} (hcfg : cfg.SyncEngine)
    (h : l.StoreLength g) (hr : l.InRound g b) {a : LaneAction}
    (hs : l.step cfg g key a = some l') : l'.StoreLength g := by
  cases a with
  | request w =>
    have hw := (Lane.request_cases.mp hs).1
    have hc : l'.st.contents = l.st.contents := by
      by_cases hl : w ∈ b.late
      · exact (hr.request_answer hcfg hl hs).2.1
      · by_cases ho : w ∈ b.order
        · obtain ⟨_, -, hc, -⟩ := hr.request_hold hcfg ho hs
          exact hc
        · exact (hr.request_push hcfg hw ho hl hs).2.1
    exact h.of_store_eq (congrArg Contents.store hc)
  | engine =>
    rcases Lane.work_cases hs with ⟨m, queue, he, hq, rfl⟩ | ⟨m, st, m', he, hp, rfl⟩ |
      ⟨m, st, rs, he, hx, rfl⟩
    · exact h.of_store_eq rfl
    · exact h.of_store_eq (preprocess_spec hp).2.2.2.1
    · rcases hr.pending_cases (pending_ready he) with ⟨-, hop, -⟩ | ⟨-, -, hop, -⟩
      · exact h.execute_push hx hop rfl
      · obtain ⟨_, -, hc, -⟩ := hr.execute_allRecv he hx hop
        exact h.of_store_eq (congrArg Contents.store hc)

theorem store_length_of_reach [Add α] [Zero α] (hcfg : cfg.SyncEngine)
    {groups : Key → KeyGroup α} {s : Job α C} (h : Reach (jobs cfg C groups) Free s)
    {stored : Store α} (hst : (s.server.keyStates key).store = some stored) :
    ∃ v ∈ (groups key).workers, stored.tensor.length = ((groups key).initPayload v).length := by
  have hl : Reach (lanes cfg C (groups key) key) Free (s.lane key) :=
    reach_lane hcfg.plainQueues (fun _ _ _ => trivial) (fun _ _ _ _ => trivial) h
  have hinv := hl.invariant
    (P := fun l => l.StoreLength (groups key) ∧
      (l.InSetup (groups key) ∨ ∃ b, l.InRound (groups key) b)) ?_ ?_
  · exact hinv.1 stored hst
  · rintro l rfl
    exact ⟨(inSetup_start _).storeLength, .inl (inSetup_start _)⟩
  · rintro l a l' ⟨hlen, hs | ⟨b, hr⟩⟩ - hstep
    · rcases hs.step hstep with h' | h'
      · exact ⟨h'.storeLength, .inl h'⟩
      · exact ⟨h'.allocated.storeLength, .inr ⟨_, h'.round⟩⟩
    · exact ⟨hlen.step hcfg hr hstep, .inr (hr.step hcfg hstep)⟩

end MegatronDPU.Server
