import MegatronDPU.Torch.BroadcastRuns

/-!
# Every rank returns with the object of the root

`Inv` relates the processes of a uniform job to the requests of their machines. Two broadcasts of a
name have one of another name between them, so no push of a round is executed before the pulls of
the round before are answered (`Inv.copyAfterPulls`), and every answer is the sum of its round
(`Inv.pulled_eq`).
-/

namespace MegatronDPU.Torch.Broadcasts

open Lts Chunks Occurrence Finset Function List Option Process
open Server
open Worker (Task slice)

variable {b : Broadcasts}

/-! ## Ranks and keys -/

variable {j node rank : ℕ} {key : Key} {o : Op} {task : Task}

section Ranks

theorem mem_ranksOf : rank ∈ b.ranksOf node ↔ b.node rank = node := by
  have hpos := b.localSize_pos
  unfold ranksOf Broadcasts.node
  rw [List.mem_map, Nat.div_eq_iff hpos]
  constructor
  · rintro ⟨i, hi, rfl⟩
    rw [List.mem_range] at hi
    omega
  · rintro ⟨hle, hge⟩
    exact ⟨rank - node * b.localSize, List.mem_range.mpr (by omega), by omega⟩

theorem node_lt_iff : b.node rank < b.numWorker ↔ rank < b.size :=
  Nat.div_lt_iff_lt_mul b.localSize_pos

theorem lt_size_of_mem (hnode : node < b.numWorker) (hrank : rank ∈ b.ranksOf node) :
    rank < b.size :=
  node_lt_iff.mp (mem_ranksOf.mp hrank ▸ hnode)

def keySet (b : Broadcasts) : Finset Key := (b.ops.flatMap b.keys).toFinset

theorem mem_keySet : key ∈ b.keySet ↔ ∃ o ∈ b.ops, key ∈ b.keys o := by
  rw [keySet, List.mem_toFinset, mem_flatMap]

theorem exists_task (hkey : key ∈ b.keys o) : ∃ task ∈ b.tasks o, task.key = key := by
  rw [keys_eq] at hkey
  exact List.mem_map.mp hkey

theorem Uniform.lens_pos (h : b.Uniform) (ho : o ∈ b.ops) (hkey : key ∈ b.keys o) :
    0 < b.lens key := by
  obtain ⟨task, ht, rfl⟩ := exists_task hkey
  rw [h.lens_eq ho ht]
  exact task_len_pos ht

theorem Uniform.sum_lens (h : b.Uniform) (ho : o ∈ b.ops) :
    ∑ key ∈ (b.keys o).toFinset, b.lens key = o.data.length := by
  have hlens : (b.keys o).map b.lens = (b.tasks o).map (·.len) := by
    rw [keys_eq, List.map_map]
    exact map_congr_left fun task ht => h.lens_eq ho ht
  rw [sum_toFinset _ (h.nodup_keys ho), hlens, tasks_eq, List.map_map]
  exact (sum_len _).trans (offset_count b.partitionBound_pos)

def keysOf (b : Broadcasts) (name : String) : Finset Key :=
  (((b.ops.find? (·.name = name)).map b.keys).getD []).toFinset

theorem mem_keysOf {name : String} (hkey : key ∈ b.keysOf name) :
    ∃ o ∈ b.ops, o.name = name ∧ key ∈ b.keys o := by
  rw [keysOf, List.mem_toFinset] at hkey
  cases hfind : b.ops.find? (·.name = name) with
  | none =>
    rw [hfind] at hkey
    cases hkey
  | some o =>
    rw [hfind] at hkey
    exact ⟨o, mem_of_find?_eq_some hfind, by simpa using find?_some hfind, hkey⟩

theorem Uniform.keySet_eq (h : b.Uniform) :
    b.keySet = (b.ops.map (·.name)).toFinset.biUnion b.keysOf := by
  ext key
  rw [mem_biUnion, mem_keySet]
  constructor
  · rintro ⟨o, ho, hkey⟩
    obtain ⟨o', hmem, hname, hfind⟩ := exists_find? (p := (·.name = o.name)) ho rfl
    refine ⟨o.name, List.mem_toFinset.mpr (mem_map_of_mem ho), ?_⟩
    rw [keysOf, hfind, List.mem_toFinset]
    show key ∈ b.keys o'
    rwa [keys_eq, h.tasks_congr hmem ho hname, ← keys_eq]
  · rintro ⟨name, -, hkey⟩
    obtain ⟨o, ho, -, hkey⟩ := mem_keysOf hkey
    exact ⟨o, ho, hkey⟩

theorem Uniform.sum_keySet_lt (h : b.Uniform) : ∑ key ∈ b.keySet, b.lens key < 2 ^ 64 - 1 := by
  have hdisj : Set.PairwiseDisjoint ((b.ops.map (·.name)).toFinset : Set String) b.keysOf := by
    intro name _ name' _ hne
    refine Finset.disjoint_left.mpr fun key hkey hkey' => hne ?_
    obtain ⟨o, ho, rfl, ho₁⟩ := mem_keysOf hkey
    obtain ⟨o', ho', rfl, ho₂⟩ := mem_keysOf hkey'
    exact h.apart o ho o' ho' key ho₁ ho₂
  rw [h.keySet_eq, sum_biUnion hdisj]
  refine lt_of_eq_of_lt (sum_congr rfl fun name _ => ?_) h.room
  unfold stored keysOf
  cases hfind : b.ops.find? (·.name = name) with
  | none => rfl
  | some o => exact h.sum_lens (mem_of_find?_eq_some hfind)

theorem Uniform.index_unique (h : b.Uniform) {i : ℕ} {o' : Op} (ho : b.ops[i]? = some o)
    (ho' : b.ops[j]? = some o') (hkey : key ∈ b.keys o) (hkey' : key ∈ b.keys o')
    (hround : b.round o.name i = b.round o'.name j) : i = j := by
  have hname := h.apart o (mem_of_getElem? ho) o' (mem_of_getElem? ho') key hkey hkey'
  rw [hname] at hround
  exact eq_of_before_eq ho (decide_eq_true hname) ho' (decide_eq_true rfl) hround

end Ranks

/-! ## The invariant -/

section Invariant

variable {C : CompressorClass ℕ} {s t : State C}

/-- Between two steps: the server is in a state of the requests known in advance, a machine has made
requests for broadcasts that all its processes have entered, and its requests for broadcasts that
one of its processes is through with are answered. -/
structure Inv (b : Broadcasts) (s : State C) : Prop where
  reach : Reach (jobs b.server C b.expected) (fun x a => ∀ key, CopyAfterPulls key x a) s.job
  threaded : s.job.Threaded b.lens b.keySet
  processes : ∀ rank < b.size, (s.processes rank).Ok b rank
  begun : ∀ key node m, m < (s.job.clients key node).begun → ∃ j o, b.ops[j]? = some o ∧
    key ∈ b.keys o ∧ b.round o.name j = m ∧ ∀ rank ∈ b.ranksOf node, j < (s.processes rank).entered
  ended : ∀ rank < b.size, ∀ j o key, b.ops[j]? = some o → key ∈ b.keys o →
    j < (s.processes rank).finished →
    b.round o.name j < (s.job.clients key (b.node rank)).stage.round

theorem inv_start : Inv b ({ job := { server := .start b.server } } : State C) where
  reach := .init rfl
  threaded := threaded_start b.engineThreadNum_pos
  processes _ _ :=
    { le := Nat.zero_le _
      returned := rfl
      transfer := fun _ ht => nomatch ht
      rounds := fun _ => rfl
      contexts := fun _ => rfl }
  begun _ _ _ h := absurd h (Nat.not_lt_zero _)
  ended _ _ _ _ _ _ _ h := absurd h (Nat.not_lt_zero _)

theorem Inv.lane (hcfg : b.server.SyncEngine) (hi : Inv b s) (key : Key) :
    Reach (lanes b.server C (b.expected key) key) Lane.CopyAfterPulls (s.job.lane key) :=
  reach_lane hcfg.plainQueues (fun _ _ _ => trivial) (fun _ _ hh hc => (hc key).lane hh)
    hi.reach

theorem Inv.live (hcfg : b.server.SyncEngine) (hi : Inv b s) (key : Key) :
    (s.job.lane key).Live (b.expected key) (b.lens key) :=
  live_of_reach hcfg (uncompressed_expected key) (hi.lane hcfg key)

/-- A worker has one answer for each round that it is through with. -/
theorem Inv.once (hcfg : b.server.SyncEngine) (hi : Inv b s) (key : Key) (w r : ℕ) :
    (ofKey s.job.trace key).countP (·.isAnswer w r) =
      if r < (s.job.clients key w).stage.round then 1 else 0 := by
  rcases (hi.live hcfg key).serves with hl | ⟨_, hl, -⟩
  · exact hl.pullsOnce.once w r
  · exact hl.pullsOnce.once w r

/-! ### No round is overtaken -/

variable (h : b.Uniform) (hcfg : b.server.SyncEngine) (hi : Inv b s)

include h hcfg hi in
/-- What a machine has begun, other machines have entered, and so have been through with what comes
before. -/
theorem Inv.entered_of_finished {rank' : ℕ} (hrank : rank < b.size) (hrank' : rank' < b.size)
    (hj : j < (s.processes rank).finished) (hlt : j < b.ops.length) :
    j < (s.processes rank').entered := by
  obtain ⟨o, ho⟩ : ∃ o, b.ops[j]? = some o := ⟨_, getElem?_eq_getElem hlt⟩
  have hmem := mem_of_getElem? ho
  obtain ⟨task, ht⟩ := exists_mem_of_ne_nil _ (b.tasks_ne_nil h hmem)
  have hkey := key_mem_keys ht
  have hround := hi.ended rank hrank j o task.key ho hkey hj
  have hnode : b.node rank' ∈ (b.expected task.key).workers :=
    Finset.mem_range.mpr (node_lt_iff.mpr hrank')
  obtain ⟨j', o', ho', hkey', hround', hentered⟩ := hi.begun task.key (b.node rank') _
    ((hi.live hcfg task.key).serves.lt_begun hnode hround)
  obtain rfl := h.index_unique ho' ho hkey' hkey hround'
  exact hentered rank' (mem_ranksOf.mpr rfl)

include h hcfg hi in
theorem Inv.copyAfterPulls (a : Server.Action) (key : Key) : CopyAfterPulls key s.job a := by
  cases a with
  | request key' node => trivial
  | engine i =>
    intro hcopies
    by_contra hfin
    rw [Bool.not_eq_false] at hfin
    obtain ⟨m, he, hmkey, hop⟩ : ∃ m, s.job.server.engines i = .ready m ∧ m.key = key ∧
        m.ops = .copyFirst := by
      cases he : s.job.server.engines i with
      | ready m =>
        rw [he] at hcopies
        exact ⟨m, rfl, of_decide_eq_true hcopies⟩
      | _ =>
        rw [he] at hcopies
        cases hcopies
    subst hmkey
    have hhash := (routed_of_reach hcfg hi.reach).ready i m he
    have hlane : (s.job.lane m.key).engine = .ready m.eraseId :=
      (laneEngine_of_hashCache hhash).trans (by simp [he, Server.EngineThread.ofKey])
    rcases (hi.live hcfg m.key).serves with hl | ⟨bar, hr, -⟩
    · rw [hl.engine] at hlane
      cases hlane
    -- machine `w` has pushed for a round whose last pulls are not answered at machine `v`
    obtain ⟨w, hw⟩ : ∃ w, w ∈ bar.order :=
      hr.exists_order (by rw [pending_ready hlane]; exact cons_ne_nil _ _)
    have hlate : (s.job.lane m.key).st.isPushFinished = decide bar.late.Nonempty :=
      congrArg Server.Bookkeeping.isPushFinished hr.books
    rw [show (s.job.lane m.key).st.isPushFinished = true from hfin, eq_comm,
      decide_eq_true_iff] at hlate
    obtain ⟨v, hv⟩ := hlate
    have hdone := bar.done_ne_zero_of_late hv
    have hwclient : s.job.clients m.key w = _ := hr.client_order hw
    have hvclient : s.job.clients m.key v = _ := hr.client_late hv
    obtain ⟨j, o, ho, hkey, hround, hentered⟩ := hi.begun m.key w bar.done
      (by rw [hwclient]; exact Nat.lt_succ_self _)
    obtain ⟨j', o', ho', hkey', hround', -⟩ := hi.begun m.key w (bar.done - 1)
      (by rw [hwclient]; exact (Nat.sub_le _ _).trans_lt (Nat.lt_succ_self _))
    have hname := h.apart o' (mem_of_getElem? ho') o (mem_of_getElem? ho) m.key hkey' hkey
    have hlt : j' < j := by
      by_contra hle
      have hmono : b.round o.name j ≤ b.round o.name j' := before_mono (not_lt.mp hle)
      rw [hname] at hround'
      omega
    have hne : j' + 1 ≠ j := by
      rintro rfl
      exact name_ne_succ ho' ho hname
    -- every process is through with the broadcast before, hence with the last one of the key
    obtain ⟨rank, hrank⟩ := exists_mem_of_ne_nil _ (b.ranksOf_ne_nil w)
    obtain ⟨rank', hrank'⟩ := exists_mem_of_ne_nil _ (b.ranksOf_ne_nil v)
    have hsize := lt_size_of_mem (Finset.mem_range.mp (bar.order_mem w hw)) hrank
    have hsize' := lt_size_of_mem (Finset.mem_range.mp (bar.late_subset hv)) hrank'
    have hbound : j < b.ops.length := (List.getElem?_eq_some_iff.mp ho).1
    have hfinished := (s.processes rank).entered_le
    have hfinished' := (s.processes rank').entered_le
    have hj := hentered rank hrank
    have hall : j - 1 < (s.processes rank').entered :=
      hi.entered_of_finished h hcfg hsize hsize' (by omega) (by omega)
    have hthrough := hi.ended rank' hsize' j' o' m.key ho' hkey' (by omega)
    rw [mem_ranksOf.mp hrank', hvclient, hround'] at hthrough
    exact lt_irrefl _ hthrough

/-! ### Answers -/

variable {r : ℕ}

theorem answerTo_of_not_isAnswer {e : Event ℕ} (h : e.isAnswer node r = false) :
    answerTo node r e = none := by
  cases e with
  | allRecv => rfl
  | response x =>
    unfold answerTo
    dsimp only
    rw [h]

theorem answerTo_of_isAnswer {e : Event ℕ} (h : e.isAnswer node r = true) {data : List ℕ}
    (hdata : ∀ x, e = .response x → x.kvs.vals = .cells data) : answerTo node r e = some data := by
  cases e with
  | allRecv => cases h
  | response x =>
    unfold answerTo
    dsimp only
    rw [h, hdata x rfl]

theorem findSome?_answerTo {trace : List (Event ℕ)} {data : List ℕ}
    (h : ∀ x, Event.response x ∈ trace → (Event.response x).isAnswer node r = true →
      x.kvs.vals = .cells data) :
    trace.findSome? (answerTo node r) =
      if trace.countP (·.isAnswer node r) = 0 then none else some data := by
  induction trace with
  | nil => rfl
  | cons e trace ih =>
    have ih := ih fun x hx => h x (mem_cons_of_mem e hx)
    rw [findSome?_cons]
    cases hans : e.isAnswer node r with
    | false =>
      rw [answerTo_of_not_isAnswer hans, ih, countP_cons_of_neg (by simp [hans])]
    | true =>
      have hsome : answerTo node r e = some data := by
        refine answerTo_of_isAnswer hans fun x hx => ?_
        subst hx
        exact h x mem_cons_self hans
      rw [hsome, countP_cons_of_pos hans, if_neg (Nat.succ_ne_zero _)]

include h hcfg hi in
theorem Inv.pulled_eq (ho : b.ops[j]? = some o) (ht : task ∈ b.tasks o) (node : ℕ) :
    s.pulled node (b.round o.name j) task =
      if b.round o.name j < (s.job.clients task.key node).stage.round then
        some (slice o.data task.offset task.len) else none := by
  have hvals : ∀ x, Event.response x ∈ ofKey s.job.trace task.key →
      (Event.response x).isAnswer node (b.round o.name j) = true →
      x.kvs.vals = .cells (slice o.data task.offset task.len) := by
    intro x hx hans
    rw [← h.roundSum_eq ho ht]
    exact lane_answers hcfg (uncompressed_expected task.key) (hi.lane hcfg task.key) hx hans
  have hlen := h.length_slice_task (mem_of_getElem? ho) rfl ht
  unfold State.pulled
  rw [findSome?_answerTo hvals, hi.once hcfg]
  by_cases hround : b.round o.name j < (s.job.clients task.key node).stage.round
  · rw [if_pos hround, if_pos hround, if_neg Nat.one_ne_zero, bind_eq_bind, bind_some,
      hlen, if_pos le_rfl, drop_eq_nil_of_le (length_take_le _ _), append_nil]
  · rw [if_neg hround, if_neg hround, if_pos rfl]
    rfl

theorem mapM_eq_some_map {α β : Type} {f : α → Option β} {g : α → β} {l : List α}
    (h : ∀ x ∈ l, f x = some (g x)) : l.mapM f = some (l.map g) := by
  induction l with
  | nil => rfl
  | cons x l ih =>
    rw [mapM_cons, h x mem_cons_self, ih fun y hy => h y (mem_cons_of_mem x hy)]
    rfl

theorem exists_of_mapM {α β : Type} {f : α → Option β} {l : List α} {ys : List β}
    (h : l.mapM f = some ys) {x : α} (hx : x ∈ l) : ∃ y ∈ ys, f x = some y := by
  induction l generalizing ys with
  | nil => cases hx
  | cons z l ih =>
    rw [mapM_cons] at h
    obtain ⟨y, hy, h⟩ := bind_eq_some_iff.mp h
    obtain ⟨ys', hys, h⟩ := bind_eq_some_iff.mp h
    obtain rfl : y :: ys' = ys := some.inj h
    rcases List.mem_cons.mp hx with rfl | hx
    · exact ⟨y, mem_cons_self, hy⟩
    · obtain ⟨y', hy', hf⟩ := ih hys hx
      exact ⟨y', mem_cons_of_mem y hy', hf⟩

/-- All pulls of the broadcast that a process waits for are answered. -/
def Answered (b : Broadcasts) (s : State C) (rank : ℕ) : Prop :=
  ∀ o, b.ops[(s.processes rank).entered - 1]? = some o → ∀ task ∈ b.tasks o,
    b.round o.name ((s.processes rank).entered - 1) <
      (s.job.clients task.key (b.node rank)).stage.round

section

variable (h : b.Uniform) (hcfg : b.server.SyncEngine) (hi : Inv b s) (hrank : rank < b.size)
include h hcfg hi hrank

theorem Inv.output_eq (hphase : (s.processes rank).phase ≠ .idle) (ha : Answered b s rank) :
    ∃ o, b.ops[(s.processes rank).entered - 1]? = some o ∧ s.output b rank = some o.data := by
  obtain ⟨-, t, ht⟩ := (s.processes rank).busy hphase
  obtain ⟨o, ho, rfl⟩ := (hi.processes rank hrank).transfer t ht
  refine ⟨o, ho, ?_⟩
  have hpulls : (b.tasks o).mapM (s.pulled (b.node rank)
      (b.round o.name ((s.processes rank).entered - 1))) =
      some ((b.tasks o).map fun task => slice o.data task.offset task.len) :=
    mapM_eq_some_map fun task htask => by
      rw [hi.pulled_eq h hcfg ho htask, if_pos (ha o ho task htask)]
  unfold State.output
  simp only [ht, transfer, bind_eq_bind, bind_some, hpulls]
  rw [h.flatten_slices (mem_of_getElem? ho) rfl]

theorem Inv.answered_of_output {out : List ℕ} (hout : s.output b rank = some out) :
    Answered b s rank := by
  obtain ⟨t, ht, hout⟩ := bind_eq_some_iff.mp hout
  obtain ⟨pulls, hpulls, -⟩ := bind_eq_some_iff.mp hout
  obtain ⟨o, ho, rfl⟩ := (hi.processes rank hrank).transfer t ht
  intro o' ho' task htask
  obtain rfl : o = o' := some.inj (ho.symm.trans ho')
  obtain ⟨data, -, hdata⟩ := exists_of_mapM hpulls htask
  have heq := hi.pulled_eq h hcfg ho htask (b.node rank)
  by_contra hnot
  rw [if_neg hnot] at heq
  exact absurd (hdata.symm.trans heq) nofun

/-! ### Steps -/

/-- A process whose broadcast is answered goes on. -/
theorem Inv.proceed (hlt : (s.processes rank).returned.length < b.calls.length)
    (hready : (s.processes rank).phase = .idle ∨ Answered b s rank) :
    ∃ p', (s.processes rank).proceed b rank (s.output b rank) = some p' ∧
      p'.pc = (s.processes rank).pc + 1 ∧
      Inv b { s with processes := update s.processes rank p' } := by
  have hout : (s.processes rank).phase = .idle ∨
      ∃ o, b.ops[(s.processes rank).entered - 1]? = some o ∧ s.output b rank = some o.data := by
    by_cases hidle : (s.processes rank).phase = .idle
    · exact .inl hidle
    · exact .inr (hi.output_eq h hcfg hrank hidle (hready.resolve_left hidle))
  obtain ⟨p', hp', hok', hpc⟩ := (hi.processes rank hrank).proceed h hrank hlt hout
  refine ⟨p', hp', hpc, ⟨hi.reach, hi.threaded, fun r hr => ?_, fun key node m hm => ?_,
    fun r hr j o key ho hkey hj => ?_⟩⟩
  · show (update s.processes rank p' r).Ok b r
    by_cases hrr : r = rank
    · rw [hrr, update_self]
      exact hok'
    · rw [update_of_ne hrr]
      exact hi.processes r hr
  · obtain ⟨j, o, ho, hkey, hround, hentered⟩ := hi.begun key node m hm
    refine ⟨j, o, ho, hkey, hround, fun r hr => ?_⟩
    show j < (update s.processes rank p' r).entered
    have hj := hentered r hr
    by_cases hrr : r = rank
    · rw [hrr, entered_eq] at hj
      rw [hrr, update_self, entered_eq, hpc]
      omega
    · rw [update_of_ne hrr]
      exact hj
  · replace hj : j < (update s.processes rank p' r).finished := hj
    by_cases hrr : r = rank
    swap
    · rw [update_of_ne hrr] at hj
      exact hi.ended r hr j o key ho hkey hj
    subst hrr
    rw [update_self, finished_eq, hpc] at hj
    by_cases hold : j < (s.processes r).finished
    · exact hi.ended r hr j o key ho hkey hold
    -- the broadcast that the process has waited for
    have hentered := (s.processes r).entered_eq
    rw [finished_eq] at hold
    have hidle : (s.processes r).phase ≠ .idle := by
      intro hidle
      have hmod : (s.processes r).pc % 3 = 0 := by
        rw [pc, hidle]
        exact Nat.mul_mod_right 3 _
      omega
    obtain rfl : j = (s.processes r).entered - 1 := by omega
    obtain ⟨task, ht, rfl⟩ := exists_task hkey
    exact hready.resolve_left hidle o ho task ht

theorem Inv.ready_of_proceed {p' : Process}
    (hp : (s.processes rank).proceed b rank (s.output b rank) = some p') :
    (s.processes rank).returned.length < b.calls.length ∧
      ((s.processes rank).phase = .idle ∨ Answered b s rank) := by
  obtain ⟨c, hc, hp⟩ := bind_eq_some_iff.mp hp
  refine ⟨(List.getElem?_eq_some_iff.mp hc).1, ?_⟩
  split at hp
  · rename_i hidle
    exact .inl hidle
  all_goals
    obtain ⟨out, hout, -⟩ := bind_eq_some_iff.mp hp
    exact .inr (hi.answered_of_output h hcfg hrank hout)

end

theorem Process.Ok.part_cases {p : Process} (hp : p.Ok b rank) {x : Transfer × Task}
    (hx : p.part key = some x) :
    ∃ j o, b.ops[j]? = some o ∧ p.entered = j + 1 ∧
      x.1 = b.transfer o (b.round o.name j) rank ∧ x.2 ∈ b.tasks o ∧ x.2.key = key := by
  obtain ⟨t, ht, hx⟩ := bind_eq_some_iff.mp hx
  obtain ⟨task, hfind, rfl⟩ := map_eq_some_iff.mp hx
  obtain ⟨o, ho, rfl⟩ := hp.transfer t ht
  have hpos := (p.busy fun hidle => absurd ht (by simp [hidle, Phase.transfer])).1
  exact ⟨p.entered - 1, o, ho, by omega, rfl, mem_of_find?_eq_some hfind,
    by simpa using find?_some hfind⟩

theorem Process.Ok.part_eq (h : b.Uniform) {p : Process} (hp : p.Ok b rank)
    (ho : b.ops[j]? = some o) (hphase : p.phase ≠ .idle) (hentered : p.entered = j + 1)
    (ht : task ∈ b.tasks o) :
    p.part task.key = some (b.transfer o (b.round o.name j) rank, task) := by
  obtain ⟨-, t, htransfer⟩ := p.busy hphase
  obtain ⟨o', ho', rfl⟩ := hp.transfer t htransfer
  rw [hentered, Nat.add_sub_cancel] at ho' htransfer
  obtain rfl : o = o' := some.inj (ho.symm.trans ho')
  rw [part, htransfer, bind_some, Broadcasts.transfer, h.find_task (mem_of_getElem? ho) ht]
  rfl

/-- All processes of a machine are in the same broadcast with a key, and the machine is not done
with it. -/
structure Ready (b : Broadcasts) (s : State C) (key : Key) (node j : ℕ) (o : Op) (task : Task) :
    Prop where
  op : b.ops[j]? = some o
  mem_tasks : task ∈ b.tasks o
  key_eq : task.key = key
  round : b.round o.name j = (s.job.clients key node).stage.round
  entered : ∀ rank ∈ b.ranksOf node, (s.processes rank).entered = j + 1
  parts : ∀ rank ∈ b.ranksOf node,
    (s.processes rank).part key = some (b.transfer o (b.round o.name j) rank, task)

theorem Ready.step_eq (h : b.Uniform) (hr : Ready b s key node j o task) :
    s.step b (.request key node) = (s.job.step b.server b.expected (.request key node)).map
      fun job => { s with
        job := job
        shared := s.keep key node (localSum (b.parts o (b.round o.name j) node task)) } := by
  have hmem := mem_of_getElem? hr.op
  have hparts : ((b.ranksOf node).mapM fun rank => (s.processes rank).part key) =
      some (b.parts o (b.round o.name j) node task) := mapM_eq_some_map hr.parts
  have hround : ∀ p ∈ b.parts o (b.round o.name j) node task,
      p.1.round = (s.job.clients key node).stage.round := by
    intro p hp
    obtain ⟨rank, -, rfl⟩ := List.mem_map.mp hp
    exact hr.round
  obtain ⟨rank, hhead⟩ := b.head?_parts o (b.round o.name j) node task
  have hpayload : b.payload key node (s.job.clients key node).stage.round =
      localSum (b.parts o (b.round o.name j) node task) := by
    rw [← hr.round, ← hr.key_eq]
    exact h.payload_eq hr.op hr.mem_tasks node
  have hjob : s.job.step b.server (fun _ => b.group o.dtype
      (localSum (b.parts o (b.round o.name j) node task))) (.request key node) =
      s.job.step b.server b.expected (.request key node) := by
    refine Server.Job.step_request_congr rfl ?_ rfl ?_
    · rw [h.dtype_expected hmem (hr.key_eq ▸ key_mem_keys hr.mem_tasks)]
      rfl
    · cases hstage : (s.job.clients key node).stage with
      | init | push r =>
        rw [hstage] at hpayload
        simp only [Stage.data, group, expected, ← hpayload]
        rfl
      | _ => rfl
  unfold State.step
  simp only [bind_eq_bind, hparts, bind_some, if_pos hround, hhead, map_some, getD_some]
  rw [show (b.transfer o (b.round o.name j) rank).dtype = o.dtype from rfl, hjob]
  rw [map_eq_bind]
  rfl

theorem Inv.ready_of_request (h : b.Uniform) (hi : Inv b s)
    (hs : s.step b (.request key node) = some t) : ∃ j o task, Ready b s key node j o task := by
  obtain ⟨parts, hparts, hs⟩ := bind_eq_some_iff.mp hs
  split_ifs at hs with hround
  obtain ⟨job, hjob, -⟩ := bind_eq_some_iff.mp hs
  have hnode : node < b.numWorker := Finset.mem_range.mp (Server.Job.request_cases hjob).1
  have hcases : ∀ rank ∈ b.ranksOf node, ∃ j o task, b.ops[j]? = some o ∧
      (s.processes rank).entered = j + 1 ∧
      (s.processes rank).part key = some (b.transfer o (b.round o.name j) rank, task) ∧
      task ∈ b.tasks o ∧ task.key = key ∧
      b.round o.name j = (s.job.clients key node).stage.round := by
    intro rank hrank
    obtain ⟨⟨x, task⟩, hx, hpart⟩ := exists_of_mapM hparts hrank
    obtain ⟨j, o, ho, hentered, rfl, htask, hkey⟩ :=
      (hi.processes rank (lt_size_of_mem hnode hrank)).part_cases hpart
    exact ⟨j, o, task, ho, hentered, hpart, htask, hkey, hround _ hx⟩
  obtain ⟨rank₀, hrank₀⟩ := exists_mem_of_ne_nil _ (b.ranksOf_ne_nil node)
  obtain ⟨j, o, task, ho, -, -, htask, hkey, hr⟩ := hcases rank₀ hrank₀
  have hsame : ∀ rank ∈ b.ranksOf node, (s.processes rank).entered = j + 1 ∧
      (s.processes rank).part key = some (b.transfer o (b.round o.name j) rank, task) := by
    intro rank hrank
    obtain ⟨j', o', task', ho', hentered', hpart', htask', hkey', hr'⟩ := hcases rank hrank
    obtain rfl : j = j' := h.index_unique ho ho' (hkey ▸ key_mem_keys htask)
      (hkey' ▸ key_mem_keys htask') (hr.trans hr'.symm)
    obtain rfl : o = o' := some.inj (ho.symm.trans ho')
    have hmem := mem_of_getElem? ho
    obtain rfl : task = task' := by
      have hfind := h.find_task hmem htask
      rw [hkey, ← hkey', h.find_task hmem htask'] at hfind
      exact (some.inj hfind).symm
    exact ⟨hentered', hpart'⟩
  exact ⟨j, o, task, ho, htask, hkey, hr, fun rank hrank => (hsame rank hrank).1,
    fun rank hrank => (hsame rank hrank).2⟩

theorem Ready.mem_keySet (hr : Ready b s key node j o task) : key ∈ b.keySet :=
  Broadcasts.mem_keySet.mpr
    ⟨o, mem_of_getElem? hr.op, hr.key_eq ▸ key_mem_keys hr.mem_tasks⟩

/-- A request that is ready keeps the broadcasts in step. -/
theorem Inv.request (hcfg : b.server.SyncEngine) (hi : Inv b s) (hr : Ready b s key node j o task)
    {job : Server.Job ℕ C} (hs : s.job.step b.server b.expected (.request key node) = some job)
    (shared : ℕ → Key → List ℕ) : Inv b { s with job := job, shared := shared } := by
  have hrouted := routed_of_reach hcfg hi.reach
  have hserves := (hi.live hcfg key).serves
  obtain ⟨-, -, out, -, -, hclients, -⟩ := Server.Job.request_cases hs
  refine ⟨hi.reach.step (a := .request key node) (fun _ => trivial) hs,
    hi.threaded.request hcfg (uncompressed_expected key) hserves hrouted hr.mem_keySet hs,
    hi.processes, fun k v m hm => ?_, fun rank hrank i o' k ho' hk hlt => ?_⟩
  · replace hm : m < (job.clients k v).begun := hm
    by_cases hkey : k = key
    swap
    · rw [hclients, update_of_ne hkey] at hm
      exact hi.begun k v m hm
    subst hkey
    rw [hclients, update_self, begun_deliver, update_apply] at hm
    by_cases hv : v = node
    swap
    · rw [if_neg hv] at hm
      exact hi.begun k v m hm
    subst hv
    rw [if_pos rfl, begun_waiting] at hm
    have hle := round_le_begun (s.job.clients k v)
    by_cases hm' : m < (s.job.clients k v).begun
    · exact hi.begun k v m hm'
    · refine ⟨j, o, hr.op, hr.key_eq ▸ key_mem_keys hr.mem_tasks, ?_, fun rank hrank => ?_⟩
      · rw [hr.round]
        omega
      · rw [hr.entered rank hrank]
        exact Nat.lt_succ_self j
  · refine (hi.ended rank hrank i o' k ho' hk hlt).trans_le ?_
    by_cases hkey : k = key
    · subst hkey
      rw [hclients, update_self]
      refine le_trans ?_ (round_le_deliver _ _ _)
      rw [update_apply]
      split_ifs with hv
      · rw [hv]
      · exact le_rfl
    · rw [hclients, update_of_ne hkey]

include h hcfg hi in
/-- A turn of a server's engine keeps the broadcasts in step. -/
theorem Inv.engine {i : ℕ} {job : Server.Job ℕ C}
    (hs : s.job.step b.server b.expected (.engine i) = some job) : Inv b { s with job := job } := by
  have hrouted := routed_of_reach hcfg hi.reach
  obtain ⟨-, k, -, hwork, hother⟩ := engine_works hrouted hs
  have hclients : ∀ key v, (job.clients key v).begun = (s.job.clients key v).begun ∧
      (s.job.clients key v).stage.round ≤ (job.clients key v).stage.round := by
    intro key v
    by_cases hkey : key = k
    · subst hkey
      exact Lane.begun_work hwork v
    · rw [show job.clients key = s.job.clients key from congrArg Lane.clients (hother key hkey)]
      exact ⟨rfl, le_rfl⟩
  exact ⟨hi.reach.step (a := .engine i) (fun key => hi.copyAfterPulls h hcfg _ key) hs,
    hi.threaded.engine hrouted hs, hi.processes,
    fun key v m hm => hi.begun key v m ((hclients key v).1 ▸ hm),
    fun rank hrank j o key ho hkey hlt =>
      (hi.ended rank hrank j o key ho hkey hlt).trans_le (hclients key (b.node rank)).2⟩

theorem step_engine_eq (i : ℕ) : s.step b (.engine i) =
    (s.job.step b.server b.expected (.engine i)).map fun job => { s with job := job } := by
  have hjob : s.job.step b.server (fun _ => b.group 0 []) (.engine i) =
      s.job.step b.server b.expected (.engine i) := Server.Job.step_engine_congr fun _ => rfl
  unfold State.step
  dsimp only
  rw [hjob]
  rw [map_eq_bind]
  rfl

include h hcfg hi in
theorem Inv.step_cases {a : Action} (hs : s.step b a = some t) :
    Inv b t ∧
      ((∃ rank < b.size, ∃ p', t = { s with processes := update s.processes rank p' } ∧
          p'.pc = (s.processes rank).pc + 1) ∨
        (∃ key node j o task, Ready b s key node j o task ∧
          s.job.step b.server b.expected (.request key node) = some t.job ∧
          t.processes = s.processes) ∨
        ∃ i, s.job.step b.server b.expected (.engine i) = some t.job ∧
          t.processes = s.processes) := by
  cases a with
  | proceed rank =>
    unfold State.step at hs
    dsimp only at hs
    split_ifs at hs with hrank
    obtain ⟨p, hp, hs⟩ := bind_eq_some_iff.mp hs
    obtain rfl := some.inj hs
    obtain ⟨hlt, hready⟩ := hi.ready_of_proceed h hcfg hrank hp
    obtain ⟨p', hp', hpc, hi'⟩ := hi.proceed h hcfg hrank hlt hready
    obtain rfl : p = p' := some.inj (hp.symm.trans hp')
    exact ⟨hi', .inl ⟨rank, hrank, p, rfl, hpc⟩⟩
  | request key node =>
    obtain ⟨j, o, task, hr⟩ := hi.ready_of_request h hs
    rw [hr.step_eq h] at hs
    obtain ⟨job, hjob, rfl⟩ := map_eq_some_iff.mp hs
    exact ⟨hi.request hcfg hr hjob _, .inr (.inl ⟨key, node, j, o, task, hr, hjob, rfl⟩)⟩
  | engine i =>
    rw [step_engine_eq] at hs
    obtain ⟨job, hjob, rfl⟩ := map_eq_some_iff.mp hs
    exact ⟨hi.engine h hcfg hjob, .inr (.inr ⟨i, hjob, rfl⟩)⟩

/-- The broadcasts are in step in every reachable state. -/
theorem inv_of_reach (h : b.Uniform) (hcfg : b.server.SyncEngine)
    (hr : Reach (b.system C) Free s) : Inv b s := by
  refine hr.invariant (P := Inv b) ?_ fun s a t hi _ hs => (hi.step_cases h hcfg hs).1
  rintro s rfl
  exact inv_start

/-! ### The job goes on -/

theorem Inv.round_le (h : b.Uniform) (hi : Inv b s) (hrank : rank < b.size)
    (ho : b.ops[j]? = some o) (hkey : key ∈ b.keys o) (hj : j ≤ (s.processes rank).finished) :
    b.round o.name j ≤ (s.job.clients key (b.node rank)).stage.round := by
  by_contra hlt
  obtain ⟨i, hij, o', ho', hname, hround⟩ := exists_of_lt_before (not_le.mp hlt)
  have hname' : o'.name = o.name := of_decide_eq_true hname
  have hkey' : key ∈ b.keys o' := by
    rwa [keys_eq, h.tasks_congr (mem_of_getElem? ho') (mem_of_getElem? ho) hname', ← keys_eq]
  have hended := hi.ended rank hrank i o' key ho' hkey' (hij.trans_le hj)
  rw [hname'] at hended
  exact lt_irrefl _ (hround ▸ hended)

section

variable (h : b.Uniform) (hcfg : b.server.SyncEngine) (hi : Inv b s) (hrank : rank < b.size)
include h hcfg hi hrank

/-- If no message is left and a process that is furthest behind lacks an answer, a machine can make
a request. -/
theorem Inv.exists_ready (hmin : ∀ r < b.size, (s.processes rank).pc ≤ (s.processes r).pc)
    (hidle : (s.processes rank).phase ≠ .idle)
    (ho : b.ops[(s.processes rank).entered - 1]? = some o) (ht : task ∈ b.tasks o)
    (hround : (s.job.clients task.key (b.node rank)).stage.round ≤
      b.round o.name ((s.processes rank).entered - 1))
    (hp : (s.job.lane task.key).pending = []) :
    ∃ v < b.numWorker, (s.job.clients task.key v).waiting = false ∧
      Ready b s task.key v ((s.processes rank).entered - 1) o task := by
  obtain ⟨v, hv, hwaiting, hbehind⟩ := (hi.live hcfg task.key).serves.exists_free hp
  have hv' : v < b.numWorker := Finset.mem_range.mp hv
  have hsize : ∀ r ∈ b.ranksOf v, r < b.size := fun _ => lt_size_of_mem hv'
  have hpos := ((s.processes rank).busy hidle).1
  have hkey := key_mem_keys ht
  -- the processes of machine `v` have all entered the broadcast
  have hentered : ∀ r ∈ b.ranksOf v, (s.processes rank).entered ≤ (s.processes r).entered := by
    intro r hr
    have hle := hmin r (hsize r hr)
    rw [entered_eq, entered_eq]
    omega
  have hround' : b.round o.name ((s.processes rank).entered - 1) =
      (s.job.clients task.key v).stage.round := by
    obtain ⟨r, hr⟩ := exists_mem_of_ne_nil _ (b.ranksOf_ne_nil v)
    have hle := hi.round_le h (hsize r hr) ho hkey
      (by have := hentered r hr; have := (s.processes r).entered_le; omega)
    rw [mem_ranksOf.mp hr] at hle
    have hnode : b.node rank ∈ (b.expected task.key).workers :=
      Finset.mem_range.mpr (node_lt_iff.mpr hrank)
    exact le_antisymm hle ((hbehind (b.node rank) hnode).trans hround)
  -- and none of them is through with it
  have hexact : ∀ r ∈ b.ranksOf v, (s.processes r).entered = (s.processes rank).entered - 1 + 1 ∧
      (s.processes r).phase ≠ .idle := by
    intro r hr
    have hfinished : (s.processes r).finished ≤ (s.processes rank).entered - 1 := by
      by_contra hlt
      have hended := hi.ended r (hsize r hr) _ o task.key ho hkey (not_le.mp hlt)
      rw [mem_ranksOf.mp hr, hround'] at hended
      exact lt_irrefl _ hended
    have hge := hentered r hr
    have hle := (s.processes r).entered_le
    refine ⟨by omega, fun hphase => ?_⟩
    have hsame : (s.processes r).entered = (s.processes r).finished := by
      rw [entered, finished, hphase]
      rfl
    omega
  exact ⟨v, hv', hwaiting, ho, ht, rfl, hround', fun r hr => (hexact r hr).1, fun r hr =>
    (hi.processes r (hsize r hr)).part_eq h ho (hexact r hr).2 (hexact r hr).1 ht⟩

theorem Inv.exists_step (hlt : (s.processes rank).returned.length < b.calls.length) :
    ∃ a t, s.step b a = some t := by
  by_cases hpending : ∃ key, (s.job.lane key).pending ≠ []
  · obtain ⟨key, hp⟩ := hpending
    obtain ⟨i, job, hjob⟩ := exists_engine hcfg uncompressed_expected (hi.live hcfg)
      (routed_of_reach hcfg hi.reach) hi.threaded.running hp
    refine ⟨.engine i, { s with job := job }, ?_⟩
    rw [step_engine_eq, hjob]
    rfl
  simp only [not_exists, not_not] at hpending
  obtain ⟨r, hr, hmin⟩ := exists_min_image (Finset.range b.size)
    (fun r => (s.processes r).pc) ⟨rank, Finset.mem_range.mpr hrank⟩
  rw [Finset.mem_range] at hr
  have hlt' : (s.processes r).returned.length < b.calls.length := by
    have hle := hmin rank (Finset.mem_range.mpr hrank)
    have hindex := (s.processes rank).phase.index_le
    simp only [pc] at hle
    omega
  by_cases hready : (s.processes r).phase = .idle ∨ Answered b s r
  · obtain ⟨p', hp', -⟩ := hi.proceed h hcfg hr hlt' hready
    refine ⟨.proceed r, { s with processes := update s.processes r p' }, ?_⟩
    unfold State.step
    dsimp only
    rw [if_pos hr, hp']
    rfl
  · obtain ⟨hidle, hanswered⟩ := not_or.mp hready
    simp only [Answered, not_forall, not_lt] at hanswered
    obtain ⟨o, ho, task, ht, hround⟩ := hanswered
    obtain ⟨v, hv, hwaiting, hready⟩ := hi.exists_ready h hcfg hr
      (fun r' hr' => hmin r' (Finset.mem_range.mpr hr')) hidle ho ht hround (hpending task.key)
    obtain ⟨job, hjob⟩ := exists_request hcfg (uncompressed_expected task.key)
      (hi.live hcfg task.key).serves hi.threaded h.sum_keySet_lt
      (h.lens_pos (mem_of_getElem? ho) (key_mem_keys ht)) (Finset.mem_range.mpr hv) hwaiting
    exact ⟨.request task.key v, _, (hready.step_eq h).trans (congrArg (Option.map _) hjob)⟩

end

/-! ### Runs end -/

def potential (b : Broadcasts) (s : State C) : ℤ :=
  ∑ key ∈ b.keySet, (8 * ((s.job.lane key).progress (b.expected key) : ℤ) -
    (s.job.lane key).cost) + ∑ rank ∈ Finset.range b.size, ((s.processes rank).pc : ℤ)

theorem potential_lt_of_lane (hcfg : b.server.SyncEngine) (hi : Inv b s) (hkey : key ∈ b.keySet)
    {a : LaneAction}
    (hs : (s.job.lane key).step b.server (b.expected key) key a = some (t.job.lane key))
    (hother : ∀ k ≠ key, t.job.lane k = s.job.lane k) (hp : t.processes = s.processes) :
    b.potential s < b.potential t := by
  have hraise := (hi.live hcfg key).serves.potential_lt hcfg hs
  unfold potential
  rw [hp]
  refine add_lt_add_left (sum_lt_sum (fun k _ => ?_) ⟨key, hkey, by omega⟩) _
  by_cases hk : k = key
  · subst hk
    omega
  · rw [hother k hk]

include h hcfg hi in
theorem Inv.potential_lt {a : Action} (hs : s.step b a = some t) :
    b.potential s < b.potential t := by
  have hrouted := routed_of_reach hcfg hi.reach
  rcases (hi.step_cases h hcfg hs).2 with ⟨rank, hrank, p', rfl, hpc⟩ |
    ⟨key, node, j, o, task, hr, hjob, hp⟩ | ⟨i, hjob, hp⟩
  · refine add_lt_add_right (sum_lt_sum (fun r _ => ?_)
      ⟨rank, Finset.mem_range.mpr hrank, ?_⟩) _
    · show _ ≤ ((update s.processes rank p' r).pc : ℤ)
      by_cases hrr : r = rank
      · rw [hrr, update_self, hpc]
        omega
      · rw [update_of_ne hrr]
    · show _ < ((update s.processes rank p' rank).pc : ℤ)
      rw [update_self, hpc]
      omega
  · obtain ⟨-, hreq, hother⟩ := request_works hrouted hjob
    exact potential_lt_of_lane (a := .request node) hcfg hi hr.mem_keySet hreq hother hp
  · obtain ⟨-, k, -, hwork, hother⟩ := engine_works hrouted hjob
    -- a key with a message has been pushed to
    have hkey : k ∈ b.keySet := by
      have hpending : (s.job.lane k).pending ≠ [] := by
        rcases Lane.work_cases hwork with ⟨m, queue, he, hq, -⟩ | ⟨m, st, m', he, -⟩ |
          ⟨m, st, rs, he, -⟩
        · rw [Lane.pending, hq]
          exact append_ne_nil_of_right_ne_nil _ (cons_ne_nil _ _)
        · rw [pending_popped he]
          exact cons_ne_nil _ _
        · rw [pending_ready he]
          exact cons_ne_nil _ _
      rcases (hi.live hcfg k).serves with hl | ⟨bar, hr, -⟩
      · exact absurd hl.pending hpending
      · obtain ⟨w, hw⟩ := hr.exists_order hpending
        have hclient : s.job.clients k w = _ := hr.client_order hw
        obtain ⟨j, o, ho, hkey, -⟩ := hi.begun k w bar.done
          (by rw [hclient]; exact Nat.lt_succ_self _)
        exact mem_keySet.mpr ⟨o, mem_of_getElem? ho, hkey⟩
    exact potential_lt_of_lane (a := .engine) hcfg hi hkey hwork hother hp

def potentialBound (b : Broadcasts) : ℕ :=
  b.keySet.card * (b.numWorker * (8 * (4 * b.ops.length + 7))) + b.size * (3 * b.calls.length + 2)

theorem Inv.potential_le (hi : Inv b s) : b.potential s ≤ b.potentialBound := by
  have hprogress : ∀ key w, (s.job.clients key w).progress ≤ 4 * b.ops.length + 7 := by
    intro key w
    have hbegun : (s.job.clients key w).begun ≤ b.ops.length := by
      by_contra hlt
      obtain ⟨j, o, ho, -, hround, -⟩ := hi.begun key w b.ops.length (not_le.mp hlt)
      have hle : b.round o.name j ≤ j := before_le
      have hlt := (List.getElem?_eq_some_iff.mp ho).1
      omega
    have hstamp := timestamp_le_begun (s.job.clients key w)
    have hbool := Bool.toNat_le (s.job.clients key w).waiting
    unfold Client.progress
    omega
  have hlane : ∀ key ∈ b.keySet, 8 * ((s.job.lane key).progress (b.expected key) : ℤ) -
      (s.job.lane key).cost ≤ (b.numWorker * (8 * (4 * b.ops.length + 7)) : ℕ) := by
    intro key _
    have hsum : (s.job.lane key).progress (b.expected key) ≤
        b.numWorker * (4 * b.ops.length + 7) := by
      refine (sum_le_card_nsmul _ _ _ fun w _ => hprogress key w).trans ?_
      rw [show (b.expected key).workers = Finset.range b.numWorker from rfl, card_range,
        smul_eq_mul]
    have heq : b.numWorker * (8 * (4 * b.ops.length + 7)) =
        8 * (b.numWorker * (4 * b.ops.length + 7)) := by ring
    omega
  have hpc : ∀ rank ∈ Finset.range b.size,
      ((s.processes rank).pc : ℤ) ≤ (3 * b.calls.length + 2 : ℕ) := by
    intro rank hrank
    have hle := (hi.processes rank (Finset.mem_range.mp hrank)).le
    have hindex := (s.processes rank).phase.index_le
    unfold pc
    omega
  have hlanes := sum_le_card_nsmul _ _ _ hlane
  have hpcs := sum_le_card_nsmul _ _ _ hpc
  rw [nsmul_eq_mul, ← Nat.cast_mul] at hlanes hpcs
  rw [card_range] at hpcs
  unfold potential potentialBound
  push_cast at hlanes hpcs ⊢
  linarith

theorem potential_start : b.potential ({ job := { server := .start b.server } } : State C) = 0 := by
  have hlane : ∀ key, 8 * ((({ server := .start b.server } : Server.Job ℕ C).lane key).progress
      (b.expected key) : ℤ) - (({ server := .start b.server } : Server.Job ℕ C).lane key).cost = 0 := by
    intro key
    have hprogress : (({ server := .start b.server } : Server.Job ℕ C).lane key).progress
        (b.expected key) = 0 := sum_eq_zero fun _ _ => rfl
    rw [hprogress]
    rfl
  unfold potential
  rw [sum_congr rfl fun key _ => hlane key, sum_const_zero, zero_add]
  exact sum_eq_zero fun _ _ => rfl

end Invariant

/-! ## Returns -/

/-- With engine threads in synchronous mode and plain queues, if all ranks use the same names, the
objects of a name have the same length, and the keys of different names differ: every rank returns
from every call with the object of the root, in all interleavings. -/
theorem returns_of_uniform (b : Broadcasts) (C : CompressorClass ℕ) (hcfg : b.server.SyncEngine)
    (h : b.Uniform) : b.Returns C where
  right s hs rank hrank := by
    have hok := (inv_of_reach h hcfg hs).processes rank hrank
    rw [hok.returned]
    exact take_prefix _ _
  all s hs hstuck rank hrank := by
    have hi := inv_of_reach h hcfg hs
    have hok := hi.processes rank hrank
    have hlen : (s.processes rank).returned.length = b.calls.length := by
      refine le_antisymm hok.le (not_lt.mp fun hlt => ?_)
      obtain ⟨a, t, hstep⟩ := hi.exists_step h hcfg hrank hlt
      exact absurd ((hstuck a).symm.trans hstep) nofun
    rw [hok.returned, hlen, take_of_length_le (length_map _).le]
  ends := by
    refine ⟨b.potentialBound, fun s t as hinit hrun => ?_⟩
    have hle := length_le_of_potential (f := b.potential)
      (fun s a t hs _ hstep => (inv_of_reach h hcfg hs).potential_lt h hcfg hstep)
      (fun s hs => (inv_of_reach h hcfg hs).potential_le) (.init hinit) hrun
    obtain rfl := hinit
    rw [potential_start] at hle
    omega

end MegatronDPU.Torch.Broadcasts

namespace MegatronDPU.Torch

/-- Two machines broadcast two objects of two bytes under the same default name. -/
def steadyObject : Broadcasts :=
  { growingObject with
    calls := [⟨0, none, fun _ => "dict", [7, 8], by decide⟩,
      ⟨1, none, fun _ => "dict", [7, 9], nofun⟩]
    rootRank_lt := by decide }

theorem returns_of_uniform_steady : steadyObject.server.SyncEngine ∧ steadyObject.Uniform ∧
      steadyObject.Returns noByteCompressor := by
  have hcfg : steadyObject.server.SyncEngine := ⟨rfl, rfl, rfl⟩
  have huniform : steadyObject.Uniform :=
    { names := by decide
      sizes := by decide
      small := by decide
      apart := by
        have hall : steadyObject.ops.all fun o => steadyObject.ops.all fun o' =>
            (steadyObject.keys o).all fun key =>
              decide (key ∈ steadyObject.keys o' → o.name = o'.name) := by decide +kernel
        simpa only [List.all_eq_true, decide_eq_true_eq] using hall
      room := by decide +kernel }
  exact ⟨hcfg, huniform, Broadcasts.returns_of_uniform steadyObject noByteCompressor hcfg huniform⟩

end MegatronDPU.Torch
