import MegatronDPU.Worker.Completion

/-!
# Callbacks of the tensors on their way

What `Served` asks for holds in every run of the queues in which the tensors have at least one and
at most `2^32` partitions (`served_of_reach`). The number of partitions is kept in an
`unsigned int`: with `2^32 + 1` partitions the callback runs after the first of them.
-/

namespace MegatronDPU.Worker.Completion

open Lts List

variable {log : List Event} {j : ℕ} {q : QueueType} {job : Job} {s t : Pool} {a : Label}

/-! ## Runs -/

inductive Move (s : Pool) : Label → Pool → Prop
  | enqueue (queueList : List QueueType) (n : ℕ) : Move s (.enqueue queueList n)
      { s with
        jobs := s.jobs ++ [⟨queueList, n, 0, 0⟩]
        log := if queueList = [] then s.log ++ [.callback s.jobs.length] else s.log }
  | add {j : ℕ} {job : Job} {q : QueueType} (hj : s.jobs[j]? = some job)
      (hq : job.queueList.head? = some q) (hlt : job.added < job.partitions) : Move s (.add j)
      { s with
        jobs := s.jobs.set j { job with added := job.added + 1 }
        queued := s.queued ++ [(q, ⟨j, job.added, job.queueList⟩)] }
  | take {i : ℕ} {w : QueueType × Task} (hw : s.queued[i]? = some w) : Move s (.take i)
      { s with queued := s.queued.eraseIdx i, flying := s.flying ++ [w] }
  | proceed {i : ℕ} {q q' next : QueueType} {u : Task} {more : List QueueType}
      (hu : s.flying[i]? = some (q, u)) (hlist : u.queueList = q' :: next :: more) :
      Move s (.finish i)
      { s with
        flying := s.flying.eraseIdx i
        queued := s.queued ++ [(next, { u with queueList := next :: more })]
        log := s.log ++ [.stage u.job u.part q] }
  | complete {i : ℕ} {q q' : QueueType} {u : Task} {job : Job}
      (hu : s.flying[i]? = some (q, u)) (hlist : u.queueList = [q'])
      (hj : s.jobs[u.job]? = some job) : Move s (.finish i)
      { s with
        flying := s.flying.eraseIdx i
        jobs := s.jobs.set u.job { job with counter := job.counter + 1 }
        counted := s.counted ++ [(u.job, job.counter)]
        log := s.log ++ [.stage u.job u.part q] }
  | compare {i j : ℕ} {v : BitVec 32} {job : Job} (hc : s.counted[i]? = some (j, v))
      (hj : s.jobs[j]? = some job) : Move s (.compare i)
      { s with
        counted := s.counted.eraseIdx i
        log := if v = job.lastValue then s.log ++ [.callback j] else s.log }

theorem step_iff : step s a = some t ↔ Move s a t := by
  constructor
  · intro h
    cases a with
    | enqueue queueList n =>
      cases h
      exact .enqueue queueList n
    | add j =>
      obtain ⟨job, hj, h⟩ := Option.bind_eq_some_iff.mp h
      obtain ⟨q, hq, h⟩ := Option.bind_eq_some_iff.mp h
      split_ifs at h with hlt
      cases h
      exact .add hj hq hlt
    | take i =>
      obtain ⟨w, hw, h⟩ := Option.bind_eq_some_iff.mp h
      cases h
      exact .take hw
    | finish i =>
      obtain ⟨⟨q, u⟩, hu, h⟩ := Option.bind_eq_some_iff.mp h
      simp only [finishOrProceed] at h
      split at h
      next => cases h
      next q' next more hlist =>
        cases h
        exact .proceed hu hlist
      next q' hlist =>
        obtain ⟨job, hj, h⟩ := Option.bind_eq_some_iff.mp h
        cases h
        exact .complete hu hlist hj
    | compare i =>
      obtain ⟨⟨j, v⟩, hc, h⟩ := Option.bind_eq_some_iff.mp h
      obtain ⟨job, hj, h⟩ := Option.bind_eq_some_iff.mp h
      cases h
      exact .compare hc hj
  · intro h
    cases h with
    | enqueue => rfl
    | add hj hq hlt => simp [step, hj, hq, hlt]
    | take hw => simp [step, hw]
    | proceed hu hlist => simp [step, finishOrProceed, hu, hlist]
    | complete hu hlist hj => simp [step, finishOrProceed, hu, hlist, hj]
    | compare hc hj => simp [step, hc, hj]

structure Inv (s : Pool) : Prop where
  core : Core s.jobs s.tasks s.counted s.log
  head : ∀ w ∈ s.queued ++ s.flying, w.2.queueList.head? = some w.1

variable {i : ℕ} {α : Type*} {l : List α} {x : α}

theorem perm_eraseIdx (h : l[i]? = some x) : l.Perm (x :: l.eraseIdx i) := by
  obtain ⟨hi, rfl⟩ := List.getElem?_eq_some_iff.mp h
  exact (getElem_cons_eraseIdx_perm hi).symm

theorem Pool.tasks_perm {w : QueueType × Task} (h : s.flying[i]? = some w) :
    s.tasks.Perm (w.2 :: (s.queued ++ s.flying.eraseIdx i).map Prod.snd) := by
  have hperm : (s.queued ++ s.flying).Perm (w :: (s.queued ++ s.flying.eraseIdx i)) :=
    ((perm_eraseIdx h).append_left _).trans perm_middle
  exact hperm.map Prod.snd

theorem Inv.front {q q' : QueueType} {u : Task} {more : List QueueType} (h : Inv s)
    (hu : s.flying[i]? = some (q, u)) (hlist : u.queueList = q' :: more) : q' = q := by
  simpa [hlist] using h.head _ (mem_append_right _ (mem_of_getElem? hu))

theorem Inv.of_move (h : Inv s) (hm : Move s a t) (hg : Among Counted s a) : Inv t := by
  cases hm with
  | enqueue queueList n => exact ⟨h.core.enqueue queueList n hg, h.head⟩
  | @add j job q hj hq hlt =>
    have hne : job.queueList ≠ [] := by
      intro hnil
      rw [hnil] at hq
      cases hq
    refine ⟨(h.core.add hj hne hlt).perm ?_, fun w hw => ?_⟩
    · simp only [Pool.tasks, append_assoc, singleton_append, map_append, map_cons]
      exact perm_middle.symm
    · rw [append_assoc, singleton_append, perm_middle.mem_iff, mem_cons] at hw
      rcases hw with rfl | hw
      · exact hq
      · exact h.head w hw
  | @take i w hw =>
    have hperm : (s.queued ++ s.flying).Perm (s.queued.eraseIdx i ++ (s.flying ++ [w])) := by
      rw [← append_assoc]
      exact ((perm_eraseIdx hw).append_right _).trans
        (perm_append_singleton w (s.queued.eraseIdx i ++ s.flying)).symm
    exact ⟨h.core.perm (hperm.map Prod.snd), fun u hu => h.head u (hperm.mem_iff.mpr hu)⟩
  | @proceed i q q' next u more hu hlist =>
    obtain rfl := h.front hu hlist
    refine ⟨((h.core.perm (Pool.tasks_perm hu)).proceed hlist).perm ?_, fun w hw => ?_⟩
    · simp only [Pool.tasks, append_assoc, singleton_append, map_append, map_cons]
      exact perm_middle.symm
    · rw [append_assoc, singleton_append, perm_middle.mem_iff, mem_cons] at hw
      rcases hw with rfl | hw
      · rfl
      · exact h.head w ((eraseIdx_sublist _ _).append_left _ |>.subset hw)
  | @complete i q q' u job hu hlist hj =>
    obtain rfl := h.front hu hlist
    exact ⟨(h.core.perm (Pool.tasks_perm hu)).complete hlist hj,
      fun w hw => h.head w ((eraseIdx_sublist _ _).append_left _ |>.subset hw)⟩
  | compare hc hj => exact ⟨h.core.compare (perm_eraseIdx hc) hj, h.head⟩

/-- The counters are right in every reachable state. -/
theorem inv_of_reach (h : Reach pools (Among Counted) s) : Inv s := by
  refine h.invariant ?_ fun s a t hs hg ht => hs.of_move (step_iff.mp ht) hg
  rintro s rfl
  exact ⟨core_nil, nofun⟩

/-! ## What the tensors get -/

theorem sum_map_eraseIdx (f : α → ℕ) (h : l[i]? = some x) :
    (l.map f).sum = f x + ((l.eraseIdx i).map f).sum := by
  rw [((perm_eraseIdx h).map f).sum_eq, map_cons, sum_cons]

theorem sum_map_set {y : α} (f : α → ℕ) (h : l[i]? = some x) :
    ((l.set i y).map f).sum + f x = (l.map f).sum + f y := by
  have hset := set_perm_cons_eraseIdx (List.getElem?_eq_some_iff.mp h).1 y
  rw [(hset.map f).sum_eq, sum_map_eraseIdx f h, map_cons, sum_cons]
  omega

theorem remaining_of_move (hm : Move s a t) (ha : a.Works) : t.remaining + 1 = s.remaining := by
  cases hm with
  | enqueue => exact ha.elim
  | @add j job q hj hq hlt =>
    have hset := sum_map_set (fun job : Job =>
      (job.partitions - job.added) * (2 * job.queueList.length + 2))
      (y := { job with added := job.added + 1 }) hj
    have hrow : (job.partitions - job.added) * (2 * job.queueList.length + 2)
        = (job.partitions - (job.added + 1)) * (2 * job.queueList.length + 2)
          + (2 * job.queueList.length + 2) := by
      rw [← add_one_mul]
      congr 1
      omega
    simp only [Pool.remaining, map_append, sum_append, map_singleton, sum_singleton] at hset ⊢
    omega
  | take hw =>
    have herase := sum_map_eraseIdx (fun w => 2 * w.2.queueList.length + 1) hw
    simp only [Pool.remaining, map_append, sum_append, map_singleton, sum_singleton]
    omega
  | proceed hu hlist =>
    have herase := sum_map_eraseIdx (fun w => 2 * w.2.queueList.length) hu
    simp only [Pool.remaining, map_append, sum_append, map_singleton,
      sum_singleton, hlist, length_cons] at herase ⊢
    omega
  | @complete i q q' u job hu hlist hj =>
    have herase := sum_map_eraseIdx (fun w => 2 * w.2.queueList.length) hu
    have hset := sum_map_set (fun job : Job =>
      (job.partitions - job.added) * (2 * job.queueList.length + 2))
      (y := { job with counter := job.counter + 1 }) hj
    simp only [Pool.remaining, hlist, length_cons, length_nil, length_append]
      at herase hset ⊢
    omega
  | compare hc hj =>
    have hlen := (perm_eraseIdx hc).length_eq
    rw [length_cons] at hlen
    simp only [Pool.remaining]
    omega

section

variable (h : Inv s) (hj : s.jobs[j]? = some job)
include h hj

theorem Inv.live (hidle : ¬Idle s j job) : ∃ a t, a.Works ∧ step s a = some t := by
  have hinv := h.core.job j job hj
  by_contra hnone
  push Not at hnone
  refine hidle ⟨?_, fun t ht hjob => ?_, fun c hc hjob => ?_⟩
  · by_contra hleft
    rw [not_or] at hleft
    obtain ⟨q, hq⟩ : ∃ q, job.queueList.head? = some q :=
      Option.ne_none_iff_exists'.mp fun hnil => hleft.1 (head?_eq_none_iff.mp hnil)
    exact hnone (.add j) _ trivial
      (step_iff.mpr (.add hj hq (lt_of_le_of_ne hinv.le hleft.2)))
  · obtain ⟨w, hw, rfl⟩ := mem_map.mp ht
    rcases mem_append.mp hw with hqueued | hflying
    · obtain ⟨i, hi⟩ := mem_iff_getElem?.mp hqueued
      exact hnone (.take i) _ trivial (step_iff.mpr (.take hi))
    · obtain ⟨i, hi⟩ := mem_iff_getElem?.mp hflying
      have hhead := h.head w hw
      rcases hlist : w.2.queueList with _ | ⟨q, _ | ⟨next, more⟩⟩
      · rw [hlist] at hhead
        cases hhead
      · exact hnone (.finish i) _ trivial (step_iff.mpr (.complete hi hlist (by rwa [hjob])))
      · exact hnone (.finish i) _ trivial (step_iff.mpr (.proceed hi hlist))
  · obtain ⟨i, hi⟩ := mem_iff_getElem?.mp hc
    exact hnone (.compare i) _ trivial (step_iff.mpr (.compare hi (by rwa [hjob])))

theorem Inv.called (hidle : Idle s j job) : s.log.count (.callback j) = 1 := by
  have hinv := h.core.job j job hj
  by_cases hnil : job.queueList = []
  · exact (hinv.skipped hnil).2
  · obtain ⟨done, hdone, -, hcalls⟩ := hinv.tally hnil
    have hadded := hidle.added.resolve_left hnil
    have hnone : s.tasks.countP (·.job = j) = 0 := by
      rw [countP_eq_zero]
      intro t ht
      simpa using hidle.tasks t ht
    have hcounted : s.counted.count (j, job.lastValue) = 0 := by
      rw [count_eq_zero]
      exact fun hmem => hidle.counted _ hmem rfl
    rw [hcounted, if_pos (by omega), add_zero] at hcalls
    exact hcalls

theorem Inv.stages (p : ℕ) : history s.log j p <+: job.queueList := by
  have hinv := h.core.job j job hj
  rcases lt_or_ge p job.added with hp | hp
  · by_cases hmem : (j, p) ∈ s.tasks.map Task.key
    · obtain ⟨t, ht, heq⟩ := mem_map.mp hmem
      obtain ⟨rfl, rfl⟩ := Prod.mk.inj heq
      obtain ⟨job', hjob, -, hhist⟩ := h.core.task t ht
      rw [hj] at hjob
      cases hjob
      exact ⟨t.queueList, hhist⟩
    · rw [hinv.finished p hp hmem]
  · rw [hinv.fresh p hp]
    exact nil_prefix

end

theorem Inv.served (h : Inv s) : Served s where
  place := h.core.nodup
  next w hw := by
    obtain ⟨job, hjob, hpart, hhist⟩ := h.core.task w.2 (mem_map_of_mem hw)
    exact ⟨job, hjob, lt_of_lt_of_le hpart (h.core.job _ _ hjob).le, h.head w hw, hhist⟩
  stages j job hj p _ := h.stages hj p
  once j job hj := by
    have hinv := h.core.job j job hj
    by_cases hnil : job.queueList = []
    · exact (hinv.skipped hnil).2.le
    · obtain ⟨done, -, -, hcalls⟩ := hinv.tally hnil
      split_ifs at hcalls <;> omega
  after j job hj := (h.core.job j job hj).after
  called j job hj := h.called hj
  live j job hj := h.live hj
  ends a t ha ht := remaining_of_move (step_iff.mp ht) ha

theorem served_of_reach (h : Reach pools (Among Counted) s) : Served s :=
  (inv_of_reach h).served

/-! ## A tensor by itself

The partitions of one tensor pass through the queues one after another. -/

section Alone

variable {shapes : List QueueType → ℕ → Prop} {queueList more : List QueueType} {n k : ℕ}
  {c : BitVec 32}

/-- One tensor, with the given tasks in queues and entries to be compared. -/
def alone (job : Job) (queued : List (QueueType × Task)) (counted : List (ℕ × BitVec 32))
    (log : List Event) : Pool :=
  ⟨[job], queued, [], counted, log⟩

theorem reach_works (a : Label) (ha : a.Works) (h : Reach pools (Among shapes) s)
    (ht : step s a = some t) : Reach pools (Among shapes) t := by
  refine h.step (a := a) ?_ ht
  cases a with
  | enqueue => exact ha.elim
  | _ => trivial

theorem reach_enqueue (hne : queueList ≠ []) (hshape : shapes queueList n) :
    Reach pools (Among shapes) (alone ⟨queueList, n, 0, 0⟩ [] [] []) := by
  have hinit : Reach pools (Among shapes) ⟨[], [], [], [], []⟩ := .init rfl
  refine hinit.step (a := .enqueue queueList n) hshape ?_
  change some _ = some _
  rw [if_neg hne]
  rfl

theorem reach_stages (more : List QueueType) (h : Reach pools (Among shapes)
      (alone ⟨queueList, n, k + 1, c⟩ [(q, ⟨0, k, q :: more⟩)] [] log)) :
    Reach pools (Among shapes)
      (alone ⟨queueList, n, k + 1, c + 1⟩ [] [(0, c)] (log ++ (q :: more).map (.stage 0 k))) := by
  induction more generalizing q log with
  | nil =>
    have htake := reach_works (.take 0) trivial h rfl
    exact reach_works (.finish 0) trivial htake rfl
  | cons next more ih =>
    have htake := reach_works (.take 0) trivial h rfl
    have hfinish := reach_works (.finish 0) trivial htake rfl
    have hrest := ih hfinish
    rwa [append_assoc] at hrest

theorem reach_partition (hlist : queueList = q :: more) (hk : k < n)
    (h : Reach pools (Among shapes) (alone ⟨queueList, n, k, c⟩ [] [] log)) :
    Reach pools (Among shapes) (alone ⟨queueList, n, k + 1, c + 1⟩ [] []
      (if c = Job.lastValue ⟨queueList, n, k + 1, c + 1⟩ then
        (log ++ queueList.map (.stage 0 k)) ++ [.callback 0]
      else log ++ queueList.map (.stage 0 k))) := by
  subst hlist
  have hadd : Reach pools (Among shapes)
      (alone ⟨q :: more, n, k + 1, c⟩ [(q, ⟨0, k, q :: more⟩)] [] log) := by
    refine reach_works (.add 0) trivial h (step_iff.mpr ?_)
    exact Move.add (s := alone ⟨q :: more, n, k, c⟩ [] [] log) (j := 0) rfl rfl hk
  exact reach_works (.compare 0) trivial (reach_stages more hadd) rfl

theorem history_map_stage_of_ne {k p : ℕ} (h : k ≠ p) (list : List QueueType) :
    history (list.map (.stage 0 k)) 0 p = [] := by
  simp [history, filterMap_map, h]

theorem exists_reach_partitions (hlist : queueList = q :: more) (hshape : shapes queueList n)
    (hk : k ≤ n) :
    ∃ log, Reach pools (Among shapes) (alone ⟨queueList, n, k, BitVec.ofNat 32 k⟩ [] [] log) ∧
      ∀ p, k ≤ p → history log 0 p = [] := by
  induction k with
  | zero =>
    have hne : queueList ≠ [] := hlist ▸ cons_ne_nil q more
    exact ⟨[], reach_enqueue hne hshape, fun _ _ => rfl⟩
  | succ k ih =>
    obtain ⟨log, hreach, hfresh⟩ := ih (Nat.le_of_succ_le hk)
    have hnext := reach_partition hlist hk hreach
    rw [BitVec.ofNat_add]
    refine ⟨_, hnext, fun p hp => ?_⟩
    have hstages : history (log ++ queueList.map (.stage 0 k)) 0 p = [] := by
      rw [history_append, hfresh p (Nat.le_of_succ_le hp),
        history_map_stage_of_ne (ne_of_lt hp), nil_append]
    split_ifs
    · rw [history_append, hstages, history_callback, nil_append]
    · exact hstages

/-- With more than `2^32` partitions the counter is at `total_partnum - 1` before the last. -/
theorem reach_early_callback (hlist : queueList = q :: more) (hshape : shapes queueList n)
    (hn : 2 ^ 32 < n) :
    ∃ s, Reach pools (Among shapes) s ∧ ¬Served s := by
  set k := (n - 1) % 2 ^ 32 with hk
  have hlt : k < 2 ^ 32 := Nat.mod_lt _ (by decide)
  obtain ⟨log, hreach, hfresh⟩ := exists_reach_partitions (k := k) hlist hshape (by omega)
  have hlast : BitVec.ofNat 32 k = Job.lastValue ⟨queueList, n, k + 1, BitVec.ofNat 32 k + 1⟩ := by
    rw [Job.lastValue, ← BitVec.toNat_inj, BitVec.toNat_sub, BitVec.toNat_ofNat, BitVec.toNat_ofNat]
    change k % 2 ^ 32 = (2 ^ 32 - 1 + n % 2 ^ 32) % 2 ^ 32
    omega
  have hmore : k + 1 < n := by omega
  have hnext := reach_partition hlist (Nat.lt_of_succ_lt hmore) hreach
  rw [if_pos hlast] at hnext
  refine ⟨_, hnext, fun hserved => ?_⟩
  -- the partition after those counted has not even been added
  have hhist := hserved.after 0 _ rfl _ [] rfl (k + 1) hmore
  rw [history_append, hfresh _ (Nat.le_succ k), history_map_stage_of_ne (Nat.succ_ne_self k).symm]
    at hhist
  rw [hlist] at hhist
  cases hhist

theorem not_served (hshape : shapes queueList n) (hbad : ¬Counted queueList n) :
    ∃ s, Reach pools (Among shapes) s ∧ ¬Served s := by
  rw [Counted, Classical.not_imp] at hbad
  obtain ⟨hne, hn⟩ := hbad
  rcases Nat.eq_zero_or_pos n with rfl | hpos
  · -- no task is ever added, and nobody calls back
    refine ⟨_, reach_enqueue hne hshape, fun hserved => ?_⟩
    have hcall := hserved.called 0 _ rfl ⟨.inr rfl, nofun, nofun⟩
    cases hcall
  · obtain ⟨q, more, hlist⟩ := exists_cons_of_ne_nil hne
    exact reach_early_callback hlist hshape (by omega)

end Alone

/-- The queues serve all tensors of some shapes, in all interleavings, if and only if no shape has
stages and a number of partitions that the `unsigned int` does not hold. -/
theorem queues_serve_iff (shapes : List QueueType → ℕ → Prop) :
    (∀ s, Reach pools (Among shapes) s → Served s) ↔
      ∀ queueList n, shapes queueList n → Counted queueList n := by
  constructor
  · intro hserved queueList n hshape
    by_contra hbad
    obtain ⟨s, hs, hnot⟩ := not_served hshape hbad
    exact hnot (hserved s hs)
  · intro hshapes s hs
    refine served_of_reach (hs.mono fun _ a ha => ?_)
    cases a with
    | enqueue queueList n => exact hshapes queueList n ha
    | _ => trivial

/-- A tensor of `2^32 + 1` partitions is called back after the first. -/
theorem callback_after_first_partition : ∃ s, pools.guardedRun Free ⟨[], [], [], [], []⟩
        [.enqueue [.push] (2 ^ 32 + 1), .add 0, .take 0, .finish 0, .compare 0] = some s ∧
      s.log = [.stage 0 0 .push, .callback 0] ∧ ¬Served s := by
  refine ⟨_, rfl, rfl, fun hserved => ?_⟩
  have hhist := hserved.after 0 _ rfl [.stage 0 0 .push] [] rfl 1 (by decide)
  cases hhist

end MegatronDPU.Worker.Completion
