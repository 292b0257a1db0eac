import MegatronDPU.Lib.Transition
import MegatronDPU.Worker.Pipeline

/-!
# Tasks on their way through the queues

`EnqueueTensor` adds one task for each partition of a tensor to the first queue of its list. The
loop of a stage takes a task from its queue; `FinishOrProceed` erases the stage from the task's list
and adds the task to the next queue, or, after the last stage, counts the tensor's finished tasks
and calls back at the last. Which task of a queue is taken depends on events, credits and ready
counts, so it can be any.
-/

namespace MegatronDPU.Worker.Completion

open Lts List

/-! ## Definitions -/

/-- A tensor given to `EnqueueTensor`. -/
structure Job where
  queueList : List QueueType
  partitions : ℕ
  /-- Partitions that the loop of `EnqueueTensor` has added. -/
  added : ℕ
  /-- `*counter_ptr`, an `atomic_int`. -/
  counter : BitVec 32
  deriving DecidableEq, Repr

structure Task where
  job : ℕ
  part : ℕ
  queueList : List QueueType
  deriving DecidableEq, Repr

def Task.key (t : Task) : ℕ × ℕ := (t.job, t.part)

inductive Event
  /-- The loop of a queue has finished its stage of a partition. -/
  | stage (job part : ℕ) (q : QueueType)
  | callback (job : ℕ)
  deriving DecidableEq, Repr

structure Pool where
  jobs : List Job
  /-- The tasks in the queues, each with the queue it is in. -/
  queued : List (QueueType × Task)
  /-- The tasks that a loop has taken and not finished, each with the queue of the loop. -/
  flying : List (QueueType × Task)
  /-- Calls of `FinishOrProceed` that have counted and not yet compared: the tensor and `v`. -/
  counted : List (ℕ × BitVec 32)
  log : List Event
  deriving DecidableEq, Repr

inductive Label
  /-- `EnqueueTensor` up to its loop. -/
  | enqueue (queueList : List QueueType) (partitions : ℕ)
  /-- A round of that loop. -/
  | add (job : ℕ)
  /-- `getTask` of the loop of a queue, which takes the waiting task `i`. -/
  | take (i : ℕ)
  /-- `FinishOrProceed` of the task `i` in flight, up to `fetch_add`. -/
  | finish (i : ℕ)
  /-- The comparison after `fetch_add`. -/
  | compare (i : ℕ)
  deriving DecidableEq, Repr

/-- `(int)(total_partnum - 1)`. -/
def Job.lastValue (job : Job) : BitVec 32 := BitVec.ofNat 32 job.partitions - 1

/-- `FinishOrProceed` of a task by the loop of `q`. -/
def finishOrProceed (s : Pool) (q : QueueType) (t : Task) : Option Pool :=
  match t.queueList with
  | [] => none
  | _ :: next :: rest =>
    some { s with
      queued := s.queued ++ [(next, { t with queueList := next :: rest })]
      log := s.log ++ [.stage t.job t.part q] }
  | [_] => do
    let job ← s.jobs[t.job]?
    some { s with
      jobs := s.jobs.set t.job { job with counter := job.counter + 1 }
      counted := s.counted ++ [(t.job, job.counter)]
      log := s.log ++ [.stage t.job t.part q] }

def step (s : Pool) : Label → Option Pool
  | .enqueue queueList partitions =>
    some { s with
      jobs := s.jobs ++ [⟨queueList, partitions, 0, 0⟩]
      -- a tensor without stages is called back at once
      log := if queueList = [] then s.log ++ [.callback s.jobs.length] else s.log }
  | .add j => do
    let job ← s.jobs[j]?
    let q ← job.queueList.head?
    if job.added < job.partitions then
      some { s with
        jobs := s.jobs.set j { job with added := job.added + 1 }
        queued := s.queued ++ [(q, ⟨j, job.added, job.queueList⟩)] }
    else none
  | .take i => do
    let task ← s.queued[i]?
    some { s with queued := s.queued.eraseIdx i, flying := s.flying ++ [task] }
  | .finish i => do
    let (q, t) ← s.flying[i]?
    finishOrProceed { s with flying := s.flying.eraseIdx i } q t
  | .compare i => do
    let (j, v) ← s.counted[i]?
    let job ← s.jobs[j]?
    some { s with
      counted := s.counted.eraseIdx i
      log := if v = job.lastValue then s.log ++ [.callback j] else s.log }

def pools : System Pool Label where
  init s := s = ⟨[], [], [], [], []⟩
  step := step

def Pool.tasks (s : Pool) : List Task := (s.queued ++ s.flying).map Prod.snd

/-- The stages of a partition that are finished, in their order. -/
def history (log : List Event) (j p : ℕ) : List QueueType :=
  log.filterMap fun
    | .stage j' p' q => if j' = j ∧ p' = p then some q else none
    | .callback _ => none

structure Idle (s : Pool) (j : ℕ) (job : Job) : Prop where
  added : job.queueList = [] ∨ job.added = job.partitions
  tasks : ∀ t ∈ s.tasks, t.job ≠ j
  counted : ∀ c ∈ s.counted, c.1 ≠ j

def Label.Works : Label → Prop
  | .enqueue _ _ => False
  | _ => True

def Pool.remaining (s : Pool) : ℕ :=
  (s.jobs.map fun job => (job.partitions - job.added) * (2 * job.queueList.length + 2)).sum
    + (s.queued.map fun w => 2 * w.2.queueList.length + 1).sum
    + (s.flying.map fun w => 2 * w.2.queueList.length).sum + s.counted.length

structure Served (s : Pool) : Prop where
  /-- A task is in at most one queue or in flight. -/
  place : (s.tasks.map Task.key).Nodup
  /-- It is where its next stage is done, after the stages before it. -/
  next : ∀ w ∈ s.queued ++ s.flying, ∃ job, s.jobs[w.2.job]? = some job ∧
    w.2.part < job.partitions ∧ w.2.queueList.head? = some w.1 ∧
    history s.log w.2.job w.2.part ++ w.2.queueList = job.queueList
  /-- Every partition goes through the list in order, without repetition. -/
  stages : ∀ j job, s.jobs[j]? = some job → ∀ p < job.partitions,
    history s.log j p <+: job.queueList
  /-- No tensor is called back twice. -/
  once : ∀ j job, s.jobs[j]? = some job → s.log.count (.callback j) ≤ 1
  /-- Before the callback all partitions have passed all stages. -/
  after : ∀ j job, s.jobs[j]? = some job → ∀ before rest,
    s.log = before ++ .callback j :: rest → ∀ p < job.partitions,
      history before j p = job.queueList
  /-- A tensor with nothing left to do has been called back. -/
  called : ∀ j job, s.jobs[j]? = some job → Idle s j job → s.log.count (.callback j) = 1
  /-- While a tensor has something left to do, some loop can go on, -/
  live : ∀ j job, s.jobs[j]? = some job → ¬Idle s j job → ∃ a t, a.Works ∧ step s a = some t
  /-- and the loops come to an end. -/
  ends : ∀ a t, a.Works → step s a = some t → t.remaining + 1 = s.remaining

/-- The guard: the tensors have only such stage lists and numbers of partitions. -/
def Among (shapes : List QueueType → ℕ → Prop) (_ : Pool) : Label → Prop
  | .enqueue queueList n => shapes queueList n
  | _ => True

/-- A tensor with stages has from 1 to `2^32` partitions. -/
def Counted (queueList : List QueueType) (n : ℕ) : Prop :=
  queueList ≠ [] → 1 ≤ n ∧ n ≤ 2 ^ 32

/-! ## The log -/

variable {log : List Event} {j p : ℕ} {q : QueueType}

theorem history_append (log log' : List Event) (j p : ℕ) :
    history (log ++ log') j p = history log j p ++ history log' j p :=
  filterMap_append

@[simp] theorem history_callback (i : ℕ) : history [.callback i] j p = [] := rfl

variable {i : ℕ} {before : List Event} {e : Event} {t : Task} {counted' : List (ℕ × BitVec 32)}
  {new : Job} {rest : List Task}

theorem history_append_callback : history (log ++ [.callback i]) j p = history log j p := by
  rw [history_append, history_callback, append_nil]

theorem history_stage (i r : ℕ) :
    history [.stage i r q] j p = if i = j ∧ r = p then [q] else [] := by
  by_cases h : i = j ∧ r = p <;> simp [history, h]

theorem callback_split {rest : List Event} (h : log ++ [e] = before ++ .callback j :: rest) :
    (before = log ∧ e = .callback j) ∨ ∃ rest', log = before ++ .callback j :: rest' := by
  rcases eq_nil_or_concat rest with rfl | ⟨rest', e', rfl⟩
  · obtain ⟨rfl, he⟩ := append_inj' h rfl
    exact .inl ⟨rfl, by simpa using he⟩
  · rw [concat_eq_append, ← cons_append, ← append_assoc] at h
    exact .inr ⟨rest', (append_inj' h rfl).1⟩

/-! ## What the tasks, counters and callbacks are -/

structure JobInv (tasks : List Task) (counted : List (ℕ × BitVec 32)) (log : List Event) (j : ℕ)
    (job : Job) : Prop where
  le : job.added ≤ job.partitions
  fresh : ∀ p, job.added ≤ p → history log j p = []
  finished : ∀ p < job.added, (j, p) ∉ tasks.map Task.key → history log j p = job.queueList
  after : ∀ before rest, log = before ++ .callback j :: rest → ∀ p < job.partitions,
    history before j p = job.queueList
  skipped : job.queueList = [] → job.added = 0 ∧ log.count (.callback j) = 1
  fits : job.queueList ≠ [] → 1 ≤ job.partitions ∧ job.partitions ≤ 2 ^ 32
  /-- Of the tasks added, those not on their way have been counted; the callback has run or is due
  once all have. -/
  tally : job.queueList ≠ [] → ∃ done, done + tasks.countP (·.job = j) = job.added ∧
    job.counter = BitVec.ofNat 32 done ∧
    log.count (.callback j) + counted.count (j, job.lastValue) =
      if done = job.partitions then 1 else 0

structure Core (jobs : List Job) (tasks : List Task) (counted : List (ℕ × BitVec 32))
    (log : List Event) : Prop where
  nodup : (tasks.map Task.key).Nodup
  task : ∀ t ∈ tasks, ∃ job, jobs[t.job]? = some job ∧ t.part < job.added ∧
    history log t.job t.part ++ t.queueList = job.queueList
  job : ∀ j job, jobs[j]? = some job → JobInv tasks counted log j job
  counted : ∀ c ∈ counted, ∃ job, jobs[c.1]? = some job ∧ job.queueList ≠ []
  unknown : ∀ j, jobs.length ≤ j → log.count (.callback j) = 0 ∧ ∀ p, history log j p = []

variable {jobs : List Job} {tasks tasks' : List Task} {counted : List (ℕ × BitVec 32)} {job : Job}

theorem core_nil : Core [] [] [] [] where
  nodup := nodup_nil
  task := nofun
  job := nofun
  counted := nofun
  unknown _ _ := ⟨rfl, fun _ => rfl⟩

theorem JobInv.perm (h : JobInv tasks counted log j job) (hp : tasks.Perm tasks') :
    JobInv tasks' counted log j job :=
  { h with
    finished := fun p hlt hnot => h.finished p hlt (by rwa [(hp.map Task.key).mem_iff])
    tally := by simpa only [hp.countP_eq] using h.tally }

theorem Core.perm (h : Core jobs tasks counted log) (hp : tasks.Perm tasks') :
    Core jobs tasks' counted log where
  nodup := (hp.map Task.key).nodup_iff.mp h.nodup
  task t ht := h.task t (hp.mem_iff.mpr ht)
  job j job hj := (h.job j job hj).perm hp
  counted := h.counted
  unknown := h.unknown

theorem Core.job_lt (h : Core jobs tasks counted log) (ht : t ∈ tasks) : t.job < jobs.length := by
  obtain ⟨job, hjob, -⟩ := h.task t ht
  exact (List.getElem?_eq_some_iff.mp hjob).1

structure Agrees (j : ℕ) (tasks tasks' : List Task) (counted counted' : List (ℕ × BitVec 32))
    (log log' : List Event) : Prop where
  history : ∀ p, history log' j p = history log j p
  key : ∀ p, (j, p) ∈ tasks'.map Task.key ↔ (j, p) ∈ tasks.map Task.key
  countP : tasks'.countP (·.job = j) = tasks.countP (·.job = j)
  count : ∀ v, counted'.count (j, v) = counted.count (j, v)
  callbacks : log'.count (.callback j) = log.count (.callback j)
  after : ∀ before rest, log' = before ++ .callback j :: rest →
    ∃ rest', log = before ++ .callback j :: rest'

theorem JobInv.of_agrees {log' : List Event} (h : JobInv tasks counted log j job)
    (ha : Agrees j tasks tasks' counted counted' log log') :
    JobInv tasks' counted' log' j job where
  le := h.le
  fresh p hp := (ha.history p).trans (h.fresh p hp)
  finished p hp hnot := (ha.history p).trans (h.finished p hp fun hmem => hnot ((ha.key p).mpr hmem))
  after before rest hlog := by
    obtain ⟨rest', hlog'⟩ := ha.after before rest hlog
    exact h.after before rest' hlog'
  skipped := by simpa only [ha.callbacks] using h.skipped
  fits := h.fits
  tally := by simpa only [ha.callbacks, ha.countP, ha.count] using h.tally

theorem after_append (he : e ≠ .callback j) {rest : List Event}
    (h : log ++ [e] = before ++ .callback j :: rest) :
    ∃ rest', log = before ++ .callback j :: rest' := by
  rcases callback_split h with ⟨-, h⟩ | h
  · exact absurd h he
  · exact h

theorem count_append_of_ne (he : e ≠ .callback j) :
    (log ++ [e]).count (.callback j) = log.count (.callback j) := by
  rw [count_append, count_singleton, if_neg (by simpa using he), add_zero]

theorem Core.key_notMem (h : Core jobs tasks counted log) (hj : jobs[j]? = some job) {p : ℕ}
    (hp : job.added ≤ p) : (j, p) ∉ tasks.map Task.key := by
  intro hmem
  obtain ⟨t, ht, heq⟩ := mem_map.mp hmem
  obtain ⟨rfl, rfl⟩ := Prod.mk.inj heq
  obtain ⟨job', hjob, hlt, -⟩ := h.task t ht
  rw [hj] at hjob
  cases hjob
  omega

theorem Agrees.refl : Agrees j tasks tasks counted counted log log where
  history _ := rfl
  key _ := Iff.rfl
  countP := rfl
  count _ := rfl
  callbacks := rfl
  after _ rest hlog := ⟨rest, hlog⟩

theorem agrees_callback (h : i ≠ j) (hcount : ∀ v, counted'.count (j, v) = counted.count (j, v)) :
    Agrees j tasks tasks counted counted' log (log ++ [.callback i]) where
  history _ := history_append_callback
  key _ := Iff.rfl
  countP := rfl
  count := hcount
  callbacks := count_append_of_ne fun heq => h (Event.callback.inj heq)
  after _ _ hlog := after_append (fun heq => h (Event.callback.inj heq)) hlog

section

variable (h : Core jobs tasks counted log)
include h

theorem Core.append_job {log' : List Event}
    (hold : ∀ j, jobs.length ≠ j → Agrees j tasks tasks counted counted log log')
    (hnew : JobInv tasks counted log' jobs.length new) :
    Core (jobs ++ [new]) tasks counted log' := by
  have hkeep : ∀ {j : ℕ} {job}, jobs[j]? = some job → (jobs ++ [new])[j]? = some job := by
    intro j job hj
    rwa [getElem?_append_left (List.getElem?_eq_some_iff.mp hj).1]
  refine ⟨h.nodup, fun t ht => ?_, fun j job hj => ?_, fun c hc => ?_, fun j hj => ?_⟩
  · obtain ⟨job, hjob, hlt, heq⟩ := h.task t ht
    refine ⟨job, hkeep hjob, hlt, ?_⟩
    rwa [(hold _ (h.job_lt ht).ne').history]
  · rcases lt_or_ge j jobs.length with hlt | hge
    · rw [getElem?_append_left hlt] at hj
      exact (h.job j job hj).of_agrees (hold j hlt.ne')
    · obtain rfl : j = jobs.length := by
        have := (List.getElem?_eq_some_iff.mp hj).1
        rw [length_append, length_singleton] at this
        omega
      rw [getElem?_append_right le_rfl, Nat.sub_self, getElem?_cons_zero] at hj
      cases hj
      exact hnew
  · obtain ⟨job, hjob, hne⟩ := h.counted c hc
    exact ⟨job, hkeep hjob, hne⟩
  · rw [length_append, length_singleton] at hj
    have hagree := hold j (by omega)
    obtain ⟨hzero, hempty⟩ := h.unknown j (by omega)
    exact ⟨hagree.callbacks.trans hzero, fun p => (hagree.history p).trans (hempty p)⟩

theorem Core.log_ne (before rest : List Event) : log ≠ before ++ .callback jobs.length :: rest := by
  obtain ⟨hnone, -⟩ := h.unknown jobs.length le_rfl
  rintro rfl
  simp [count_append] at hnone

theorem Core.jobInv_skipped (n : ℕ) :
    JobInv tasks counted (log ++ [.callback jobs.length]) jobs.length ⟨[], n, 0, 0⟩ := by
  obtain ⟨hnone, hfresh⟩ := h.unknown jobs.length le_rfl
  refine ⟨Nat.zero_le _, fun p _ => history_append_callback.trans (hfresh p),
    fun p hp => absurd hp (Nat.not_lt_zero p), fun before rest hsplit p _ => ?_,
    fun _ => ⟨rfl, ?_⟩, fun hne => absurd rfl hne, fun hne => absurd rfl hne⟩
  · rcases callback_split hsplit with ⟨rfl, -⟩ | ⟨rest', hsplit'⟩
    · exact hfresh p
    · exact absurd hsplit' (h.log_ne before rest')
  · rw [count_append, hnone, count_singleton_self]

theorem Core.jobInv_enqueued {queueList : List QueueType} {n : ℕ} (hne : queueList ≠ [])
    (hfit : 1 ≤ n ∧ n ≤ 2 ^ 32) : JobInv tasks counted log jobs.length ⟨queueList, n, 0, 0⟩ := by
  obtain ⟨hnone, hfresh⟩ := h.unknown jobs.length le_rfl
  have hcountP : tasks.countP (·.job = jobs.length) = 0 := by
    rw [countP_eq_zero]
    intro t ht
    simpa using (h.job_lt ht).ne
  have hcount : ∀ v, counted.count (jobs.length, v) = 0 := by
    intro v
    rw [count_eq_zero]
    intro hmem
    obtain ⟨job, hjob, -⟩ := h.counted _ hmem
    exact lt_irrefl _ (List.getElem?_eq_some_iff.mp hjob).1
  refine ⟨Nat.zero_le _, fun p _ => hfresh p, fun p hp => absurd hp (Nat.not_lt_zero p),
    fun before rest hsplit => absurd hsplit (h.log_ne before rest), fun hnil => absurd hnil hne,
    fun _ => hfit, fun _ => ⟨0, by rw [hcountP], rfl, ?_⟩⟩
  rw [hnone, hcount, if_neg (show ¬(0 = n) by omega)]

/-- A call without queues is called back at once, and others later. -/
theorem Core.enqueue (queueList : List QueueType) (n : ℕ)
    (hfit : queueList ≠ [] → 1 ≤ n ∧ n ≤ 2 ^ 32) :
    Core (jobs ++ [⟨queueList, n, 0, 0⟩]) tasks counted
      (if queueList = [] then log ++ [.callback jobs.length] else log) := by
  split_ifs with hnil
  · subst hnil
    exact h.append_job (fun _ hj => agrees_callback hj fun _ => rfl) (h.jobInv_skipped n)
  · exact h.append_job (fun _ _ => .refl) (h.jobInv_enqueued hnil (hfit hnil))

end

theorem getElem?_set_cases {job' : Job} (hj : jobs[j]? = some job)
    (h : (jobs.set j new)[i]? = some job') :
    (i = j ∧ job' = new) ∨ (i ≠ j ∧ jobs[i]? = some job') := by
  by_cases hij : i = j
  · subst hij
    rw [getElem?_set_self (List.getElem?_eq_some_iff.mp hj).1] at h
    exact .inl ⟨rfl, (Option.some.inj h).symm⟩
  · rw [getElem?_set_ne (Ne.symm hij)] at h
    exact .inr ⟨hij, h⟩

theorem exists_getElem?_set {P : Job → Prop} (hj : jobs[j]? = some job) (hnew : P job → P new)
    (h : ∃ job', jobs[i]? = some job' ∧ P job') :
    ∃ job', (jobs.set j new)[i]? = some job' ∧ P job' := by
  obtain ⟨job', hi, hP⟩ := h
  by_cases hij : i = j
  · subst hij
    rw [hj] at hi
    cases hi
    exact ⟨new, getElem?_set_self (List.getElem?_eq_some_iff.mp hj).1, hnew hP⟩
  · exact ⟨job', by rwa [getElem?_set_ne (Ne.symm hij)], hP⟩

theorem Core.add (h : Core jobs tasks counted log) (hj : jobs[j]? = some job)
    (hne : job.queueList ≠ []) (hlt : job.added < job.partitions) :
    Core (jobs.set j { job with added := job.added + 1 })
      (⟨j, job.added, job.queueList⟩ :: tasks) counted log := by
  have hjob := h.job j job hj
  refine ⟨nodup_cons.mpr ⟨h.key_notMem hj le_rfl, h.nodup⟩, fun t ht => ?_,
    fun i job' hi => ?_, fun c hc => exists_getElem?_set hj id (h.counted c hc), fun i hi => ?_⟩
  · rcases mem_cons.mp ht with rfl | ht
    · refine ⟨_, getElem?_set_self (List.getElem?_eq_some_iff.mp hj).1, Nat.lt_succ_self _, ?_⟩
      rw [hjob.fresh _ le_rfl, nil_append]
    · exact exists_getElem?_set hj (fun hP => ⟨Nat.lt_succ_of_lt hP.1, hP.2⟩) (h.task t ht)
  · rcases getElem?_set_cases hj hi with ⟨rfl, rfl⟩ | ⟨hij, hi⟩
    · obtain ⟨done, hdone, hcounter, hcalls⟩ := hjob.tally hne
      refine ⟨hlt, fun p hp => hjob.fresh p (Nat.le_of_succ_le hp), fun p hp hnot => ?_,
        hjob.after, fun hnil => absurd hnil hne, hjob.fits,
        fun _ => ⟨done, ?_, hcounter, hcalls⟩⟩
      · rw [map_cons, mem_cons, not_or] at hnot
        have hp' : p ≠ job.added := by
          rintro rfl
          exact hnot.1 rfl
        exact hjob.finished p (lt_of_le_of_ne (Nat.lt_succ_iff.mp hp) hp') hnot.2
      · rw [countP_cons_of_pos (by simp), ← add_assoc, hdone]
    · refine (h.job i job' hi).of_agrees ⟨fun _ => rfl, fun p => ?_, ?_, fun _ => rfl, rfl,
        fun _ rest hlog => ⟨rest, hlog⟩⟩
      · rw [map_cons, mem_cons, or_iff_right]
        intro heq
        exact hij (Prod.mk.inj heq).1
      · rw [countP_cons_of_neg (by simpa using Ne.symm hij)]
  · rw [length_set] at hi
    exact h.unknown i hi

theorem count_append_stage (i r : ℕ) :
    (log ++ [Event.stage i r q]).count (.callback j) = log.count (.callback j) :=
  count_append_of_ne Event.noConfusion

theorem after_append_stage {r : ℕ} {rest : List Event}
    (h : log ++ [.stage i r q] = before ++ .callback j :: rest) :
    ∃ rest', log = before ++ .callback j :: rest' :=
  after_append Event.noConfusion h

theorem history_append_stage_of_ne (h : (j, p) ≠ t.key) :
    history (log ++ [.stage t.job t.part q]) j p = history log j p := by
  rw [history_append, history_stage, if_neg, append_nil]
  rintro ⟨rfl, rfl⟩
  exact h rfl

theorem history_append_stage_self (t : Task) :
    history (log ++ [.stage t.job t.part q]) t.job t.part = history log t.job t.part ++ [q] := by
  rw [history_append, history_stage, if_pos ⟨rfl, rfl⟩]

theorem agrees_stage {rest' : List Task} (hj : j ≠ t.job)
    (hcount : ∀ v, counted'.count (j, v) = counted.count (j, v))
    (hkey : ∀ p, (j, p) ∈ rest'.map Task.key ↔ (j, p) ∈ rest.map Task.key)
    (hcountP : rest'.countP (·.job = j) = rest.countP (·.job = j)) :
    Agrees j (t :: rest) rest' counted counted' log (log ++ [.stage t.job t.part q]) where
  history p := history_append_stage_of_ne fun h => hj (Prod.mk.inj h).1
  key p := by
    rw [hkey, map_cons, mem_cons, or_iff_right]
    exact fun h => hj (Prod.mk.inj h).1
  countP := by rw [hcountP, countP_cons_of_neg (by simpa using Ne.symm hj)]
  count := hcount
  callbacks := count_append_stage _ _
  after _ _ h := after_append_stage h

theorem JobInv.fresh_stage (h : JobInv tasks counted log t.job job) (hpart : t.part < job.added)
    (hp : job.added ≤ p) : history (log ++ [.stage t.job t.part q]) t.job p = [] := by
  rw [history_append_stage_of_ne, h.fresh p hp]
  intro heq
  have := (Prod.mk.inj heq).2
  omega

theorem JobInv.after_stage {r : ℕ} (h : JobInv tasks counted log j job) {rest : List Event}
    (hlog : log ++ [.stage i r q] = before ++ .callback j :: rest) :
    ∀ p < job.partitions, history before j p = job.queueList := by
  obtain ⟨rest', hlog'⟩ := after_append_stage hlog
  exact h.after before rest' hlog'

theorem Job.ofNat_eq_lastValue (job : Job) {done : ℕ} (hlt : done < job.partitions)
    (hfit : job.partitions ≤ 2 ^ 32) :
    BitVec.ofNat 32 done = job.lastValue ↔ done + 1 = job.partitions := by
  rw [Job.lastValue, ← BitVec.toNat_inj, BitVec.toNat_sub, BitVec.toNat_ofNat, BitVec.toNat_ofNat]
  change done % 2 ^ 32 = (2 ^ 32 - 1 + job.partitions % 2 ^ 32) % 2 ^ 32 ↔ _
  omega

section

variable (h : Core jobs (t :: rest) counted log)
include h

theorem Core.unknown_stage (hi : jobs.length ≤ i) :
    (log ++ [Event.stage t.job t.part q]).count (.callback i) = 0 ∧
      ∀ p, history (log ++ [.stage t.job t.part q]) i p = [] := by
  obtain ⟨hcalls, hempty⟩ := h.unknown i hi
  refine ⟨(count_append_stage _ _).trans hcalls, fun p => ?_⟩
  rw [history_append_stage_of_ne, hempty]
  intro heq
  have := h.job_lt mem_cons_self
  have := (Prod.mk.inj heq).1
  omega

theorem Core.task_stage {u : Task} (hu : u ∈ rest) :
    ∃ job, jobs[u.job]? = some job ∧ u.part < job.added ∧
      history (log ++ [.stage t.job t.part q]) u.job u.part ++ u.queueList = job.queueList := by
  obtain ⟨job, hjob, hpart, hhist⟩ := h.task u (mem_cons_of_mem _ hu)
  refine ⟨job, hjob, hpart, ?_⟩
  rw [history_append_stage_of_ne, hhist]
  intro heq
  exact (nodup_cons.mp h.nodup).1 (mem_map.mpr ⟨u, hu, heq⟩)

theorem Core.proceed {next : QueueType} {more : List QueueType}
    (hlist : t.queueList = q :: next :: more) :
    Core jobs ({ t with queueList := next :: more } :: rest) counted
      (log ++ [.stage t.job t.part q]) := by
  obtain ⟨htop, hrest⟩ := nodup_cons.mp h.nodup
  obtain ⟨job, hjob, hpart, hhist⟩ := h.task t mem_cons_self
  refine ⟨nodup_cons.mpr ⟨htop, hrest⟩, fun u hu => ?_, fun i job' hi => ?_, h.counted,
    fun i hi => h.unknown_stage hi⟩
  · rcases mem_cons.mp hu with rfl | hu
    · refine ⟨job, hjob, hpart, ?_⟩
      rw [history_append_stage_self, append_assoc, singleton_append, ← hlist, hhist]
    · exact h.task_stage hu
  · by_cases hit : i = t.job
    · subst hit
      rw [hjob] at hi
      cases hi
      have hinv := h.job t.job job hjob
      refine ⟨hinv.le, fun p => hinv.fresh_stage hpart, fun p hp hnot => ?_,
        fun _ _ => hinv.after_stage, fun hnil => ⟨(hinv.skipped hnil).1, ?_⟩, hinv.fits,
        fun hne => ?_⟩
      · rw [history_append_stage_of_ne, hinv.finished p hp hnot]
        intro heq
        exact hnot (mem_cons.mpr (.inl heq))
      · rw [count_append_stage, (hinv.skipped hnil).2]
      · obtain ⟨done, hdone, hcounter, hcalls⟩ := hinv.tally hne
        refine ⟨done, ?_, hcounter, ?_⟩
        · rw [countP_cons_of_pos (by simp)] at hdone ⊢
          exact hdone
        · rw [count_append_stage, hcalls]
    · refine (h.job i job' hi).of_agrees (agrees_stage hit (fun _ => rfl) (fun p => ?_) ?_)
      · rw [map_cons, mem_cons, or_iff_right]
        intro heq
        exact hit (Prod.mk.inj heq).1
      · rw [countP_cons_of_neg (by simpa using Ne.symm hit)]

theorem Core.complete (hlist : t.queueList = [q]) (hj : jobs[t.job]? = some job) :
    Core (jobs.set t.job { job with counter := job.counter + 1 }) rest
      (counted ++ [(t.job, job.counter)]) (log ++ [.stage t.job t.part q]) := by
  obtain ⟨job', hjob, hpart, hhist⟩ := h.task t mem_cons_self
  rw [hj] at hjob
  cases hjob
  have hne : job.queueList ≠ [] := by
    rw [← hhist, hlist]
    simp
  refine ⟨(nodup_cons.mp h.nodup).2, fun u hu => ?_, fun i job' hi => ?_,
    fun c hc => ?_, fun i hi => ?_⟩
  · exact exists_getElem?_set hj id (h.task_stage hu)
  · rcases getElem?_set_cases hj hi with ⟨rfl, rfl⟩ | ⟨hit, hi⟩
    · have hinv := h.job t.job job hj
      refine ⟨hinv.le, fun p => hinv.fresh_stage hpart, fun p hp hnot => ?_,
        fun _ _ => hinv.after_stage, fun hnil => absurd hnil hne, hinv.fits, fun _ => ?_⟩
      · by_cases hpt : p = t.part
        · rw [hpt, history_append_stage_self, ← hlist, hhist]
        · have hkey : (t.job, p) ≠ t.key := fun heq => hpt (Prod.mk.inj heq).2
          rw [history_append_stage_of_ne hkey]
          refine hinv.finished p hp fun hmem => ?_
          exact (mem_cons.mp hmem).elim hkey hnot
      · -- before, not all tasks were counted; now this one is, with the value `done`
        obtain ⟨done, hdone, hcounter, hcalls⟩ := hinv.tally hne
        rw [countP_cons_of_pos (by simp)] at hdone
        have hlt : done < job.partitions := by
          have := hinv.le
          omega
        rw [if_neg hlt.ne, Nat.add_eq_zero_iff] at hcalls
        have hlast := job.ofNat_eq_lastValue hlt (hinv.fits hne).2
        refine ⟨done + 1, (by omega : done + 1 + _ = job.added), ?_, ?_⟩
        · rw [BitVec.ofNat_add, ← hcounter]
          rfl
        · rw [count_append_stage, hcalls.1, count_append]
          change 0 + (counted.count (t.job, job.lastValue)
            + [(t.job, job.counter)].count (t.job, job.lastValue)) = _
          rw [hcalls.2, hcounter, count_singleton]
          simp [hlast]
    · refine (h.job i job' hi).of_agrees
        (agrees_stage hit (fun v => ?_) (fun _ => Iff.rfl) rfl)
      rw [count_append, count_singleton, if_neg, add_zero]
      simp [Ne.symm hit]
  · refine exists_getElem?_set hj id ?_
    rcases mem_append.mp hc with hc | hc
    · exact h.counted c hc
    · rw [mem_singleton.mp hc]
      exact ⟨job, hj, hne⟩
  · rw [length_set] at hi
    exact h.unknown_stage hi

end

/-- The comparison with the last value is made after all tasks have been counted. -/
theorem JobInv.called (h : JobInv tasks counted log j job) (hne : job.queueList ≠ [])
    (hp : counted.Perm ((j, job.lastValue) :: counted')) :
    JobInv tasks counted' (log ++ [.callback j]) j job := by
  obtain ⟨done, hdone, hcounter, hcalls⟩ := h.tally hne
  rw [hp.count_eq, count_cons_self] at hcalls
  have hall : done = job.partitions := by
    by_contra hnot
    rw [if_neg hnot] at hcalls
    omega
  have hle := h.le
  have hnone : ∀ p, (j, p) ∉ tasks.map Task.key := by
    intro p hmem
    obtain ⟨t, ht, heq⟩ := mem_map.mp hmem
    have hzero : tasks.countP (·.job = j) = 0 := by omega
    have hjob := countP_eq_zero.mp hzero t ht
    simp only [decide_eq_true_eq] at hjob
    exact hjob (Prod.mk.inj heq).1
  refine ⟨hle, fun p hp => history_append_callback.trans (h.fresh p hp),
    fun p hp hnot => history_append_callback.trans (h.finished p hp hnot),
    fun before rest hlog p hp => ?_, fun hnil => absurd hnil hne, h.fits,
    fun _ => ⟨done, hdone, hcounter, ?_⟩⟩
  · rcases callback_split hlog with ⟨rfl, -⟩ | ⟨rest', hlog'⟩
    · exact h.finished p (by omega) (hnone p)
    · exact h.after before rest' hlog' p hp
  · rw [count_append, count_singleton_self, ← hcalls]
    omega

theorem Core.compare {v : BitVec 32} (h : Core jobs tasks counted log)
    (hp : counted.Perm ((j, v) :: counted')) (hj : jobs[j]? = some job) :
    Core jobs tasks counted' (if v = job.lastValue then log ++ [.callback j] else log) := by
  have hne : job.queueList ≠ [] := by
    obtain ⟨job', hjob', hne⟩ := h.counted (j, v) (hp.mem_iff.mpr mem_cons_self)
    rw [hj] at hjob'
    cases hjob'
    exact hne
  have hcounted : ∀ c ∈ counted', ∃ job, jobs[c.1]? = some job ∧ job.queueList ≠ [] :=
    fun c hc => h.counted c (hp.mem_iff.mpr (mem_cons_of_mem _ hc))
  have hcount : ∀ c, c ≠ (j, v) → counted'.count c = counted.count c := by
    intro c hc
    rw [hp.count_eq, count_cons_of_ne (Ne.symm hc)]
  split_ifs with hv
  · subst hv
    have hother : ∀ {i}, j ≠ i → Agrees i tasks tasks counted counted' log (log ++ [.callback j]) :=
      fun hi => agrees_callback hi fun w => hcount _ fun heq => hi (Prod.mk.inj heq).1.symm
    refine ⟨h.nodup, fun t ht => ?_, fun i job' hi => ?_, hcounted, fun i hi => ?_⟩
    · simpa only [history_append_callback] using h.task t ht
    · by_cases hij : j = i
      · subst hij
        rw [hj] at hi
        cases hi
        exact (h.job j job hj).called hne hp
      · exact (h.job i job' hi).of_agrees (hother hij)
    · obtain ⟨hcalls, hempty⟩ := h.unknown i hi
      have hij : j ≠ i := by
        rintro rfl
        have := (List.getElem?_eq_some_iff.mp hj).1
        omega
      exact ⟨(hother hij).callbacks.trans hcalls, fun p => history_append_callback.trans (hempty p)⟩
  · refine ⟨h.nodup, h.task, fun i job' hi => ?_, hcounted, h.unknown⟩
    have hinv := h.job i job' hi
    refine { hinv with tally := fun hne' => ?_ }
    rw [hcount]
    · exact hinv.tally hne'
    · intro heq
      obtain ⟨rfl, rfl⟩ := Prod.mk.inj heq
      rw [hj] at hi
      cases hi
      exact hv rfl

end MegatronDPU.Worker.Completion
