import MegatronDPU.Lib.Heap
import MegatronDPU.Lib.Transition
import MegatronDPU.Server.Message

/-!
# The engine queues

`PriorityQueue` of the server: a plain queue, or with scheduling on a heap whose comparison reads
a counter of pushes per key. The heap algorithms are those of libstdc++ (`BinHeap`). The counters
change while messages sit in the heap, so the heap order may be gone when the next message is taken.
-/

namespace MegatronDPU.Server

open BinHeap Lts List Option

variable {α : Type}

/-- `PriorityQueue`, by the pushes of a key if it is scheduled. -/
structure PriorityQueue (α : Type) where
  enableSchedule : Bool
  queue : List (EngineMessage α) := []
  pushCnt : Key → ℕ := fun _ => 0

/-- `ComparePriority`: `a` leaves after `b`. -/
def comparePriority (pushCnt : Key → ℕ) (a b : EngineMessage α) : Bool :=
  if pushCnt a.key = pushCnt b.key then decide (b.id < a.id)
  else decide (pushCnt b.key < pushCnt a.key)

variable {m : EngineMessage α} {q' : PriorityQueue α}

namespace PriorityQueue

/-- The counters after `++push_cnt_[key]`. -/
def bumpCnt (q : PriorityQueue α) (key : Key) : Key → ℕ :=
  Function.update q.pushCnt key ((q.pushCnt key + 1) % 2 ^ 64)

/-- `Push`. -/
def push (q : PriorityQueue α) (m : EngineMessage α) : PriorityQueue α :=
  if q.enableSchedule then
    { q with
      queue := pushHeap (comparePriority (q.bumpCnt m.key)) q.queue m
      pushCnt := q.bumpCnt m.key }
  else { q with queue := q.queue ++ [m] }

/-- `WaitAndPop`; `none` while the queue is empty and the caller waits. -/
def waitAndPop (q : PriorityQueue α) : Option (EngineMessage α × PriorityQueue α) :=
  if q.enableSchedule then
    (popHeap (comparePriority q.pushCnt) q.queue).map fun r => (r.1, { q with queue := r.2 })
  else
    match q.queue with
    | [] => none
    | m :: rest => some (m, { q with queue := rest })

/-- `ClearCounter`. -/
def clearCounter (q : PriorityQueue α) (key : Key) : PriorityQueue α :=
  if q.enableSchedule then { q with pushCnt := Function.update q.pushCnt key 0 } else q

/-! ## Single operations -/

@[simp] theorem enableSchedule_push (q : PriorityQueue α) (m : EngineMessage α) :
    (q.push m).enableSchedule = q.enableSchedule := by
  unfold push; split_ifs <;> rfl

@[simp] theorem enableSchedule_clearCounter (q : PriorityQueue α) (key : Key) :
    (q.clearCounter key).enableSchedule = q.enableSchedule := by
  unfold clearCounter; split_ifs <;> rfl

@[simp] theorem queue_clearCounter (q : PriorityQueue α) (key : Key) :
    (q.clearCounter key).queue = q.queue := by
  unfold clearCounter; split_ifs <;> rfl

theorem queue_push_perm (q : PriorityQueue α) (m : EngineMessage α) :
    (q.push m).queue.Perm (m :: q.queue) := by
  unfold push
  split_ifs
  · exact pushHeap_perm _ _ _
  · exact perm_append_singleton _ _

variable {q : PriorityQueue α}

/-- A pop takes one message out. -/
theorem waitAndPop_perm (h : q.waitAndPop = some (m, q')) : q.queue.Perm (m :: q'.queue) := by
  unfold waitAndPop at h
  split_ifs at h
  · obtain ⟨⟨x, rest⟩, hpop, hx⟩ := Option.map_eq_some_iff.mp h
    cases hx
    exact popHeap_perm hpop
  · split at h
    · cases h
    · rename_i hq
      cases h
      exact .of_eq hq

theorem queue_push_of_not_schedule (h : q.enableSchedule = false) (m : EngineMessage α) :
    (q.push m).queue = q.queue ++ [m] := by
  simp [push, h]

theorem waitAndPop_of_not_schedule (h : q.enableSchedule = false)
    (hp : q.waitAndPop = some (m, q')) : q.queue = m :: q'.queue ∧ q'.enableSchedule = false := by
  unfold waitAndPop at hp
  rw [h, if_neg Bool.false_ne_true] at hp
  split at hp
  · cases hp
  · rename_i hq
    cases hp
    exact ⟨hq, rfl⟩

end PriorityQueue

theorem strictWeak_comparePriority (pushCnt : Key → ℕ) :
    StrictWeak (@comparePriority α pushCnt) where
  asymm a b h := by
    unfold comparePriority at *
    split_ifs at * <;> simp only [decide_eq_true_eq, decide_eq_false_iff_not] at * <;> omega
  negTrans a b c hab hbc := by
    unfold comparePriority at *
    split_ifs at * <;> simp only [decide_eq_false_iff_not] at * <;> omega

theorem comparePriority_of_key_eq (pushCnt : Key → ℕ) {a b : EngineMessage α}
    (h : a.key = b.key) : comparePriority pushCnt a b = decide (b.id < a.id) := by
  unfold comparePriority; rw [h, if_pos rfl]

/-! ## Runs of queue operations -/

/-- The calls of a queue. -/
inductive QueueOp (α : Type)
  | push (m : EngineMessage α)
  | waitAndPop
  | clearCounter (key : Key)

/-- A queue with what went in and came out. -/
structure QueueRun (α : Type) where
  q : PriorityQueue α
  pushed : List (EngineMessage α) := []
  popped : List (EngineMessage α) := []

variable {s : QueueRun α}

namespace QueueRun

def step (s : QueueRun α) : QueueOp α → Option (QueueRun α)
  | .push m => some { s with q := s.q.push m, pushed := s.pushed ++ [m] }
  | .waitAndPop => s.q.waitAndPop.map fun r => { s with q := r.2, popped := s.popped ++ [r.1] }
  | .clearCounter key => some { s with q := s.q.clearCounter key }

/-- Operations on a queue with scheduling on that is empty at first. -/
def scheduled (α : Type) : System (QueueRun α) (QueueOp α) where
  init s := s = { q := { enableSchedule := true } }
  step := step

/-- Message ids grow in push order: they are drawn from one counter. -/
def IdsIncrease (s : QueueRun α) : QueueOp α → Prop
  | .push m => ∀ m' ∈ s.pushed, m'.id < m.id
  | _ => True

/-- The queued messages are a heap for the counters the operation leaves behind. -/
def CountersKeepHeap (s : QueueRun α) : QueueOp α → Prop
  | .push m => IsHeap (comparePriority (s.q.bumpCnt m.key)) s.q.queue
  | .waitAndPop => True
  | .clearCounter key => IsHeap (comparePriority (s.q.clearCounter key).pushCnt) s.q.queue

instance (s : QueueRun α) (op : QueueOp α) : Decidable (s.IdsIncrease op) := by
  cases op <;> unfold IdsIncrease <;> infer_instance

instance (s : QueueRun α) (op : QueueOp α) : Decidable (s.CountersKeepHeap op) := by
  cases op <;> unfold CountersKeepHeap <;> infer_instance

/-- No message is lost or duplicated. -/
def Conserved (s : QueueRun α) : Prop := (s.popped ++ s.q.queue).Perm s.pushed

/-- Messages of a key come out in their order. -/
def FifoPerKey (s : QueueRun α) : Prop :=
  ∀ key : Key, s.popped.filter (·.key = key) <+: s.pushed.filter (·.key = key)

variable {op : QueueOp α} {t : QueueRun α}

/-- The calls of a queue. -/
theorem step_cases (h : s.step op = some t) :
    (∃ m, op = .push m ∧ t = { s with q := s.q.push m, pushed := s.pushed ++ [m] }) ∨
    (∃ m q', op = .waitAndPop ∧ s.q.waitAndPop = some (m, q') ∧
      t = { s with q := q', popped := s.popped ++ [m] }) ∨
    (∃ key, op = .clearCounter key ∧ t = { s with q := s.q.clearCounter key }) := by
  cases op with
  | push m => exact .inl ⟨m, rfl, (some.inj h).symm⟩
  | waitAndPop =>
    obtain ⟨⟨m, q'⟩, hp, ht⟩ := Option.map_eq_some_iff.mp h
    exact .inr (.inl ⟨m, q', rfl, hp, ht.symm⟩)
  | clearCounter key => exact .inr (.inr ⟨key, rfl, (some.inj h).symm⟩)

/-- No call loses or duplicates a message. -/
theorem Conserved.step (hs : s.Conserved) (h : s.step op = some t) : t.Conserved := by
  unfold Conserved at *
  obtain ⟨m, rfl, rfl⟩ | ⟨m, q', rfl, hp, rfl⟩ | ⟨key, rfl, rfl⟩ := step_cases h
  · calc (s.popped ++ (s.q.push m).queue).Perm (s.popped ++ m :: s.q.queue) :=
          (s.q.queue_push_perm m).append_left _
      _ |>.Perm (m :: (s.popped ++ s.q.queue)) := perm_middle
      _ |>.Perm (s.pushed ++ [m]) := (hs.cons m).trans (perm_append_singleton m _).symm
  · rw [append_assoc, singleton_append]
    exact ((PriorityQueue.waitAndPop_perm hp).symm.append_left _).trans hs
  · rw [s.q.queue_clearCounter]
    exact hs

/-! ## Order within a key -/

theorem eq_head_of_least {a : EngineMessage α} {l t : List (EngineMessage α)}
    (hp : (m :: l).Perm (a :: t)) (hs : (a :: t).Pairwise (·.id < ·.id))
    (hm : ∀ x ∈ l, m.id ≤ x.id) : m = a := by
  rcases mem_cons.mp (hp.mem_iff.mp mem_cons_self) with rfl | hmt
  · rfl
  · have hlt := rel_of_pairwise_cons hs hmt
    rcases mem_cons.mp (hp.mem_iff.mpr mem_cons_self) with rfl | hal
    · exact absurd hlt (lt_irrefl _)
    · exact absurd hlt (hm a hal).not_gt

/-- What a scheduled queue keeps while its counters change with care. -/
structure Ordered (s : QueueRun α) : Prop where
  schedule : s.q.enableSchedule = true
  conserved : s.Conserved
  sorted : s.pushed.Pairwise (·.id < ·.id)
  heap : IsHeap (comparePriority s.q.pushCnt) s.q.queue
  fifo : s.FifoPerKey

/-- A push with a larger id keeps the order of each key. -/
theorem Ordered.push (hs : s.Ordered) (hid : s.IdsIncrease (.push m))
    (hk : s.CountersKeepHeap (.push m)) :
    Ordered { s with q := s.q.push m, pushed := s.pushed ++ [m] } where
  schedule := (s.q.enableSchedule_push m).trans hs.schedule
  conserved := hs.conserved.step (show s.step (.push m) = _ from rfl)
  sorted := pairwise_append.mpr ⟨hs.sorted, pairwise_singleton _ _,
    fun x hx y hy => mem_singleton.mp hy ▸ hid x hx⟩
  heap := by
    simp only [PriorityQueue.push, hs.schedule, if_true]
    exact isHeap_pushHeap (strictWeak_comparePriority _) hk m
  fifo key := by
    simp only [filter_append]
    exact (hs.fifo key).trans (prefix_append _ _)

section

variable (hs : s.Ordered) (hp : s.q.waitAndPop = some (m, q'))
include hs hp

/-- The popped message is the oldest of its key: it is a root, and within a key the heap order is
the order of ids. -/
theorem Ordered.popped_least : ∀ x ∈ q'.queue, x.key = m.key → m.id ≤ x.id := by
  intro x hx hkey
  have hmem := (PriorityQueue.waitAndPop_perm hp).mem_iff.mpr (mem_cons_of_mem m hx)
  unfold PriorityQueue.waitAndPop at hp
  rw [hs.schedule, if_pos rfl] at hp
  obtain ⟨⟨r, rest⟩, hpop, hr⟩ := Option.map_eq_some_iff.mp hp
  cases hr
  have hroot := hs.heap.root_max (strictWeak_comparePriority _) (popHeap_root hpop) hmem
  rw [comparePriority_of_key_eq _ hkey.symm, decide_eq_false_iff_not] at hroot
  exact Nat.le_of_not_lt hroot

theorem Ordered.fifo_waitAndPop : FifoPerKey { s with q := q', popped := s.popped ++ [m] } := by
  intro key
  obtain ⟨rest, hrest⟩ := hs.fifo key
  by_cases hkey : m.key = key
  · -- of this key, the pushed messages that are not popped yet are the queued ones
    have hperm : (m :: q'.queue.filter (·.key = key)).Perm rest := by
      have h := (hs.conserved.filter (·.key = key)).trans (.of_eq hrest.symm)
      rw [filter_append, perm_append_left_iff] at h
      have hq := (PriorityQueue.waitAndPop_perm hp).filter (·.key = key)
      rw [filter_cons_of_pos (by simpa using hkey)] at hq
      exact hq.symm.trans h
    obtain ⟨a, t, rfl⟩ := exists_cons_of_ne_nil fun h => by
      simpa using (hperm.trans (.of_eq h)).eq_nil
    have hsorted : (a :: t).Pairwise (·.id < ·.id) := by
      have h := hs.sorted.filter (·.key = key)
      rw [← hrest] at h
      exact (pairwise_append.mp h).2.1
    obtain rfl : m = a := eq_head_of_least hperm hsorted fun x hx => by
      obtain ⟨hxq, hxk⟩ := mem_filter.mp hx
      exact hs.popped_least hp x hxq (by simpa [hkey] using hxk)
    exact ⟨t, by simpa [filter_append, hkey] using hrest⟩
  · exact ⟨rest, by simpa [filter_append, hkey] using hrest⟩

theorem Ordered.waitAndPop : Ordered { s with q := q', popped := s.popped ++ [m] } := by
  have hfifo := hs.fifo_waitAndPop hp
  have hcons : Conserved { s with q := q', popped := s.popped ++ [m] } :=
    hs.conserved.step (show s.step .waitAndPop = _ by simp only [QueueRun.step, hp]; rfl)
  unfold PriorityQueue.waitAndPop at hp
  rw [hs.schedule, if_pos rfl] at hp
  obtain ⟨⟨r, rest⟩, hpop, hr⟩ := Option.map_eq_some_iff.mp hp
  cases hr
  exact ⟨rfl, hcons, hs.sorted, isHeap_popHeap (strictWeak_comparePriority _) hs.heap hpop, hfifo⟩

end

/-- Every call that keeps the heap keeps the order of each key. -/
theorem Ordered.step (hs : s.Ordered) (hid : s.IdsIncrease op) (hk : s.CountersKeepHeap op)
    (h : s.step op = some t) : t.Ordered := by
  obtain ⟨m, rfl, rfl⟩ | ⟨m, q', rfl, hp, rfl⟩ | ⟨key, rfl, rfl⟩ := step_cases h
  · exact hs.push hid hk
  · exact hs.waitAndPop hp
  · exact ⟨(s.q.enableSchedule_clearCounter key).trans hs.schedule, hs.conserved.step h, hs.sorted,
      (s.q.queue_clearCounter key).symm ▸ hk, hs.fifo⟩

end QueueRun

open QueueRun

theorem ordered_of_reach
    (h : Reach (scheduled α) (fun s op => s.IdsIncrease op ∧ s.CountersKeepHeap op) s) :
    s.Ordered := by
  refine h.invariant ?_ fun s op t hs hg ht => hs.step hg.1 hg.2 ht
  rintro s rfl
  exact ⟨rfl, .nil, .nil, fun i hi => absurd hi (Nat.not_lt_zero i), fun _ => prefix_rfl⟩

theorem conserved_of_reach (h : Reach (scheduled α) Free s) : s.Conserved := by
  refine h.invariant ?_ fun s op t hs _ ht => hs.step ht
  rintro s rfl
  exact .nil

/-- No message is ever lost or doubled. If every `Push` and every `ClearCounter` finds the queued
messages a heap for the counters it leaves behind, messages of one key leave in push order. -/
theorem fifo_of_countersKeepHeap (s : QueueRun α) : (Reach (scheduled α) Free s → s.Conserved) ∧
      (Reach (scheduled α) (fun s op => s.IdsIncrease op ∧ s.CountersKeepHeap op) s →
        s.FifoPerKey) :=
  ⟨conserved_of_reach, fun h => (ordered_of_reach h).fifo⟩

/-- An engine message of a handler, with only the fields the queue reads. -/
def bareMessage (id : ℕ) (key : Key) (ops : EngineOp) : EngineMessage Unit where
  id := id
  type := ⟨.kDefaultPushPull, 0⟩
  key := key
  dst := .store
  src := .buffer []
  len := 0
  ops := ops
  sarray := {}
  reqMeta := none

theorem fifo_of_countersKeepHeap_two_keys : ∃ s : QueueRun Unit,
      Reach (scheduled Unit) (fun s op => s.IdsIncrease op ∧ s.CountersKeepHeap op) s ∧
      s.popped.map (·.id) = [3, 1] ∧ s.FifoPerKey ∧ s.Conserved := by
  obtain ⟨s, hs, hpop⟩ := exists_reach (P := fun s : QueueRun Unit => s.popped.map (·.id) = [3, 1])
    (S := scheduled Unit) (G := fun s op => s.IdsIncrease op ∧ s.CountersKeepHeap op) (.init rfl)
    [.push (bareMessage 1 7 .copyFirst), .push (bareMessage 2 7 .sumRecv),
      .push (bareMessage 3 8 .copyFirst), .waitAndPop, .waitAndPop, .clearCounter 7]
    (by decide)
  obtain ⟨hcons, hfifo⟩ := fifo_of_countersKeepHeap s
  exact ⟨s, hs, hpop, hfifo hs, hcons hs.free⟩

/-- Six pushes for three keys, then two pops: the second message to leave is the `SUM_RECV` of
key 7, while the `COPY_FIRST` of that key, pushed before it, is still queued. -/
theorem sum_popped_before_copy : ∃ s : QueueRun Unit, Reach (scheduled Unit) IdsIncrease s ∧
      s.popped = [bareMessage 1 6 .copyFirst, bareMessage 3 7 .sumRecv] ∧
      bareMessage 2 7 .copyFirst ∈ s.q.queue ∧ ¬ s.FifoPerKey := by
  obtain ⟨s, hs, hpop, hq, hf⟩ := exists_reach
    (P := fun s : QueueRun Unit =>
      s.popped = [bareMessage 1 6 .copyFirst, bareMessage 3 7 .sumRecv] ∧
      bareMessage 2 7 .copyFirst ∈ s.q.queue ∧
      ¬ s.popped.filter (·.key = 7) <+: s.pushed.filter (·.key = 7))
    (S := scheduled Unit) (G := IdsIncrease) (.init rfl)
    [.push (bareMessage 1 6 .copyFirst), .push (bareMessage 2 7 .copyFirst),
      .push (bareMessage 3 7 .sumRecv), .push (bareMessage 4 8 .copyFirst),
      .push (bareMessage 5 8 .sumRecv), .push (bareMessage 6 8 .sumRecv),
      .waitAndPop, .waitAndPop]
    (by decide)
  exact ⟨s, hs, hpop, hq, fun h => hf (h 7)⟩

end MegatronDPU.Server
