import MegatronDPU.Worker.Pipeline

/-!
# Scheduled queues

Between two stages a task waits in a queue. Loops that decide themselves take the first task that
is ready (`getTask`); the NCCL loop of a process that follows the root takes the task of a given
key (`getTaskOf`), and then every task it looks at must be ready.
-/

namespace MegatronDPU.Worker

open List Option
open Server (Key)

/-! ## Tasks -/

/-- An operation, as a framework hands it to `EnqueueTensor`: it has a name, and its input and
output have one shape. -/
structure Operation where
  tensorName : String
  tensorName_ne : tensorName ≠ ""
  unitLen : ℕ
  numElements : ℕ
  numElements_pos : 0 < numElements
  deriving DecidableEq

def Operation.size (op : Operation) : ℕ := op.numElements * op.unitLen

structure TensorTableEntry where
  op : Operation
  key : Key
  len : ℕ
  priority : ℤ
  /-- `ready_event`, with what its `Ready()` answers. -/
  readyEvent : Option Bool
  queueList : List QueueType
  deriving DecidableEq

def TensorTableEntry.place (e : TensorTableEntry) : Option QueueType × Key :=
  (e.queueList.head?, e.key)

/-- Where a `BPS_CHECK` may fail. -/
inductive Check
  /-- `getTask(key)` on a queue that is scheduled by priority. -/
  | scheduled
  /-- `getTask(key)` on a queue with a task that is not ready before the one of the key. -/
  | eventReady
  /-- `getTask(key)` has found no task. -/
  | task
  /-- A ready count is at its bound and is added to. -/
  | readyCount
  /-- `FinishOrProceed` of a task without queues. -/
  | queueList
  | tensorShape
  | tensorName
  /-- The root has entered a loop of the others. -/
  | coordinateRoot
  /-- A signal that the receiver does not know. -/
  | signal
  /-- A signal that is not from the root. -/
  | source
  deriving DecidableEq

/-- The checks of `PostNcclCalls`. -/
def postNcclCalls (e : TensorTableEntry) : Except Check Unit :=
  if e.op.size % e.op.numElements = 0 then
    if e.op.tensorName = "" then .error .tensorName else .ok ()
  else .error .tensorShape

theorem postNcclCalls_eq_ok (e : TensorTableEntry) : postNcclCalls e = .ok () := by
  unfold postNcclCalls Operation.size
  rw [if_pos (Nat.mul_mod_right _ _), if_neg e.op.tensorName_ne]

/-! ## Queues -/

namespace ScheduledQueue

def Before (a b : TensorTableEntry) : Prop :=
  if a.priority = b.priority then a.key ≤ b.key else b.priority < a.priority

instance : DecidableRel Before := fun a b =>
  inferInstanceAs (Decidable (if a.priority = b.priority then a.key ≤ b.key else _))

def addTask (isScheduled : Bool) (sq : List TensorTableEntry) (entry : TensorTableEntry) :
    List TensorTableEntry :=
  if isScheduled then (sq ++ [entry]).insertionSort Before else sq ++ [entry]

/-- The first task whose event is ready, for which there is credit, and whose key is ready. -/
def getTask (isScheduled : Bool) (credits : ℕ) (isKeyReady : Key → Bool) :
    List TensorTableEntry → Option (TensorTableEntry × List TensorTableEntry)
  | [] => none
  | e :: sq =>
    if e.readyEvent = some false ∨ (isScheduled = true ∧ credits < e.len) ∨
        isKeyReady e.key = false then
      (getTask isScheduled credits isKeyReady sq).map fun r => (r.1, e :: r.2)
    else some ({ e with readyEvent := none }, sq)

/-- The loop of `getTask(key)`. -/
def scan (key : Key) :
    List TensorTableEntry → Except Check (Option (TensorTableEntry × List TensorTableEntry))
  | [] => .ok none
  | e :: sq =>
    if e.readyEvent = some false then .error .eventReady
    else if e.key = key then .ok (some ({ e with readyEvent := none }, sq))
    else (scan key sq).map fun r => r.map fun r => (r.1, e :: r.2)

/-- `getTask(key)`. -/
def getTaskOf (isScheduled : Bool) (key : Key) (sq : List TensorTableEntry) :
    Except Check (Option (TensorTableEntry × List TensorTableEntry)) :=
  if isScheduled then .error .scheduled else scan key sq

variable {sq rest : List TensorTableEntry} {e : TensorTableEntry} {key : Key}

theorem addTask_perm (isScheduled : Bool) (sq : List TensorTableEntry) (e : TensorTableEntry) :
    (addTask isScheduled sq e).Perm (e :: sq) := by
  unfold addTask
  split_ifs
  · exact (perm_insertionSort Before (sq ++ [e])).trans perm_append_comm
  · exact perm_append_comm

/-- The loop of `getTask` does not pass over a task. -/
def Eligible (isScheduled : Bool) (credits : ℕ) (isKeyReady : Key → Bool) (e : TensorTableEntry) :
    Prop :=
  e.readyEvent ≠ some false ∧ (isScheduled = true → e.len ≤ credits) ∧ isKeyReady e.key = true

instance (isScheduled : Bool) (credits : ℕ) (isKeyReady : Key → Bool) :
    DecidablePred (Eligible isScheduled credits isKeyReady) := fun e =>
  inferInstanceAs (Decidable (e.readyEvent ≠ some false ∧ (isScheduled = true → e.len ≤ credits) ∧
    isKeyReady e.key = true))

section GetTask

variable {isScheduled : Bool} {credits : ℕ} {isKeyReady : Key → Bool}

theorem skipped_iff : (e.readyEvent = some false ∨ (isScheduled = true ∧ credits < e.len) ∨
    isKeyReady e.key = false) ↔ ¬Eligible isScheduled credits isKeyReady e := by
  unfold Eligible
  rw [← Bool.not_eq_true, ← not_le]
  tauto

theorem getTask_eq_none : getTask isScheduled credits isKeyReady sq = none ↔
    ∀ e ∈ sq, ¬Eligible isScheduled credits isKeyReady e := by
  induction sq with
  | nil => simp [getTask]
  | cons a sq ih =>
    rw [getTask, forall_mem_cons]
    by_cases ha : Eligible isScheduled credits isKeyReady a
    · rw [if_neg fun hskip => skipped_iff.mp hskip ha]
      simp [ha]
    · rw [if_pos (skipped_iff.mpr ha), map_eq_none_iff, ih]
      simp [ha]

variable (h : getTask isScheduled credits isKeyReady sq = some (e, rest))
include h

theorem getTask_eq_some :
    ∃ pre e₀ post, sq = pre ++ e₀ :: post ∧ rest = pre ++ post ∧
      e = { e₀ with readyEvent := none } ∧ Eligible isScheduled credits isKeyReady e₀ ∧
      ∀ a ∈ pre, ¬Eligible isScheduled credits isKeyReady a := by
  induction sq generalizing rest with
  | nil => cases h
  | cons a sq ih =>
    rw [getTask] at h
    by_cases ha : Eligible isScheduled credits isKeyReady a
    · rw [if_neg fun hskip => skipped_iff.mp hskip ha] at h
      obtain ⟨rfl, rfl⟩ := Prod.mk.inj (some.inj h)
      exact ⟨[], a, sq, rfl, rfl, rfl, ha, nofun⟩
    · rw [if_pos (skipped_iff.mpr ha)] at h
      obtain ⟨⟨e', rest'⟩, hrest, heq⟩ := Option.map_eq_some_iff.mp h
      obtain ⟨rfl, rfl⟩ := Prod.mk.inj heq
      obtain ⟨pre, e₀, post, rfl, rfl, he, hel, hpre⟩ := ih hrest
      exact ⟨a :: pre, e₀, post, rfl, rfl, he, hel, forall_mem_cons.mpr ⟨ha, hpre⟩⟩

theorem getTask_spec :
    ∃ e₀, sq.Perm (e₀ :: rest) ∧ e = { e₀ with readyEvent := none } ∧
      isKeyReady e₀.key = true := by
  obtain ⟨pre, e₀, post, rfl, rfl, he, hel, -⟩ := getTask_eq_some h
  exact ⟨e₀, perm_middle, he, hel.2.2⟩

theorem getTask_first (hsorted : sq.Pairwise Before) :
    ∃ e₀, e = { e₀ with readyEvent := none } ∧ sq.Perm (e₀ :: rest) ∧
      Eligible isScheduled credits isKeyReady e₀ ∧
      ∀ a ∈ rest, Eligible isScheduled credits isKeyReady a → Before e₀ a := by
  obtain ⟨pre, e₀, post, rfl, rfl, he, hel, hpre⟩ := getTask_eq_some h
  refine ⟨e₀, he, perm_middle, hel, fun a ha hea => ?_⟩
  rcases mem_append.mp ha with ha | ha
  · exact absurd hea (hpre a ha)
  · have hpost := (pairwise_append.mp hsorted).2.1
    exact (pairwise_cons.mp hpost).1 a ha

end GetTask

theorem getTaskOf_spec (hready : ∀ e ∈ sq, e.readyEvent ≠ some false)
    (hkey : ∃ e ∈ sq, e.key = key) :
    ∃ e₀ rest, getTaskOf false key sq = .ok (some ({ e₀ with readyEvent := none }, rest)) ∧
      sq.Perm (e₀ :: rest) ∧ e₀.key = key := by
  show ∃ e₀ rest, scan key sq = _ ∧ _
  induction sq with
  | nil =>
    obtain ⟨e, he, -⟩ := hkey
    cases he
  | cons a sq ih =>
    rw [scan, if_neg (hready a mem_cons_self)]
    by_cases ha : a.key = key
    · exact ⟨a, sq, if_pos ha, .refl _, ha⟩
    · have hrest : ∃ e ∈ sq, e.key = key := by
        obtain ⟨e, he, hkey⟩ := hkey
        rcases mem_cons.mp he with rfl | he
        · exact absurd hkey ha
        · exact ⟨e, he, hkey⟩
      obtain ⟨e₀, rest, hscan, hperm, hkey₀⟩ :=
        ih (fun e he => hready e (mem_cons_of_mem _ he)) hrest
      refine ⟨e₀, a :: rest, ?_, (hperm.cons a).trans (.swap e₀ a rest), hkey₀⟩
      rw [if_neg ha, hscan]
      rfl

end ScheduledQueue

end MegatronDPU.Worker
