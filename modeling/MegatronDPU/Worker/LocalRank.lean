import MegatronDPU.Lib.Stages
import MegatronDPU.Worker.Local

/-!
# What a rank keeps

No task is lost or doubled within a rank: what was added to a queue and not taken is in it, and
what was taken and not passed on is in the hands of a loop (`Rank.Ok`). The tasks that a step has
in its own hands are counted as `loose`. Towards the other ranks a step is a `LocalMove` of the
ledger: signals are sent for what was done before, and a ready table is cleared when it is full.
-/

namespace MegatronDPU.Worker

open Function Option
open List hiding next
open Server (Key)
open Stages (next)

/-! ## Queue lists -/

def Coordinate.target : Coordinate → QueueType
  | .reduce => .reduce
  | .broadcast => .broadcast
  | .push => .copyH2D

def NcclOp.coordinate : NcclOp → Coordinate
  | .reduce => .reduce
  | .broadcast => .broadcast

namespace Machine

variable {m : Machine} {r : ℕ}

/-- What the queue lists have in common. -/
structure Ordered (m : Machine) (r : ℕ) : Prop where
  nodup : (m.queueList r).Nodup
  next_coordinate (op : Coordinate) : op.queue ∈ m.queueList r →
    next (m.queueList r) op.queue = some op.target
  eq_coordinate (op : NcclOp) (q : QueueType) : m.isSignalRoot r = false →
    next (m.queueList r) q = some op.queue → q = op.coordinate.queue
  head_ne (op : NcclOp) : m.isSignalRoot r = false → (m.queueList r).head? ≠ some op.queue
  reduce_mem : .reduce ∈ m.queueList r ↔ m.useGdr = false
  reduce_before : .reduce ∈ m.queueList r → [.reduce, .broadcast].Sublist (m.queueList r)
  copyH2D_mem : .copyH2D ∈ m.queueList r ↔
    m.useGdr = false ∧ (m.isDistributed || m.isCrossPcieSwitch) = true
  push_before : .copyH2D ∈ m.queueList r → m.isRootDevice r = true →
    [.push, .copyH2D].Sublist (m.queueList r)
  pcieReduce_mem : .pcieReduce ∈ m.queueList r ↔ m.useGdr = false ∧ m.isCrossPcieSwitch = true
  pcieReduce_before : .pcieReduce ∈ m.queueList r →
    [.pcieReduce, .copyH2D].Sublist (m.queueList r) ∧
      (m.isRootDevice r = true → [.pcieReduce, .push].Sublist (m.queueList r))
  nccl_loop : .coordinateReduce ∈ m.loops r ∨ .coordinateBroadcast ∈ m.loops r →
    m.isSignalRoot r = false
  push_loop : .coordinatePush ∈ m.loops r → m.isRootDevice r = false
  pcieReduce_loop : .pcieReduce ∈ m.loops r → m.isCrossPcieSwitch = true

theorem ordered (m : Machine) (r : ℕ) : m.Ordered r := by
  refine ⟨?_, fun op => ?_, fun op q => ?_, fun op => ?_, ?_, ?_, ?_, ?_, ?_, ?_, ?_, ?_, ?_⟩
  all_goals try cases op
  all_goals try cases q
  all_goals
    dsimp only [queueList, getPushQueueList, getPullQueueList, loops]
    generalize m.useGdr = g, m.isDistributed = d, m.isCrossPcieSwitch = c, m.isRootDevice r = a,
      m.isSignalRoot r = b
    revert g d c a b
    decide

theorem root_ne_of_loop {op : Coordinate} (hr : r < m.localSize) (h : op.queue ∈ m.loops r) :
    m.root op.signal.comm r ≠ r := by
  have hnccl : m.isSignalRoot r = false → m.root .nccl r ≠ r := by
    intro hsignal
    rw [root_nccl hr]
    exact beq_eq_false_iff_ne.mp hsignal
  cases op with
  | reduce => exact hnccl ((m.ordered r).nccl_loop (.inl h))
  | broadcast => exact hnccl ((m.ordered r).nccl_loop (.inr h))
  | push =>
    intro hroot
    have hdevice := (m.ordered r).push_loop h
    rw [(isRootDevice_iff hr).mpr hroot] at hdevice
    cases hdevice

end Machine

/-! ## Tasks in hand -/

def TensorTableEntry.At (e : TensorTableEntry) (l : List QueueType) (q : QueueType) : Prop :=
  ∃ rest, e.queueList = q :: rest ∧ q :: rest <:+ l

namespace TensorTableEntry

variable {e : TensorTableEntry} {l : List QueueType} {q q' : QueueType}

theorem At.place (h : e.At l q) : e.place = (some q, e.key) := by
  obtain ⟨rest, hlist, -⟩ := h
  unfold TensorTableEntry.place
  rw [hlist, head?_cons]

theorem At.mem (h : e.At l q) : q ∈ l := by
  obtain ⟨rest, -, hsuffix⟩ := h
  exact hsuffix.subset mem_cons_self

end TensorTableEntry

def countAt (q : QueueType) (x : Key) (l : List TensorTableEntry) : ℕ :=
  l.countP fun e => e.place = (some q, x)

section CountAt

variable {q : QueueType} {x : Key} {l l' : List TensorTableEntry} {e : TensorTableEntry}

@[simp] theorem countAt_nil : countAt q x [] = 0 := rfl

@[simp] theorem countAt_append : countAt q x (l ++ l') = countAt q x l + countAt q x l' :=
  countP_append

theorem countAt_cons :
    countAt q x (e :: l) = countAt q x l + if e.place = (some q, x) then 1 else 0 := by
  unfold countAt
  rw [countP_cons]
  simp

theorem countAt_perm (h : l.Perm l') : countAt q x l = countAt q x l' := h.countP_eq _

theorem exists_of_countAt (h : 0 < countAt q x l) : ∃ e ∈ l, e.key = x := by
  obtain ⟨e, he, hplace⟩ := List.countP_pos_iff.mp h
  exact ⟨e, he, (Prod.mk.inj (of_decide_eq_true hplace)).2⟩

end CountAt

namespace Rank

def ncclTasks (k : Rank) : List TensorTableEntry := k.group ++ k.pipeline.flatten ++ k.syncing

def heldAt (k : Rank) (loose : List TensorTableEntry) (q : QueueType) (x : Key) : ℕ :=
  countAt q x (k.tasks q) + countAt q x k.ncclTasks + countAt q x loose

structure Ok (m : LocalConfig) (r : ℕ) (k : Rank) (loose : List TensorTableEntry) : Prop where
  queued : ∀ q, ∀ e ∈ k.queues q, e.At (m.queueList r) q
  working : ∀ q, ∀ e ∈ k.tasks q, e.At (m.queueList r) q
  grouped : ∀ e ∈ k.ncclTasks ++ loose, ∃ q, e.At (m.queueList r) q
  cleared : ∀ e ∈ k.ncclTasks, e.readyEvent = none
  waiting : ∀ q x, countAt q x (k.queues q) + k.taken (q, x) = k.added (some q, x)
  held : ∀ q ∈ m.queueList r, ∀ x,
    k.heldAt loose q x + k.added (next (m.queueList r) q, x) = k.taken (q, x)
  unlisted : ∀ q ∉ m.queueList r, ∀ x, k.added (some q, x) = 0
  once : ∀ x, k.added ((m.queueList r).head?, x) ≤ k.added (none, x) + 1
  /-- The coordinate loops wait for events. -/
  coordinated : ∀ op : Coordinate, ∀ e ∈ k.tasks op.queue, e.readyEvent = none
  ready : m.isSignalRoot r = false → ∀ op : NcclOp, ∀ e ∈ k.queues op.queue, e.readyEvent = none

variable {m : LocalConfig} {r : ℕ} {k k' : Rank} {loose loose' : List TensorTableEntry}
  {q : QueueType} {e : TensorTableEntry}

section

variable (h : k.Ok m r loose) (hqueues : k'.queues = k.queues) (hadded : k'.added = k.added)
  (htaken : k'.taken = k.taken)
include h hqueues hadded htaken

theorem Ok.regroup (hworking : ∀ q, ∀ e ∈ k'.tasks q, e.At (m.queueList r) q)
    (hgrouped : ∀ e ∈ k'.ncclTasks ++ loose', ∃ q, e.At (m.queueList r) q)
    (hcleared : ∀ e ∈ k'.ncclTasks, e.readyEvent = none)
    (hheld : ∀ q x, k'.heldAt loose' q x = k.heldAt loose q x)
    (hcoordinated : ∀ op : Coordinate, ∀ e ∈ k'.tasks op.queue, e.readyEvent = none) :
    k'.Ok m r loose' where
  queued := hqueues ▸ h.queued
  working := hworking
  grouped := hgrouped
  cleared := hcleared
  waiting := by
    rw [hqueues, hadded, htaken]
    exact h.waiting
  held q hq x := by
    rw [hheld, hadded, htaken]
    exact h.held q hq x
  unlisted := hadded ▸ h.unlisted
  once := hadded ▸ h.once
  coordinated := hcoordinated
  ready := hqueues ▸ h.ready

theorem Ok.same (htasks : k'.tasks = k.tasks) (hnccl : k'.ncclTasks = k.ncclTasks) :
    k'.Ok m r loose := by
  refine h.regroup hqueues hadded htaken (htasks ▸ h.working) (hnccl ▸ h.grouped)
    (hnccl ▸ h.cleared) ?_ (htasks ▸ h.coordinated)
  intro q x
  unfold heldAt
  rw [htasks, hnccl]

end

theorem countAt_eq_zero {l : List TensorTableEntry} {q' : QueueType} {x : Key}
    (hl : ∀ e ∈ l, e.At (m.queueList r) q) (hne : q' ≠ q) : countAt q' x l = 0 := by
  refine List.countP_eq_zero.mpr fun e he => ?_
  rw [decide_eq_true_iff, (hl e he).place]
  exact fun heq => hne (some.inj (Prod.mk.inj heq).1).symm

section

variable (h : k.Ok m r loose) (hqueues : k'.queues = k.queues) (hadded : k'.added = k.added)
  (htaken : k'.taken = k.taken)
include h hqueues hadded htaken

theorem Ok.setTasks {tasks : List TensorTableEntry} (hnccl : k'.ncclTasks = k.ncclTasks)
    (htasks : k'.tasks = update k.tasks q tasks)
    (hat : ∀ e ∈ tasks ++ loose', e.At (m.queueList r) q)
    (hloose : ∀ e ∈ loose, e.At (m.queueList r) q)
    (hcount : ∀ x, countAt q x tasks + countAt q x loose' = countAt q x (k.tasks q) + countAt q x loose)
    (hevent : ∀ op : Coordinate, op.queue = q → ∀ e ∈ tasks, e.readyEvent = none) :
    k'.Ok m r loose' := by
  refine h.regroup hqueues hadded htaken ?_ ?_ (hnccl ▸ h.cleared) ?_ ?_
  · rw [htasks]
    exact (forall_update_iff _ fun q l => ∀ e ∈ l, e.At (m.queueList r) q).mpr
      ⟨fun e he => hat e (mem_append_left _ he), fun q' _ => h.working q'⟩
  · intro e he
    rw [hnccl] at he
    rcases List.mem_append.mp he with he | he
    · exact h.grouped e (mem_append_left _ he)
    · exact ⟨q, hat e (mem_append_right _ he)⟩
  · intro q' x
    unfold heldAt
    rw [htasks, hnccl]
    by_cases hq : q' = q
    · subst hq
      have hsum := hcount x
      rw [update_self]
      omega
    · rw [update_of_ne hq, countAt_eq_zero hloose hq,
        countAt_eq_zero (fun e he => hat e (mem_append_right _ he)) hq]
  · intro op e he
    rw [htasks] at he
    by_cases hq : op.queue = q
    · rw [hq, update_self] at he
      exact hevent op hq e he
    · rw [update_of_ne hq] at he
      exact h.coordinated op e he

theorem Ok.setNccl (htasks : k'.tasks = k.tasks)
    (hperm : (k'.ncclTasks ++ loose').Perm (k.ncclTasks ++ loose))
    (hcleared : ∀ e ∈ k'.ncclTasks, e.readyEvent = none) : k'.Ok m r loose' := by
  refine h.regroup hqueues hadded htaken (htasks ▸ h.working)
    (fun e he => h.grouped e (hperm.subset he)) hcleared ?_ (htasks ▸ h.coordinated)
  intro q x
  have hcount : countAt q x (k'.ncclTasks ++ loose') = countAt q x (k.ncclTasks ++ loose) :=
    countAt_perm hperm
  rw [countAt_append, countAt_append] at hcount
  unfold heldAt
  rw [htasks]
  omega

end

/-! ## Queues -/

theorem countAt_singleton (hat : e.At (m.queueList r) q) (q' : QueueType) (x : Key) :
    countAt q' x [e] = if (q', x) = (q, e.key) then 1 else 0 := by
  rw [countAt_cons, countAt_nil, zero_add, hat.place]
  simp only [Prod.mk.injEq, Option.some.injEq, eq_comm]

theorem Ok.dequeue {sq : List TensorTableEntry} (h : k.Ok m r [])
    (hperm : (k.queues q).Perm (e :: sq)) :
    Rank.Ok m r { k with
      queues := update k.queues q sq
      taken := tick k.taken (q, e.key) } [{ e with readyEvent := none }] := by
  have hat : e.At (m.queueList r) q := h.queued q e (hperm.mem_iff.mpr mem_cons_self)
  have hat' : ({ e with readyEvent := none } : TensorTableEntry).At (m.queueList r) q := hat
  have hqueue : ∀ q', ∀ e' ∈ update k.queues q sq q', e' ∈ k.queues q' :=
    (forall_update_iff _ fun q' l => ∀ e' ∈ l, e' ∈ k.queues q').mpr
      ⟨fun e' he' => hperm.mem_iff.mpr (mem_cons_of_mem _ he'), fun _ _ _ he' => he'⟩
  refine { h with
    queued := fun q' e' he' => h.queued q' e' (hqueue q' e' he')
    grouped := fun e' he' => ?_
    waiting := fun q' x => ?_
    held := fun q' hq' x => ?_
    ready := fun hroot op e' he' => h.ready hroot op e' (hqueue op.queue e' he') }
  · rcases List.mem_append.mp he' with he' | he'
    · exact h.grouped e' (mem_append_left _ he')
    · obtain rfl := List.mem_singleton.mp he'
      exact ⟨q, hat⟩
  · have hwait := h.waiting q' x
    dsimp only
    rw [tick_apply]
    by_cases hq : q' = q
    · subst hq
      rw [update_self]
      rw [countAt_perm hperm, ← singleton_append, countAt_append,
        countAt_singleton hat] at hwait
      omega
    · have hne : (q', x) ≠ (q, e.key) := fun heq => hq (Prod.mk.inj heq).1
      rw [update_of_ne hq, if_neg hne]
      exact hwait
  · have hheld := h.held q' hq' x
    show countAt q' x (k.tasks q') + countAt q' x k.ncclTasks + countAt q' x [_] + _ =
      tick k.taken (q, e.key) (q', x)
    rw [tick_apply, countAt_singleton hat' q' x, ← hheld]
    unfold heldAt
    rw [countAt_nil]
    dsimp only
    omega

theorem Ok.enqueueTask (h : k.Ok m r loose) (hat : e.At (m.queueList r) q)
    (hheld : ∀ q' ∈ m.queueList r, ∀ x,
      k.heldAt [] q' x + tick k.added (some q, e.key) (next (m.queueList r) q', x) =
        k.taken (q', x))
    (honce : ∀ x, tick k.added (some q, e.key) ((m.queueList r).head?, x) ≤
      tick k.added (some q, e.key) (none, x) + 1)
    (hready : m.isSignalRoot r = false → ∀ op : NcclOp, q = op.queue → e.readyEvent = none) :
    (k.addTask m r q e).Ok m r [] := by
  have hperm := ScheduledQueue.addTask_perm (m.isScheduled r q) (k.queues q) e
  have hmem : ∀ q', ∀ e' ∈ (k.addTask m r q e).queues q', e' ∈ k.queues q' ∨ (e' = e ∧ q' = q) :=
    (forall_update_iff _ fun q' l => ∀ e' ∈ l, e' ∈ k.queues q' ∨ (e' = e ∧ q' = q)).mpr
      ⟨fun e' he' => (List.mem_cons.mp (hperm.subset he')).symm.imp id fun heq => ⟨heq, rfl⟩,
        fun _ _ _ => .inl⟩
  refine { h with
    queued := fun q' e' he' => ?_
    grouped := fun e' he' => ?_
    waiting := fun q' x => ?_
    held := hheld
    unlisted := fun q' hq' x => ?_
    once := honce
    ready := fun hroot op e' he' => ?_ }
  · rcases hmem q' e' he' with he' | ⟨rfl, rfl⟩
    · exact h.queued q' e' he'
    · exact hat
  · rw [append_nil] at he'
    exact h.grouped e' (mem_append_left _ he')
  · have hwait := h.waiting q' x
    show countAt q' x (update k.queues q _ q') + k.taken _ = tick k.added _ _
    rw [tick_apply]
    by_cases hq : q' = q
    · subst hq
      rw [update_self, countAt_perm hperm, countAt_cons, hat.place]
      simp only [Prod.mk.injEq, true_and, eq_comm] at hwait ⊢
      omega
    · have hne : (some q', x) ≠ (some q, e.key) := fun heq =>
        hq (some.inj (Prod.mk.inj heq).1)
      rw [update_of_ne hq, if_neg hne]
      exact hwait
  · have hne : (some q', x) ≠ (some q, e.key) := by
      intro heq
      rw [some.inj (Prod.mk.inj heq).1] at hq'
      exact hq' hat.mem
    exact (tick_of_ne _ hne).trans (h.unlisted q' hq' x)
  · rcases hmem op.queue e' he' with he' | ⟨rfl, hop⟩
    · exact h.ready hroot op e' he'
    · exact hready hroot op hop.symm

/-- A finished stage is followed by the next one, or by the callback. -/
theorem Ok.finishOrProceed (h : k.Ok m r [e]) (hat : e.At (m.queueList r) q)
    (hevent : m.isSignalRoot r = false → ∀ op : NcclOp,
      next (m.queueList r) q = some op.queue → e.readyEvent = none) :
    ∃ k', k.finishOrProceed m r e = .ok k' ∧ k'.Ok m r [] ∧
      k'.toLedger = { k.toLedger with
        added := tick k.added (next (m.queueList r) q, e.key) } := by
  have hnodup := (m.ordered r).nodup
  have hmem := hat.mem
  -- the queue before the place that `e` goes to is `q` only
  have hplace : ∀ q' ∈ m.queueList r, ∀ x,
      (next (m.queueList r) q', x) = (next (m.queueList r) q, e.key) ↔ (q', x) = (q, e.key) := by
    intro q' hq' x
    rw [Prod.mk.injEq, Prod.mk.injEq]
    exact and_congr_left fun _ => ⟨Stages.next_inj hnodup hq' hmem, fun heq => heq ▸ rfl⟩
  have hheld : ∀ q' ∈ m.queueList r, ∀ x, k.heldAt [] q' x +
      tick k.added (next (m.queueList r) q, e.key) (next (m.queueList r) q', x) =
        k.taken (q', x) := by
    intro q' hq' x
    have hheld := h.held q' hq' x
    unfold heldAt at hheld ⊢
    rw [countAt_singleton hat] at hheld
    rw [tick_apply, countAt_nil]
    simp only [hplace q' hq' x]
    omega
  have honce : ∀ x, tick k.added (next (m.queueList r) q, e.key) ((m.queueList r).head?, x) ≤
      tick k.added (next (m.queueList r) q, e.key) (none, x) + 1 := by
    intro x
    have hne : ((m.queueList r).head?, x) ≠ (next (m.queueList r) q, e.key) := fun heq =>
      Stages.next_ne_head hnodup hmem (Prod.mk.inj heq).1.symm
    rw [tick_of_ne _ hne]
    exact (h.once x).trans (Nat.add_le_add_right (le_tick ..) 1)
  obtain ⟨rest, hlist, hsuffix⟩ := hat
  have hnext : next (m.queueList r) q = rest.head? := Stages.next_of_suffix hnodup hsuffix
  unfold Rank.finishOrProceed
  rw [hlist]
  cases rest with
  | nil =>
    rw [head?_nil] at hnext
    rw [hnext] at hheld honce ⊢
    have hadded (q' : QueueType) (x : Key) :
        tick k.added (none, e.key) (some q', x) = k.added (some q', x) :=
      tick_of_ne _ (by simp)
    exact ⟨_, rfl, { h with
      grouped := fun e' he' =>
        h.grouped e' (mem_append_left _ (append_nil k.ncclTasks ▸ he'))
      waiting := fun q' x => (h.waiting q' x).trans (hadded q' x).symm
      held := hheld
      unlisted := fun q' hq' x => (hadded q' x).trans (h.unlisted q' hq' x)
      once := honce }, rfl⟩
  | cons q' rest =>
    rw [head?_cons] at hnext
    rw [hnext] at hheld honce hevent ⊢
    refine ⟨_, rfl, ?_, rfl⟩
    have hat' : ({ e with queueList := q' :: rest } : TensorTableEntry).At (m.queueList r) q' :=
      ⟨rest, rfl, (suffix_cons q _).trans hsuffix⟩
    have hfinish : (k.reportFinish m r q e.len).Ok m r [e] := h.same rfl rfl rfl rfl rfl
    exact hfinish.enqueueTask hat' hheld honce
      fun hroot op hop => hevent hroot op (hop ▸ rfl)

/-- A new task waits in the first of its queues. -/
theorem Ok.enqueue {rest : List QueueType} (h : k.Ok m r []) (hlist : m.queueList r = q :: rest)
    (hentry : e.queueList = q :: rest)
    (hone : k.added ((m.queueList r).head?, e.key) = k.added (none, e.key)) :
    (k.addTask m r q e).Ok m r [] := by
  have hat : e.At (m.queueList r) q := ⟨rest, hentry, hlist ▸ suffix_refl _⟩
  have hhead : (m.queueList r).head? = some q := by rw [hlist, head?_cons]
  refine h.enqueueTask hat ?_ ?_ ?_
  · intro q' hq' x
    have hne : (next (m.queueList r) q', x) ≠ (some q, e.key) := fun heq =>
      Stages.next_ne_head (m.ordered r).nodup hq' ((Prod.mk.inj heq).1.trans hhead.symm)
    rw [tick_of_ne _ hne]
    exact h.held q' hq' x
  · intro x
    rw [tick_of_ne k.added (show (none, x) ≠ (some q, e.key) by simp), tick_apply, hhead]
    by_cases hx : x = e.key
    · subst hx
      rw [hhead] at hone
      rw [if_pos rfl, hone]
    · rw [if_neg fun heq => hx (Prod.mk.inj heq).2, ← hhead]
      exact h.once x
  · intro hroot op hop
    exact absurd (hop ▸ hhead) ((m.ordered r).head_ne op hroot)

/-- A task that is taken is ready and leaves its queue. -/
theorem Ok.getTask (h : k.Ok m r []) (hget : k.getTask m r q = some (e, k')) :
    k'.Ok m r [e] ∧ e.At (m.queueList r) q ∧ e.readyEvent = none ∧
      (∀ τ, m.readyTable r q = some τ → k.tables (τ, e.key) = m.readyCount τ) ∧
      ∃ sq credits, k' = { k with
        queues := update k.queues q sq
        credits := credits
        tables := m.clearReadyCount r q e.key k.tables
        taken := tick k.taken (q, e.key) } := by
  obtain ⟨⟨e', sq⟩, hfound, heq⟩ := Option.map_eq_some_iff.mp hget
  obtain ⟨rfl, rfl⟩ := Prod.mk.inj heq
  obtain ⟨e₀, hperm, rfl, hready⟩ := ScheduledQueue.getTask_spec hfound
  refine ⟨(h.dequeue hperm).same rfl rfl rfl rfl rfl,
    h.queued q e₀ (hperm.mem_iff.mpr mem_cons_self), rfl, ?_, _, _, rfl⟩
  intro τ hτ
  unfold isKeyReady at hready
  rw [hτ] at hready
  exact beq_iff_eq.mp hready

end Rank

end MegatronDPU.Worker
