import MegatronDPU.Worker.LocalRank

/-!
# What a step means for the other ranks

Every step that a rank takes on its own is a `LocalMove` of its ledger: it signals only what it has
done and not yet signalled, and the queue of a ready table gives a task only when the table is
full, which clears it. The lemmas `Rank.Ok.*` show this for each loop, together with the fact that
none of its checks fails.
-/

namespace MegatronDPU.Worker

open Function Machine Option
open List hiding next
open Server (Key)
open Stages (next)

/-! ## Signals -/

namespace BytePSCommSignal

def isReady : BytePSCommSignal → Bool
  | .reduceReady | .pcieReduceReady | .bcastReady | .pushReady => true
  | .doReduce | .doBroadcast | .doGroup | .doCopyH2D => false

def loop : BytePSCommSignal → QueueType
  | .reduceReady => .coordinateReduce
  | .pcieReduceReady => .pcieReduce
  | .bcastReady => .coordinateBroadcast
  | .pushReady => .coordinatePush
  | .doReduce | .doGroup => .reduce
  | .doBroadcast => .broadcast
  | .doCopyH2D => .copyH2D

theorem eq_signal_of_loop {sig : BytePSCommSignal} {op : Coordinate} (h : sig.loop = op.queue) :
    sig = op.signal := by
  cases op <;> cases sig <;> first
    | rfl
    | exact absurd h (by decide)

end BytePSCommSignal

namespace Ledger

variable (L : Ledger)

/-- What a rank has done that it signals: coordinate loops have passed a task on, the others have
taken one. -/
def base (x : Key) : BytePSCommSignal → ℕ
  | .reduceReady => L.added (some .reduce, x)
  | .bcastReady => L.added (some .broadcast, x)
  | .pushReady => L.added (some .copyH2D, x)
  | .pcieReduceReady => L.taken (.pcieReduce, x)
  | .doReduce => L.taken (.reduce, x)
  | .doBroadcast => L.taken (.broadcast, x)
  | .doCopyH2D => L.taken (.copyH2D, x)
  | .doGroup => 0

def owes (x : Key) (sig : BytePSCommSignal) : ℕ := if L.owed sig.loop = some x then 1 else 0

theorem base_signal (op : Coordinate) (x : Key) :
    L.base x op.signal = L.added (some op.target, x) := by
  cases op <;> rfl

theorem base_mono {L L' : Ledger} (hadded : ∀ o, L.added o ≤ L'.added o)
    (htaken : ∀ o, L.taken o ≤ L'.taken o) {x : Key} {sig : BytePSCommSignal} :
    L.base x sig ≤ L'.base x sig := by
  cases sig with
  | reduceReady | bcastReady | pushReady => exact hadded _
  | pcieReduceReady | doReduce | doBroadcast | doCopyH2D => exact htaken _
  | doGroup => exact le_rfl

def pending (m : Machine) (r : ℕ) (op : NcclOp) (x : Key) : ℕ :=
  if L.received = some ⟨m.root .nccl r, op.signal, x⟩ then 1 else 0

end Ledger

/-- A signal on a channel is sent by its sender, to the root of the communicator or from it. -/
structure Machine.Legit (m : Machine) (c : Comm) (src dst : ℕ) (msg : BytePSCommMsg) : Prop where
  src_eq : msg.src = src
  comm_eq : msg.signal.comm = c
  src_lt : src < m.localSize
  dst_lt : dst < m.localSize
  ne : src ≠ dst
  toRoot : msg.signal.isReady = true → m.root c src = dst
  fromRoot : msg.signal.isReady = false → m.root c dst = src
  cross : msg.signal = .pcieReduceReady → m.isCrossPcieSwitch = true

namespace Machine

variable {m : Machine} {r : ℕ} {sig : BytePSCommSignal} {x : Key}

theorem legit_sendSignalToRoot {c : Comm} {dst : ℕ} {msg : BytePSCommMsg} (hr : r < m.localSize)
    (hroot : m.root sig.comm r ≠ r) (hsig : sig.isReady = true)
    (hcross : sig = .pcieReduceReady → m.isCrossPcieSwitch = true)
    (hmsg : msg ∈ m.sendSignalToRoot r sig x c dst) : m.Legit c r dst msg := by
  unfold sendSignalToRoot sendSignal at hmsg
  split_ifs at hmsg with hdst
  · obtain ⟨rfl, hdst⟩ := hdst
    obtain rfl := List.mem_singleton.mp hdst
    obtain rfl := List.mem_singleton.mp hmsg
    exact ⟨rfl, rfl, hr, root_lt hr, hroot.symm, fun _ => rfl, fun h => absurd (h.symm.trans hsig)
      Bool.false_ne_true, hcross⟩
  · cases hmsg

theorem legit_broadcastSignal {c : Comm} {dst : ℕ} {msg : BytePSCommMsg} (hr : r < m.localSize)
    (hroot : m.root sig.comm r = r) (hsig : sig.isReady = false)
    (hmsg : msg ∈ m.broadcastSignal r sig x c dst) : m.Legit c r dst msg := by
  unfold broadcastSignal sendSignal at hmsg
  split_ifs at hmsg with hdst
  · obtain ⟨rfl, hdst⟩ := hdst
    obtain ⟨hmember, hne⟩ := List.mem_filter.mp hdst
    obtain ⟨hlt, hsame⟩ := (mem_members hr).mp hmember
    obtain rfl := List.mem_singleton.mp hmsg
    refine ⟨rfl, rfl, hr, hlt, Ne.symm (of_decide_eq_true hne), ?_, fun _ => hsame.trans hroot, ?_⟩
    · intro h
      exact absurd (hsig.symm.trans h) Bool.false_ne_true
    · rintro rfl
      cases hsig
  · cases hmsg

end Machine

/-! ## Moves -/

structure LocalMove (m : Machine) (r : ℕ) (L L' : Ledger) (sends : Sends) : Prop where
  heard : L'.heard = L.heard
  pays : ∀ sig ≠ .doGroup, ∀ dst x, (sends sig.comm dst).count ⟨r, sig, x⟩ + L'.owes x sig +
    L.base x sig ≤ L'.base x sig + L.owes x sig
  gates : ∀ τ, m.hasTable r τ = true → ∀ x,
    L'.taken (τ.queue, x) = L.taken (τ.queue, x) ∧ L'.tables (τ, x) = L.tables (τ, x) ∨
    L.tables (τ, x) = m.readyCount τ ∧ L'.taken (τ.queue, x) = L.taken (τ.queue, x) + 1 ∧
      L'.tables (τ, x) = 0
  follows : m.isSignalRoot r = false → ∀ (op : NcclOp) x,
    L'.taken (op.queue, x) + L'.pending m r op x ≤ L.taken (op.queue, x) + L.pending m r op x
  received : L'.received = L.received ∨ L'.received = none
  legit : ∀ c dst, ∀ msg ∈ sends c dst, m.Legit c r dst msg

namespace LocalMove

variable {m : Machine} {r : ℕ} {L L' : Ledger} {q : QueueType} {x : Key}

theorem of_added (h : ∀ o, L.added o ≤ L'.added o) (htaken : L'.taken = L.taken)
    (hheard : L'.heard = L.heard) (htables : L'.tables = L.tables) (howed : L'.owed = L.owed)
    (hreceived : L'.received = L.received) : LocalMove m r L L' noSends where
  heard := hheard
  pays sig hsig dst x := by
    have hbase : L.base x sig ≤ L'.base x sig :=
      Ledger.base_mono h fun o => (congrFun htaken o).ge
    have howes : L'.owes x sig = L.owes x sig := by
      unfold Ledger.owes
      rw [howed]
    rw [howes, show (noSends sig.comm dst).count ⟨r, sig, x⟩ = 0 from rfl]
    omega
  gates τ _ x := .inl ⟨by rw [htaken], by rw [htables]⟩
  follows _ op x := by
    unfold Ledger.pending
    rw [htaken, hreceived]
  received := .inl hreceived
  legit _ _ _ hmsg := nomatch hmsg

theorem refl (m : Machine) (r : ℕ) (L : Ledger) : LocalMove m r L L noSends :=
  of_added (fun _ => le_rfl) rfl rfl rfl rfl rfl

theorem count_sendSignal {msg msg' : BytePSCommMsg} (h : msg' ≠ msg) (c c' : Comm)
    (dsts : List ℕ) (dst : ℕ) : (sendSignal c dsts msg c' dst).count msg' = 0 := by
  refine List.count_eq_zero.mpr fun hmem => ?_
  unfold sendSignal at hmem
  split_ifs at hmem
  · exact h (List.mem_singleton.mp hmem)
  · cases hmem

theorem group (hr : r < m.localSize) (hroot : m.isSignalRoot r = true) (L : Ledger) :
    LocalMove m r L L (m.broadcastSignal r .doGroup x) where
  __ := refl m r L
  pays sig hsig dst y := by
    have hne : (⟨r, sig, y⟩ : BytePSCommMsg) ≠ ⟨r, .doGroup, x⟩ := fun heq =>
      hsig (BytePSCommMsg.mk.inj heq).2.1
    rw [broadcastSignal, count_sendSignal hne]
    omega
  legit _ _ _ hmsg := by
    have hself : m.root (BytePSCommSignal.comm .doGroup) r = r :=
      root_of_isSignalRoot hr hroot
    exact legit_broadcastSignal hr hself rfl hmsg

theorem pass (m : Machine) (r : ℕ) (L : Ledger) (op : Coordinate) (x : Key) :
    LocalMove m r L { L with
      added := tick L.added (some op.target, x)
      owed := update L.owed op.queue (some x) } noSends where
  __ := refl m r L
  pays sig hsig dst y := by
    show 0 + (if update L.owed op.queue (some x) sig.loop = some y then 1 else 0) +
      L.base y sig ≤ _
    by_cases hloop : sig.loop = op.queue
    · obtain rfl := BytePSCommSignal.eq_signal_of_loop hloop
      rw [Ledger.base_signal, Ledger.base_signal, hloop, update_self]
      show _ ≤ tick L.added (some op.target, x) (some op.target, y) + _
      rw [tick_apply]
      simp only [Option.some.injEq, Prod.mk.injEq, true_and, eq_comm]
      omega
    · have hbase : L.base y sig ≤ Ledger.base { L with
          added := tick L.added (some op.target, x)
          owed := update L.owed op.queue (some x) } y sig := by
        apply Ledger.base_mono
        exacts [fun _ => le_tick .., fun _ => le_rfl]
      rw [update_of_ne hloop]
      unfold Ledger.owes
      omega

theorem skip (m : Machine) (r : ℕ) (L : Ledger) (q : QueueType) :
    LocalMove m r L { L with owed := update L.owed q none } noSends where
  __ := refl m r L
  pays sig _ dst y := by
    show 0 + (if update L.owed q none sig.loop = some y then 1 else 0) + L.base y sig ≤
      L.base y sig + if L.owed sig.loop = some y then 1 else 0
    by_cases hloop : sig.loop = q
    · rw [hloop, update_self, if_neg (show ¬(none : Option Key) = some y by simp)]
      omega
    · rw [update_of_ne hloop]
      omega

theorem send {sig : BytePSCommSignal} {dsts : List ℕ} (howed : L.owed sig.loop = some x)
    (hlegit : ∀ c dst, ∀ msg ∈ sendSignal sig.comm dsts ⟨r, sig, x⟩ c dst, m.Legit c r dst msg) :
    LocalMove m r L { L with owed := update L.owed sig.loop none }
      (sendSignal sig.comm dsts ⟨r, sig, x⟩) where
  __ := skip m r L sig.loop
  pays sig' hsig' dst y := by
    by_cases hmsg : (⟨r, sig', y⟩ : BytePSCommMsg) = ⟨r, sig, x⟩
    · obtain ⟨-, rfl, rfl⟩ := BytePSCommMsg.mk.inj hmsg
      have hcount : (sendSignal sig'.comm dsts ⟨r, sig', y⟩ sig'.comm dst).count ⟨r, sig', y⟩ ≤ 1 := by
        unfold sendSignal
        split_ifs
        · exact count_singleton_self.le
        · exact Nat.zero_le _
      show _ + (if update L.owed sig'.loop none sig'.loop = some y then 1 else 0) +
        L.base y sig' ≤ L.base y sig' + if L.owed sig'.loop = some y then 1 else 0
      rw [update_self, if_neg (show ¬(none : Option Key) = some y by simp), howed, if_pos rfl]
      omega
    · rw [count_sendSignal hmsg]
      exact (skip m r L sig.loop).pays sig' hsig' dst y
  legit := hlegit

theorem clearReadyCount_apply {τ : Table} {tables : Table × Key → ℕ} (hq : q ≠ .compress)
    (hτ : m.hasTable r τ = true) (y : Key) :
    m.clearReadyCount r q x tables (τ, y) =
      if (τ.queue, y) = (q, x) then 0 else tables (τ, y) := by
  unfold clearReadyCount
  by_cases hqueue : τ.queue = q
  · subst hqueue
    rw [readyTable_queue hτ]
    dsimp only
    by_cases hy : y = x
    · rw [hy, update_self, if_pos rfl]
    · rw [update_of_ne fun heq => hy (Prod.mk.inj heq).2,
        if_neg fun heq => hy (Prod.mk.inj heq).2]
  · rw [if_neg fun heq => hqueue (Prod.mk.inj heq).1]
    cases hready : m.readyTable r q with
    | none => rfl
    | some τ' =>
      refine update_of_ne ?_ ..
      rintro heq
      obtain ⟨rfl, -⟩ := Prod.mk.inj heq
      exact hqueue (readyTable_eq_some hq hready).2

/-- A task is taken from a queue whose table, if it has one, is full. Loops that signal before they
pass a task on owe their signal from now on. -/
theorem take {owes : Bool} (hq : q ≠ .compress)
    (hnccl : m.isSignalRoot r = false → ∀ op : NcclOp, op.queue ≠ q)
    (hready : ∀ τ, m.readyTable r q = some τ → L.tables (τ, x) = m.readyCount τ)
    (howes : owes = true → ∀ op : Coordinate, op.queue ≠ q) :
    LocalMove m r L { L with
      taken := tick L.taken (q, x)
      tables := m.clearReadyCount r q x L.tables
      owed := if owes then update L.owed q (some x) else L.owed } noSends where
  heard := rfl
  pays sig hsig dst y := by
    show 0 + (if (if owes then update L.owed q (some x) else L.owed) sig.loop = some y
      then 1 else 0) + L.base y sig ≤ _ + if L.owed sig.loop = some y then 1 else 0
    by_cases hcoordinate : ∃ op : Coordinate, sig = op.signal
    · -- what coordinate loops signal does not depend on what is taken
      obtain ⟨op, rfl⟩ := hcoordinate
      have howed : (if owes then update L.owed q (some x) else L.owed) op.signal.loop =
          L.owed op.signal.loop := by
        split_ifs with h
        · have hloop : op.signal.loop = op.queue := by cases op <;> rfl
          rw [hloop, update_of_ne (howes h op)]
        · rfl
      rw [howed, Ledger.base_signal, Ledger.base_signal]
      show 0 + _ + L.added _ ≤ L.added _ + _
      omega
    · have hbase : ∀ L : Ledger, L.base y sig = L.taken (sig.loop, y) := by
        intro L
        cases sig with
        | reduceReady => exact absurd ⟨.reduce, rfl⟩ hcoordinate
        | bcastReady => exact absurd ⟨.broadcast, rfl⟩ hcoordinate
        | pushReady => exact absurd ⟨.push, rfl⟩ hcoordinate
        | doGroup => exact absurd rfl hsig
        | pcieReduceReady | doReduce | doBroadcast | doCopyH2D => rfl
      have howed : (if (if owes then update L.owed q (some x) else L.owed) sig.loop = some y
          then 1 else 0) ≤ (if (sig.loop, y) = (q, x) then 1 else 0) +
            if L.owed sig.loop = some y then 1 else 0 := by
        by_cases hq : owes = true ∧ sig.loop = q
        · rw [if_pos hq.1, hq.2, update_self]
          simp only [Option.some.injEq, Prod.mk.injEq, true_and, eq_comm]
          omega
        · have hsame : (if owes then update L.owed q (some x) else L.owed) sig.loop =
              L.owed sig.loop := by
            split_ifs with h
            · exact update_of_ne (fun hloop => hq ⟨h, hloop⟩) ..
            · rfl
          rw [hsame]
          exact Nat.le_add_left _ _
      rw [hbase, hbase]
      show _ ≤ tick L.taken (q, x) (sig.loop, y) + _
      rw [tick_apply]
      omega
  gates τ hτ y := by
    show tick L.taken (q, x) (τ.queue, y) = _ ∧ m.clearReadyCount r q x L.tables (τ, y) = _ ∨
      _ ∧ tick L.taken (q, x) (τ.queue, y) = _ ∧ m.clearReadyCount r q x L.tables (τ, y) = 0
    rw [clearReadyCount_apply hq hτ, tick_apply]
    by_cases hplace : (τ.queue, y) = (q, x)
    · refine .inr ⟨?_, by rw [if_pos hplace], if_pos hplace⟩
      obtain ⟨rfl, rfl⟩ := Prod.mk.inj hplace
      exact hready τ (readyTable_queue hτ)
    · refine .inl ⟨?_, if_neg hplace⟩
      rw [if_neg hplace, add_zero]
  follows hroot op y := by
    show tick L.taken (q, x) (op.queue, y) + _ ≤ _
    rw [tick_of_ne _ fun heq => hnccl hroot op (Prod.mk.inj heq).1]
    exact le_rfl
  received := .inl rfl
  legit _ _ _ hmsg := nomatch hmsg

theorem getTaskOf (op : NcclOp) (hroot : m.isSignalRoot r = false)
    (hreceived : L.received = some ⟨m.root .nccl r, op.signal, x⟩) :
    LocalMove m r L { L with taken := tick L.taken (op.queue, x), received := none }
      noSends where
  heard := rfl
  pays sig _ dst y := by
    have hbase : L.base y sig ≤ Ledger.base
        { L with taken := tick L.taken (op.queue, x), received := none } y sig := by
      apply Ledger.base_mono
      exacts [fun _ => le_rfl, fun _ => le_tick ..]
    show 0 + L.owes y sig + _ ≤ _ + L.owes y sig
    omega
  gates τ hτ y := by
    -- the tables of the NCCL queues belong to roots
    have hqueue : τ.queue ≠ op.queue := by
      rintro heq
      cases τ <;> cases op <;> first
        | exact absurd (hroot.symm.trans hτ) Bool.false_ne_true
        | exact absurd heq (by decide)
    exact .inl ⟨tick_of_ne _ fun heq => hqueue (Prod.mk.inj heq).1, rfl⟩
  follows _ op' y := by
    show tick L.taken (op.queue, x) (op'.queue, y) + (if none = some _ then 1 else 0) ≤ _
    rw [if_neg (by simp), tick_apply, add_zero]
    refine Nat.add_le_add_left ?_ _
    split_ifs with heq
    · have hop : op' = op := by
        cases op <;> cases op' <;> first
          | rfl
          | cases (Prod.mk.inj heq).1
      unfold Ledger.pending
      rw [hop, (Prod.mk.inj heq).2, hreceived, if_pos rfl]
    · exact Nat.zero_le _
  received := .inr rfl
  legit _ _ _ hmsg := nomatch hmsg

end LocalMove

/-! ## Loops -/

namespace Rank

variable {m : LocalConfig} {r : ℕ} {k : Rank} {q : QueueType} {e : TensorTableEntry}

/-- No check fails, the tasks stay accounted for, and other ranks see a move. -/
def Steps (m : LocalConfig) (r : ℕ) (k : Rank) (out : Outcome) : Prop :=
  ∀ res, out = some res → ∃ k' sends, res = .ok (k', sends) ∧ k'.Ok m r [] ∧
    LocalMove m.toMachine r k.toLedger k'.toLedger sends

theorem steps_quiet {k' : Rank} (hok : k'.Ok m r [])
    (hmove : LocalMove m.toMachine r k.toLedger k'.toLedger noSends) : k.Steps m r k'.quiet := by
  intro res hres
  exact ⟨k', noSends, (some.inj hres).symm, hok, hmove⟩

section

variable (h : k.Ok m r [])
include h

theorem Ok.getTask_hold {k₁ : Rank} (hget : k.getTask m r q = some (e, k₁)) :
    Rank.Ok m r { k₁ with tasks := update k₁.tasks q (k.tasks q ++ [e]) } [] := by
  obtain ⟨hok, hat, hevent, -, sq, credits, rfl⟩ := h.getTask hget
  refine hok.setTasks rfl rfl rfl rfl rfl ?_ (forall_mem_singleton.mpr hat) ?_ ?_
  · rw [append_nil]
    exact forall_mem_append.mpr ⟨h.working q, forall_mem_singleton.mpr hat⟩
  · intro x
    rw [countAt_append, countAt_nil, add_zero]
  · rintro op rfl
    exact forall_mem_append.mpr ⟨h.coordinated op, forall_mem_singleton.mpr hevent⟩

/-- A loop that takes a task keeps its rank in order. -/
theorem Ok.take {owes : Bool} (htasks : k.tasks q = []) (hq : q ≠ .compress)
    (hnccl : ∀ op : NcclOp, op.queue ≠ q) (howes : owes = true → ∀ op : Coordinate, op.queue ≠ q) :
    k.Steps m r (k.take m r q owes) := by
  intro res hres
  obtain ⟨⟨e, k₁⟩, hget, rfl⟩ := Option.map_eq_some_iff.mp hres
  have hok := h.getTask_hold hget
  obtain ⟨-, -, -, hready, sq, credits, rfl⟩ := h.getTask hget
  rw [htasks] at hok
  exact ⟨_, _, rfl, hok.same rfl rfl rfl rfl rfl,
    LocalMove.take hq (fun _ => hnccl) hready howes⟩

theorem Ok.transfer (hq : q ≠ .compress) (hnccl : ∀ op : NcclOp, op.queue ≠ q) :
    k.Steps m r (k.transfer m r q) := by
  intro res hres
  obtain ⟨⟨e, k₁⟩, hget, rfl⟩ := Option.map_eq_some_iff.mp hres
  have hok := h.getTask_hold hget
  obtain ⟨-, -, -, hready, sq, credits, rfl⟩ := h.getTask hget
  have hmove : LocalMove m.toMachine r k.toLedger _ noSends :=
    LocalMove.take hq (fun _ => hnccl) hready (fun howes => absurd howes Bool.false_ne_true)
  exact ⟨_, _, rfl, hok, hmove⟩

section

variable {e₀ : TensorTableEntry} {rest : List TensorTableEntry}
  (hperm : (k.tasks q).Perm (e₀ :: rest)) (hlist : e.queueList = e₀.queueList)
  (hkey : e.key = e₀.key)
include hperm hlist hkey

/-- `FinishOrProceed` adds the task to its next queue. -/
theorem Ok.proceed
    (hevent : m.isSignalRoot r = false → ∀ op : NcclOp,
      next (m.queueList r) q = some op.queue → e.readyEvent = none) :
    ∃ k', k.proceed m r q e rest = some (.ok (k', noSends)) ∧ k'.Ok m r [] ∧
      k'.toLedger = { k.toLedger with
        added := tick k.added (next (m.queueList r) q, e.key) } := by
  have hmem : ∀ e' ∈ e₀ :: rest, e' ∈ k.tasks q := fun e' he' => hperm.mem_iff.mpr he'
  have hat : e.At (m.queueList r) q := by
    obtain ⟨l, hl, hsuffix⟩ := h.working q e₀ (hmem e₀ mem_cons_self)
    exact ⟨l, hlist.trans hl, hsuffix⟩
  have hplace : e.place = e₀.place := by
    unfold TensorTableEntry.place
    rw [hlist, hkey]
  have hok : Rank.Ok m r { k with tasks := update k.tasks q rest } [e] := by
    refine h.setTasks rfl rfl rfl rfl rfl ?_ (fun _ he' => nomatch he') ?_ ?_
    · exact forall_mem_append.mpr ⟨fun e' he' => h.working q e' (hmem e' (mem_cons_of_mem _ he')),
        forall_mem_singleton.mpr hat⟩
    · intro x
      rw [countAt_perm hperm, countAt_cons, countAt_cons, countAt_nil, hplace]
      omega
    · rintro op rfl e' he'
      exact h.coordinated op e' (hmem e' (mem_cons_of_mem _ he'))
  obtain ⟨k', hfinish, hok', hledger⟩ := hok.finishOrProceed hat hevent
  refine ⟨k', ?_, hok', hledger⟩
  unfold Rank.proceed
  rw [hfinish]
  rfl

theorem Ok.steps_proceed (hq : ∀ op : Coordinate, op.queue ≠ q) :
    k.Steps m r (k.proceed m r q e rest) := by
  intro res hres
  obtain ⟨k', hproceed, hok, hledger⟩ := h.proceed hperm hlist hkey fun hroot op hnext =>
    absurd ((m.ordered r).eq_coordinate op q hroot hnext).symm (hq op.coordinate)
  rw [hproceed] at hres
  refine ⟨k', noSends, (some.inj hres).symm, hok, ?_⟩
  rw [hledger]
  exact LocalMove.of_added (fun o => le_tick ..) rfl rfl rfl rfl rfl

end

theorem Ok.coordinate {op : Coordinate} (hr : r < m.localSize) (hloop : op.queue ∈ m.loops r) :
    k.Steps m r (k.coordinate m r op) := by
  have hroot := root_ne_of_loop hr hloop
  have hqueue : op.queue = op.signal.loop := by cases op <;> rfl
  intro res hres
  unfold Rank.coordinate at hres
  cases htasks : k.tasks op.queue with
  | cons e rest =>
    rw [htasks] at hres
    have hperm : (k.tasks op.queue).Perm (e :: rest) := .of_eq htasks
    have hmem : e ∈ k.tasks op.queue := hperm.mem_iff.mpr mem_cons_self
    have hok : Rank.Ok m r { k with owed := update k.owed op.queue (some e.key) } [] :=
      h.same rfl rfl rfl rfl rfl
    obtain ⟨k', hproceed, hok', hledger⟩ := hok.proceed hperm rfl rfl
      fun _ _ _ => h.coordinated op e hmem
    dsimp only at hres
    rw [hproceed] at hres
    refine ⟨k', noSends, (some.inj hres).symm, hok', ?_⟩
    rw [hledger, (m.ordered r).next_coordinate op (h.working op.queue e hmem).mem]
    exact LocalMove.pass m.toMachine r k.toLedger op e.key
  | nil =>
    rw [htasks] at hres
    cases howed : k.owed op.queue with
    | some key =>
      rw [howed] at hres
      dsimp only at hres
      rw [if_neg fun heq => hroot heq.symm] at hres
      refine ⟨_, _, (some.inj hres).symm, h.same rfl rfl rfl rfl rfl, ?_⟩
      have hready : op.signal.isReady = true := by cases op <;> rfl
      have hne : op.signal ≠ .pcieReduceReady := by cases op <;> decide
      rw [hqueue] at howed ⊢
      exact LocalMove.send howed fun c dst msg hmsg =>
        legit_sendSignalToRoot hr hroot hready (fun heq => absurd heq hne) hmsg
    | none =>
      rw [howed] at hres
      refine h.take htasks ?_ ?_ (fun howes => absurd howes Bool.false_ne_true) res hres
      · cases op <;> decide
      · cases op <;> decide

end

theorem queueList_recordEvent (record : Bool) (e : TensorTableEntry) :
    (recordEvent record e).queueList = e.queueList ∧ (recordEvent record e).key = e.key := by
  unfold recordEvent
  split_ifs <;> exact ⟨rfl, rfl⟩

section

variable (h : k.Ok m r [])
include h

theorem Ok.copyD2H {record : Bool} : k.Steps m r (k.copyD2H m r record) := by
  unfold Rank.copyD2H
  cases htasks : k.tasks .copyD2H with
  | cons e rest =>
    obtain ⟨hlist, hkey⟩ := queueList_recordEvent record e
    exact h.steps_proceed (.of_eq htasks) hlist hkey (by decide)
  | nil => exact h.take htasks (by decide) (by decide) (by decide)

theorem Ok.pcieReduce (hr : r < m.localSize) (hloop : .pcieReduce ∈ m.loops r) :
    k.Steps m r (k.pcieReduce m r) := by
  unfold Rank.pcieReduce
  cases htasks : k.tasks .pcieReduce with
  | cons e rest =>
    cases howed : k.owed .pcieReduce with
    | some key =>
      intro res hres
      refine ⟨_, _, (some.inj hres).symm, h.same rfl rfl rfl rfl rfl, ?_⟩
      split_ifs with hroot
      · exact LocalMove.skip m.toMachine r k.toLedger .pcieReduce
      · have howed' : k.owed (BytePSCommSignal.loop .pcieReduceReady) = some key := howed
        have hroot' : m.root (BytePSCommSignal.comm .pcieReduceReady) r ≠ r := hroot
        exact LocalMove.send howed' fun c dst msg hmsg =>
          legit_sendSignalToRoot hr hroot' rfl
            (fun _ => (m.ordered r).pcieReduce_loop hloop) hmsg
    | none =>
      exact h.steps_proceed (.of_eq htasks) rfl rfl (by decide)
  | nil => exact h.take htasks (by decide) (by decide) (by decide)

theorem Ok.copyH2D {record : Bool} (hr : r < m.localSize) : k.Steps m r (k.copyH2D m r record) := by
  unfold Rank.copyH2D
  cases htasks : k.tasks .copyH2D with
  | cons e rest =>
    cases howed : k.owed .copyH2D with
    | some key =>
      intro res hres
      refine ⟨_, _, (some.inj hres).symm, h.same rfl rfl rfl rfl rfl, ?_⟩
      split_ifs with hroot
      · have howed' : k.owed (BytePSCommSignal.loop .doCopyH2D) = some key := howed
        have hself : m.root (BytePSCommSignal.comm .doCopyH2D) r = r :=
          (isRootDevice_iff hr).mp hroot.1
        exact LocalMove.send howed' fun c dst msg hmsg =>
          legit_broadcastSignal hr hself rfl hmsg
      · exact LocalMove.skip m.toMachine r k.toLedger .copyH2D
    | none =>
      obtain ⟨hlist, hkey⟩ := queueList_recordEvent record e
      exact h.steps_proceed (.of_eq htasks) hlist hkey (by decide)
  | nil => exact h.take htasks (by decide) (by decide) (by decide)

theorem Ok.answered {i : ℕ} (hq : ∀ op : Coordinate, op.queue ≠ q) :
    k.Steps m r (k.answered m r q i) := by
  intro res hres
  obtain ⟨e, he, hres⟩ := Option.bind_eq_some_iff.mp hres
  obtain ⟨hlt, rfl⟩ := List.getElem?_eq_some_iff.mp he
  exact h.steps_proceed (getElem_cons_eraseIdx_perm hlt).symm rfl rfl hq res hres

/-! ## Enqueueing and events -/

theorem Ok.enqueueTensor {op : Operation} {key : Key} {len : ℕ} {priority : ℤ}
    {readyEvent : Option Bool}
    (hone : k.added ((m.queueList r).head?, key) = k.added (none, key)) :
    k.Steps m r (k.enqueue m r op key len priority readyEvent) := by
  unfold Rank.enqueue
  cases hlist : m.queueList r with
  | nil => exact steps_quiet h (LocalMove.refl ..)
  | cons q rest =>
    refine steps_quiet (h.enqueue hlist rfl hone) ?_
    exact LocalMove.of_added (fun o => le_tick ..) rfl rfl rfl rfl rfl

end

theorem countAt_set {l : List TensorTableEntry} {i : ℕ} {e' : TensorTableEntry} {x : Key}
    (h : l[i]? = some e) (hplace : e'.place = e.place) :
    countAt q x (l.set i e') = countAt q x l := by
  induction l generalizing i with
  | nil => cases h
  | cons a l ih =>
    cases i with
    | zero =>
      obtain rfl : a = e := some.inj h
      rw [set_cons_zero, countAt_cons, countAt_cons, hplace]
    | succ i => rw [set_cons_succ, countAt_cons, countAt_cons, ih h]

theorem Ok.reachEvent {i : ℕ} (h : k.Ok m r []) : k.Steps m r (k.reachEvent q i) := by
  intro res hres
  obtain ⟨e, he, hres⟩ := Option.bind_eq_some_iff.mp hres
  split_ifs at hres with hevent
  have hmem : e ∈ k.queues q := mem_of_getElem? he
  refine ⟨_, _, (some.inj hres).symm, ?_, LocalMove.refl ..⟩
  have hqueue : ∀ q', ∀ e' ∈ update k.queues q
      ((k.queues q).set i { e with readyEvent := some true }) q', e' ∈ k.queues q' ∨
        (q' = q ∧ e' = { e with readyEvent := some true }) :=
    (forall_update_iff _ fun q' l => ∀ e' ∈ l, e' ∈ k.queues q' ∨ (q' = q ∧ e' = _)).mpr
      ⟨fun _ he' => (mem_or_eq_of_mem_set he').imp id fun heq => ⟨rfl, heq⟩, fun _ _ _ => .inl⟩
  refine { h with
    queued := fun q' e' he' => ?_
    waiting := fun q' x => ?_
    ready := fun hroot op e' he' => ?_ }
  · rcases hqueue q' e' he' with he' | ⟨rfl, rfl⟩
    · exact h.queued q' e' he'
    · exact h.queued q' e hmem
  · rw [← h.waiting q' x]
    congr 1
    by_cases hq : q' = q
    · subst hq
      have hplace : TensorTableEntry.place { e with readyEvent := some true } = e.place := rfl
      dsimp only
      rw [update_self, countAt_set he hplace]
    · dsimp only
      rw [update_of_ne hq]
  · rcases hqueue op.queue e' he' with he' | ⟨rfl, -⟩
    · exact h.ready hroot op e' he'
    · -- the NCCL queues of a rank that is not the root hold no events
      rw [h.ready hroot op e hmem] at hevent
      cases hevent

/-! ## NCCL -/

theorem ncclTasks_enqueueGroup (k : Rank) : k.enqueueGroup.ncclTasks.Perm k.ncclTasks := by
  unfold ncclTasks enqueueGroup
  rw [flatten_append, flatten_singleton, nil_append]
  exact List.perm_append_comm.append_right _

theorem Ok.enqueueGroup (h : k.Ok m r []) : k.enqueueGroup.Ok m r [] := by
  have hperm := ncclTasks_enqueueGroup k
  exact h.setNccl rfl rfl rfl rfl (hperm.append_right _)
    fun e he => h.cleared e (hperm.subset he)

theorem Ok.append (h : k.Ok m r [e]) (hevent : e.readyEvent = none) :
    Rank.Ok m r { k with group := k.group ++ [e] } [] := by
  have hperm : (Rank.ncclTasks { k with group := k.group ++ [e] } ++ []).Perm
      (k.ncclTasks ++ [e]) := by
    unfold ncclTasks
    rw [append_nil, append_assoc, append_assoc, append_assoc, append_assoc]
    refine List.Perm.append_left _ ?_
    rw [← append_assoc k.pipeline.flatten]
    exact perm_append_comm
  refine h.setNccl rfl rfl rfl rfl hperm fun e' he' => ?_
  exact forall_mem_append.mpr ⟨h.cleared, forall_mem_singleton.mpr hevent⟩ e'
    (hperm.subset (mem_append_left _ he'))

theorem Ok.rootNccl (h : k.Ok m r []) (hr : r < m.localSize) (hroot : m.isSignalRoot r = true) :
    k.Steps m r (k.rootNccl m r) := by
  unfold Rank.rootNccl
  cases hpc : k.pc with
  | close =>
    dsimp only
    split_ifs
    · exact steps_quiet (h.same rfl rfl rfl rfl rfl) (LocalMove.refl ..)
    · intro res hres
      exact ⟨_, _, (some.inj hres).symm, h.enqueueGroup.same rfl rfl rfl rfl rfl,
        LocalMove.group hr hroot k.toLedger⟩
  | get op i =>
    dsimp only
    cases howed : k.owed op.queue with
    | some key =>
      intro res hres
      obtain ⟨e, -, rfl⟩ := Option.map_eq_some_iff.mp hres
      rw [postNcclCalls_eq_ok]
      refine ⟨_, _, rfl, h.same rfl rfl rfl rfl rfl, ?_⟩
      have hqueue : op.queue = op.signal.loop := by cases op <;> rfl
      have hself : m.root op.signal.comm r = r := by
        cases op <;> exact root_of_isSignalRoot hr hroot
      have hready : op.signal.isReady = false := by cases op <;> rfl
      rw [hqueue] at howed ⊢
      exact LocalMove.send howed fun c dst msg hmsg =>
        legit_broadcastSignal hr hself hready hmsg
    | none =>
      by_cases hi : i < m.ncclGroupSize
      · rw [if_pos hi]
        cases hget : k.getTask m r op.queue with
        | none => exact steps_quiet (h.same rfl rfl rfl rfl rfl) (LocalMove.refl ..)
        | some found =>
          obtain ⟨e, k₁⟩ := found
          obtain ⟨hok, -, hevent, hready, sq, credits, rfl⟩ := h.getTask hget
          have hmove (owes : Bool) :=
            @LocalMove.take m.toMachine r k.toLedger op.queue e.key owes (by cases op <;> decide)
              (fun hfalse => absurd (hroot.symm.trans hfalse) (by decide)) hready
              fun _ op' => by cases op <;> cases op' <;> decide
          split_ifs
          · exact steps_quiet ((hok.append hevent).same rfl rfl rfl rfl rfl) (hmove true)
          · exact steps_quiet ((hok.append hevent).same rfl rfl rfl rfl rfl) (hmove false)
      · rw [if_neg hi]
        exact steps_quiet (h.same rfl rfl rfl rfl rfl) (LocalMove.refl ..)

theorem Ok.nonRootNccl (h : k.Ok m r []) (hroot : m.isSignalRoot r = false)
    (hreceived : ∀ msg, k.received = some msg → ∃ (op : NcclOp) (x : Key),
      msg = ⟨m.root .nccl r, op.signal, x⟩ ∧ ∃ e ∈ k.queues op.queue, e.key = x) :
    k.Steps m r (k.nonRootNccl m r) := by
  intro res hres
  obtain ⟨msg, hmsg, hres⟩ := Option.bind_eq_some_iff.mp hres
  obtain ⟨op, x, rfl, htask⟩ := hreceived msg hmsg
  have hop : op.signal.ncclOp = some op := by cases op <;> rfl
  have hscheduled : m.isScheduled r op.queue = false := by
    unfold LocalConfig.isScheduled
    rw [hroot, Bool.and_false, Bool.false_and]
  have hready : ∀ e ∈ k.queues op.queue, e.readyEvent ≠ some false := by
    intro e he
    rw [h.ready hroot op e he]
    exact (some_ne_none false).symm
  obtain ⟨e₀, sq, hget, hperm, rfl⟩ := ScheduledQueue.getTaskOf_spec hready htask
  obtain ⟨op', hop', rfl⟩ := Option.map_eq_some_iff.mp hres
  obtain rfl : op = op' := some.inj (hop.symm.trans hop')
  have hfound : k.getTaskOf m r op.queue e₀.key = .ok (some ({ e₀ with readyEvent := none },
      { k with
        queues := update k.queues op.queue sq
        taken := tick k.taken (op.queue, e₀.key) })) := by
    unfold Rank.getTaskOf
    rw [hscheduled, hget]
    rfl
  rw [hfound]
  dsimp only
  rw [postNcclCalls_eq_ok]
  have hok := (h.dequeue hperm).append rfl
  exact ⟨_, _, rfl, hok.same rfl rfl rfl rfl rfl, LocalMove.getTaskOf op hroot hmsg⟩

theorem Ok.syncNccl (h : k.Ok m r []) : k.Steps m r (k.syncNccl m r) := by
  unfold Rank.syncNccl
  cases hsyncing : k.syncing with
  | cons e rest =>
    intro res hres
    have hmem : e ∈ k.ncclTasks := by
      unfold ncclTasks
      rw [hsyncing]
      exact mem_append_right _ mem_cons_self
    have hperm : (Rank.ncclTasks { k with syncing := rest } ++ [e]).Perm (k.ncclTasks ++ []) := by
      unfold ncclTasks
      rw [hsyncing, append_nil, append_assoc]
      exact List.Perm.append_left _ (perm_append_comm)
    have hok : Rank.Ok m r { k with syncing := rest } [e] := by
      refine h.setNccl rfl rfl rfl rfl hperm fun e' he' => h.cleared e' ?_
      have he' := hperm.subset (mem_append_left _ he')
      rwa [append_nil] at he'
    obtain ⟨q, hat⟩ := h.grouped e (mem_append_left _ hmem)
    obtain ⟨k', hfinish, hok', hledger⟩ := hok.finishOrProceed hat fun _ _ _ => h.cleared e hmem
    dsimp only at hres
    rw [hfinish] at hres
    refine ⟨k', noSends, (some.inj hres).symm, hok', ?_⟩
    rw [hledger]
    exact LocalMove.of_added (fun o => le_tick ..) rfl rfl rfl rfl rfl
  | nil =>
    cases hpipeline : k.pipeline with
    | nil => exact fun res hres => nomatch hres
    | cons group pipeline =>
      have hperm : (Rank.ncclTasks { k with syncing := group, pipeline := pipeline }).Perm
          k.ncclTasks := by
        unfold ncclTasks
        rw [hsyncing, hpipeline, append_nil, flatten_cons, append_assoc]
        exact List.Perm.append_left _ perm_append_comm
      exact steps_quiet (h.setNccl rfl rfl rfl rfl (hperm.append_right _)
        fun e he => h.cleared e (hperm.subset he)) (LocalMove.refl ..)

end Rank

end MegatronDPU.Worker
