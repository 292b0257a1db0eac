import MegatronDPU.Worker.LocalMoves

/-!
# Coordination of the ranks

A rank that is not the root of its switch first moves a task to its NCCL queue and then signals
the root; the root waits for all signals and its own task, and then tells the others to take
theirs. The same pattern orders the copies to the host, the push and the copies back.

Each signal stands for something its sender has done, so signals compare the histories of two
ranks (`Linked`), and no rank is more than one round ahead of a table that counts it
(`Linked.near`).
-/

namespace MegatronDPU.Worker

open Lts Function List Machine Option
open Server (Key)

/-! ## Roots -/

namespace Machine

variable {m : Machine} {r : ℕ}

theorem root_ne (hr : r < m.localSize) (h : m.isSignalRoot r = false) : m.root .nccl r ≠ r := by
  rw [root_nccl hr]
  exact beq_eq_false_iff_ne.mp h

theorem isSignalRoot_eq_false (hr : r < m.localSize) (h : m.root .nccl r ≠ r) :
    m.isSignalRoot r = false := by
  rw [root_nccl hr] at h
  exact beq_eq_false_iff_ne.mpr h

end Machine

/-! ## Within a rank -/

namespace Ledger

/-- The history of a rank: tasks pass the queues of their list in order, and a key is enqueued at
most once more than it is finished. -/
structure Paced (m : Machine) (r : ℕ) (L : Ledger) : Prop where
  flow : ∀ x, Stages.Flow (m.queueList r) (fun o => L.added (o, x)) fun q => L.taken (q, x)
  taken_le : ∀ q x, L.taken (q, x) ≤ L.added (some q, x)
  unlisted : ∀ q ∉ m.queueList r, ∀ x, L.added (some q, x) = 0
  once : ∀ x, L.added ((m.queueList r).head?, x) ≤ L.added (none, x) + 1

namespace Paced

variable {m : Machine} {r : ℕ} {L : Ledger} {q q' : QueueType}

theorem before (h : L.Paced m r) (hq : [q, q'].Sublist (m.queueList r)) (x : Key) :
    L.added (some q', x) ≤ L.taken (q, x) :=
  (h.flow x).added_le_taken (m.ordered r).nodup hq

/-- A bound need only hold for the queues of the list. -/
theorem added_le (h : L.Paced m r) {x : Key} {n : ℕ}
    (hle : q ∈ m.queueList r → L.added (some q, x) ≤ n) : L.added (some q, x) ≤ n := by
  by_cases hmem : q ∈ m.queueList r
  · exact hle hmem
  · rw [h.unlisted q hmem x]
    exact Nat.zero_le _

theorem near (h : L.Paced m r) (hq : q' ∈ m.queueList r) (q : QueueType) (x : Key) :
    L.added (some q, x) ≤ L.taken (q', x) + 1 := h.added_le fun hmem =>
  calc L.added (some q, x) ≤ L.added ((m.queueList r).head?, x) :=
        (h.flow x).added_le_head (m.ordered r).nodup hmem
    _ ≤ L.added (none, x) + 1 := h.once x
    _ ≤ L.taken (q', x) + 1 :=
        Nat.add_le_add_right ((h.flow x).left_le_taken (m.ordered r).nodup hq) 1

end Paced

end Ledger

theorem Rank.Ok.paced {m : LocalConfig} {r : ℕ} {k : Rank} (h : k.Ok m r []) :
    k.toLedger.Paced m.toMachine r where
  flow x := by
    refine ⟨fun q hq => ?_, fun q hq => ?_⟩
    · exact h.waiting q x ▸ Nat.le_add_left _ _
    · exact h.held q hq x ▸ Nat.le_add_left _ _
  taken_le q x := h.waiting q x ▸ Nat.le_add_left _ _
  unlisted := h.unlisted
  once := h.once

/-! ## Between ranks -/

structure Linked (m : Machine) (L : ℕ → Ledger) (w : Wire) : Prop where
  legit : ∀ c src dst, ∀ msg ∈ w (c, src, dst), m.Legit c src dst msg
  flow : ∀ sig ≠ .doGroup, ∀ src dst x, (w (sig.comm, src, dst)).count ⟨src, sig, x⟩ +
    (L dst).heard (src, sig, x) + (L src).owes x sig ≤ (L src).base x sig
  gate : ∀ r < m.localSize, ∀ τ, m.hasTable r τ = true → ∀ x,
    Gate (m.sources r τ) (fun p => (L r).heard (p, τ.signal, x)) ((L r).taken (τ.queue, x))
      ((L r).tables (τ, x))
  follows : ∀ r < m.localSize, m.isSignalRoot r = false → ∀ (op : NcclOp) x,
    (L r).taken (op.queue, x) + (L r).pending m r op x ≤
      (L r).heard (m.root .nccl r, op.signal, x)
  received : ∀ r msg, (L r).received = some msg →
    ∃ (op : NcclOp) (x : Key), msg = ⟨m.root .nccl r, op.signal, x⟩

namespace Linked

variable {m : Machine} {L : ℕ → Ledger} {w : Wire} {r p : ℕ} {τ : Table}

theorem heard_le (h : Linked m L w) {sig : BytePSCommSignal} (hsig : sig ≠ .doGroup)
    (src dst : ℕ) (x : Key) : (L dst).heard (src, sig, x) ≤ (L src).base x sig := by
  have hflow := h.flow sig hsig src dst x
  omega

theorem signal_ne (τ : Table) : τ.signal ≠ .doGroup := by cases τ <;> decide

/-- Whoever a table counts has done its part for each task that was taken. -/
theorem taken_le_base (h : Linked m L w) (hr : r < m.localSize) (hτ : m.hasTable r τ = true)
    (hp : p ∈ m.sources r τ) (x : Key) : (L r).taken (τ.queue, x) ≤ (L p).base x τ.signal :=
  ((h.gate r hr τ hτ x).behind p hp).trans (h.heard_le (signal_ne τ) p r x)

theorem taken_le_root (h : Linked m L w) (hr : r < m.localSize) (hroot : m.root .nccl r ≠ r)
    (op : NcclOp) (x : Key) :
    (L r).taken (op.queue, x) ≤ (L (m.root .nccl r)).taken (op.queue, x) := by
  have hfollows := h.follows r hr (isSignalRoot_eq_false hr hroot) op x
  have hsig : op.signal ≠ .doGroup := by cases op <;> decide
  have hheard := h.heard_le hsig (m.root .nccl r) r x
  have hbase : (L (m.root .nccl r)).base x op.signal =
      (L (m.root .nccl r)).taken (op.queue, x) := by cases op <;> rfl
  omega

section Near

variable (h : Linked m L w) (hpaced : ∀ r, (L r).Paced m r)

include h hpaced

theorem copied_le_pushed (hr : r < m.localSize) (hdevice : m.isRootDevice r = false)
    (hmem : .copyH2D ∈ m.queueList r) (x : Key) :
    (L r).taken (.copyH2D, x) ≤ (L (m.root .basic r)).taken (.push, x) := by
  have hlt : m.root .basic r < m.localSize := root_lt hr
  have hroot : m.isRootDevice (m.root .basic r) = true :=
    (isRootDevice_iff hlt).mpr (root_root hr)
  have htable : m.hasTable r .copy = true := by
    show (!m.isRootDevice r) = true
    rw [hdevice]
    rfl
  have hmem' : .copyH2D ∈ m.queueList (m.root .basic r) :=
    (m.ordered _).copyH2D_mem.mpr ((m.ordered r).copyH2D_mem.mp hmem)
  calc (L r).taken (.copyH2D, x) ≤ (L (m.root .basic r)).taken (.copyH2D, x) :=
        h.taken_le_base hr htable (Finset.mem_singleton_self _) x
    _ ≤ (L (m.root .basic r)).added (some .copyH2D, x) := (hpaced _).taken_le ..
    _ ≤ (L (m.root .basic r)).taken (.push, x) :=
        (hpaced _).before ((m.ordered _).push_before hmem' hroot) x

omit hpaced in
theorem pushed_le_copied (hr : r < m.localSize) (hne : m.root .basic r ≠ r) (x : Key) :
    (L (m.root .basic r)).taken (.push, x) ≤ (L r).added (some .copyH2D, x) := by
  have hlt : m.root .basic r < m.localSize := root_lt hr
  have hroot : m.hasTable (m.root .basic r) .push = true :=
    (isRootDevice_iff hlt).mpr (root_root hr)
  exact h.taken_le_base hlt hroot (Machine.mem_peers.mpr ⟨hr, rfl, hne.symm⟩) x

theorem near_pcieReduce (hr : r < m.localSize) (hp : p ∈ m.sources r .pcieReduce) (x : Key) :
    (L p).taken (.pcieReduce, x) ≤ (L r).taken (.pcieReduce, x) + 1 := by
  obtain ⟨hplt, hroot, hne⟩ := Machine.mem_peers.mp hp
  refine ((hpaced p).taken_le ..).trans ((hpaced p).added_le fun hmem => ?_)
  have hbefore := (m.ordered r).pcieReduce_before
    ((m.ordered r).pcieReduce_mem.mpr ((m.ordered p).pcieReduce_mem.mp hmem))
  have hcopy : .copyH2D ∈ m.queueList p :=
    ((m.ordered p).pcieReduce_before hmem).1.subset (by decide)
  have hdevice : m.isRootDevice p = false := by
    by_contra hdevice
    -- the root device is the root of all its communicators
    have hlast : p = m.localSize - 1 := beq_iff_eq.mp (Bool.not_eq_false _ ▸ hdevice)
    rw [hlast, root_last (by omega)] at hroot
    exact hne (hlast.trans hroot)
  have hbasic : m.root .basic p = m.root .basic r := by
    rw [root_basic hplt, root_basic hr]
  have hpushed : (L (m.root .basic r)).taken (.push, x) ≤ (L r).taken (.pcieReduce, x) := by
    by_cases hself : m.root .basic r = r
    · rw [hself]
      exact ((hpaced r).taken_le .push x).trans
        ((hpaced r).before (hbefore.2 ((isRootDevice_iff hr).mpr hself)) x)
    · exact (pushed_le_copied h hr hself x).trans
        ((hpaced r).before hbefore.1 x)
  calc (L p).added (some .pcieReduce, x) ≤ (L p).taken (.copyH2D, x) + 1 :=
        (hpaced p).near hcopy _ x
    _ ≤ (L (m.root .basic p)).taken (.push, x) + 1 :=
        Nat.add_le_add_right (copied_le_pushed h hpaced hplt hdevice hcopy x) 1
    _ ≤ (L r).taken (.pcieReduce, x) + 1 := by
        rw [hbasic]
        exact Nat.add_le_add_right hpushed 1

section

variable (hr : r < m.localSize) (hτ : m.hasTable r τ = true)
include hr hτ

theorem near (hp : p ∈ m.sources r τ) (x : Key) :
    (L p).base x τ.signal ≤ (L r).taken (τ.queue, x) + 1 := by
  cases τ with
  | reduce =>
    obtain ⟨hplt, rfl, hne⟩ := Machine.mem_peers.mp hp
    refine (hpaced p).added_le fun hmem => ?_
    have hbefore : ∀ r, [.reduce, .broadcast].Sublist (m.queueList r) := fun r =>
      (m.ordered r).reduce_before ((m.ordered r).reduce_mem.mpr ((m.ordered p).reduce_mem.mp hmem))
    have hroot := h.taken_le_root hplt hne.symm .broadcast x
    calc (L p).added (some .reduce, x) ≤ (L p).taken (.broadcast, x) + 1 :=
          (hpaced p).near ((hbefore p).subset (by decide)) _ x
      _ ≤ (L (m.root .nccl p)).taken (.broadcast, x) + 1 := Nat.add_le_add_right hroot 1
      _ ≤ (L (m.root .nccl p)).added (some .broadcast, x) + 1 :=
          Nat.add_le_add_right ((hpaced _).taken_le ..) 1
      _ ≤ (L (m.root .nccl p)).taken (.reduce, x) + 1 :=
          Nat.add_le_add_right ((hpaced _).before (hbefore _) x) 1
  | broadcast =>
    obtain ⟨hplt, rfl, hne⟩ := Machine.mem_peers.mp hp
    refine (hpaced p).added_le fun hmem => ?_
    exact ((hpaced p).near hmem _ x).trans
      (Nat.add_le_add_right (h.taken_le_root hplt hne.symm .broadcast x) 1)
  | push =>
    obtain ⟨hplt, rfl, hne⟩ := Machine.mem_peers.mp hp
    refine (hpaced p).added_le fun hmem => ?_
    have hdevice : m.isRootDevice p = false := by
      by_contra hdevice
      exact hne.symm ((isRootDevice_iff hplt).mp (Bool.not_eq_false _ ▸ hdevice))
    exact ((hpaced p).near hmem _ x).trans
      (Nat.add_le_add_right (copied_le_pushed h hpaced hplt hdevice hmem x) 1)
  | pcieReduce => exact near_pcieReduce h hpaced hr hp x
  | copy =>
    obtain rfl : p = m.root .basic r := Finset.mem_singleton.mp hp
    show (L (m.root .basic r)).taken (.copyH2D, x) ≤ (L r).taken (.copyH2D, x) + 1
    have hne : m.root .basic r ≠ r := by
      intro hself
      have hdevice : (!m.isRootDevice r) = true := hτ
      rw [(isRootDevice_iff hr).mpr hself] at hdevice
      cases hdevice
    have hlt : m.root .basic r < m.localSize := root_lt hr
    have hroot : m.isRootDevice (m.root .basic r) = true :=
      (isRootDevice_iff hlt).mpr (root_root hr)
    refine ((hpaced _).taken_le ..).trans ((hpaced _).added_le fun hmem => ?_)
    have hcopy : .copyH2D ∈ m.queueList r :=
      (m.ordered r).copyH2D_mem.mpr ((m.ordered _).copyH2D_mem.mp hmem)
    calc (L (m.root .basic r)).added (some .copyH2D, x) ≤ (L (m.root .basic r)).taken (.push, x) :=
          (hpaced _).before ((m.ordered _).push_before hmem hroot) x
      _ ≤ (L r).added (some .copyH2D, x) := pushed_le_copied h hr hne x
      _ ≤ (L r).taken (.copyH2D, x) + 1 := (hpaced r).near hcopy _ x

theorem near_heard (x : Key) :
    ∀ p ∈ m.sources r τ, (L r).heard (p, τ.signal, x) ≤ (L r).taken (τ.queue, x) + 1 :=
  fun p hp => (h.heard_le (signal_ne τ) p r x).trans (near h hpaced hr hτ hp x)

theorem tables_le (x : Key) : (L r).tables (τ, x) ≤ m.readyCount τ := by
  rw [← card_sources hr hτ]
  exact (h.gate r hr τ hτ x).count_le (near_heard h hpaced hr hτ x)

end

end Near

/-! ## Steps -/

theorem localMove (h : Linked m L w) (hpaced : ∀ r, (L r).Paced m r) (hr : r < m.localSize)
    {L' : Ledger} {sends : Sends} (hmove : LocalMove m r (L r) L' sends) :
    Linked m (update L r L') (Wire.send w r sends) := by
  have hheard : ∀ dst, (update L r L' dst).heard = (L dst).heard := by
    intro dst
    by_cases hdst : dst = r
    · subst hdst
      rw [update_self, hmove.heard]
    · rw [update_of_ne hdst]
  constructor
  · intro c src dst msg hmsg
    unfold Wire.send at hmsg
    dsimp only at hmsg
    split_ifs at hmsg with hsrc
    · rcases mem_append.mp hmsg with hmsg | hmsg
      · exact h.legit c src dst msg hmsg
      · subst hsrc
        exact hmove.legit c dst msg hmsg
    · exact h.legit c src dst msg hmsg
  · intro sig hsig src dst x
    have hflow := h.flow sig hsig src dst x
    rw [hheard dst]
    unfold Wire.send
    dsimp only
    by_cases hsrc : src = r
    · subst hsrc
      have hpays := hmove.pays sig hsig dst x
      rw [update_self, if_pos rfl, count_append]
      omega
    · rw [update_of_ne hsrc, if_neg hsrc]
      exact hflow
  · intro r' hr' τ hτ x
    rw [hheard r']
    by_cases hself : r' = r
    · subst hself
      have hgate := h.gate r' hr' τ hτ x
      rw [update_self]
      rcases hmove.gates τ hτ x with ⟨htaken, htables⟩ | ⟨hfull, htaken, htables⟩
      · rw [htaken, htables]
        exact hgate
      · rw [htaken, htables]
        refine hgate.pass (near_heard h hpaced hr' hτ x) ?_
        rw [card_sources hr' hτ]
        exact hfull
    · rw [update_of_ne hself]
      exact h.gate r' hr' τ hτ x
  · intro r' hr' hroot op x
    rw [hheard r']
    have hfollows := h.follows r' hr' hroot op x
    by_cases hself : r' = r
    · subst hself
      rw [update_self]
      exact (hmove.follows hroot op x).trans hfollows
    · rw [update_of_ne hself]
      exact hfollows
  · intro r' msg hmsg
    by_cases hself : r' = r
    · subst hself
      rw [update_self] at hmsg
      rcases hmove.received with hreceived | hreceived
      · exact h.received r' msg (hreceived ▸ hmsg)
      · rw [hreceived] at hmsg
        cases hmsg
    · rw [update_of_ne hself] at hmsg
      exact h.received r' msg hmsg

/-- A rank receives the first message of a channel. -/
theorem receive (h : Linked m L w) {c : Comm} {src : ℕ} {msg : BytePSCommMsg}
    {rest : List BytePSCommMsg} (hw : w (c, src, r) = msg :: rest) {L' : Ledger}
    (hadded : L'.added = (L r).added) (htaken : L'.taken = (L r).taken)
    (howed : L'.owed = (L r).owed)
    (hheard : L'.heard = tick (L r).heard (src, msg.signal, msg.key))
    (htables : ∀ τ, m.hasTable r τ = true → ∀ x, L'.tables (τ, x) = (L r).tables (τ, x) +
      if (τ.signal, x) = (msg.signal, msg.key) then 1 else 0)
    (hsource : ∀ τ, m.hasTable r τ = true → τ.signal = msg.signal → src ∈ m.sources r τ)
    (hfollows : m.isSignalRoot r = false → ∀ (op : NcclOp) x, L'.pending m r op x ≤
      (L r).pending m r op x +
        if (m.root .nccl r, op.signal, x) = (src, msg.signal, msg.key) then 1 else 0)
    (hreceived : ∀ msg, L'.received = some msg →
      ∃ (op : NcclOp) (x : Key), msg = ⟨m.root .nccl r, op.signal, x⟩) :
    Linked m (update L r L') (update w (c, src, r) rest) := by
  have hlegit : m.Legit c src r msg := h.legit c src r msg (hw ▸ mem_cons_self)
  obtain ⟨msrc, sig, key⟩ := msg
  obtain rfl : msrc = src := hlegit.src_eq
  obtain rfl : sig.comm = c := hlegit.comm_eq
  dsimp only at hheard htables hsource hfollows
  constructor
  · intro c' src' dst' msg' hmsg'
    refine h.legit c' src' dst' msg' ?_
    by_cases hplace : (c', src', dst') = (sig.comm, msrc, r)
    · rw [hplace, update_self] at hmsg'
      rw [hplace, hw]
      exact mem_cons_of_mem _ hmsg'
    · rwa [update_of_ne hplace] at hmsg'
  · intro sig' hsig' src' dst' x
    have hflow := h.flow sig' hsig' src' dst' x
    have hbase : (update L r L' src').base x sig' = (L src').base x sig' ∧
        (update L r L' src').owes x sig' = (L src').owes x sig' := by
      by_cases hself : src' = r
      · subst hself
        rw [update_self]
        unfold Ledger.owes Ledger.base
        rw [howed, hadded, htaken]
        exact ⟨rfl, rfl⟩
      · rw [update_of_ne hself]
        exact ⟨rfl, rfl⟩
    rw [hbase.1, hbase.2]
    by_cases hdst : dst' = r
    · subst hdst
      rw [update_self, hheard, tick_apply]
      by_cases hplace : (sig'.comm, src', dst') = (sig.comm, msrc, dst')
      · rw [hplace, hw, count_cons] at hflow
        rw [hplace, update_self]
        have hmsg : ((⟨msrc, sig, key⟩ : BytePSCommMsg) == ⟨src', sig', x⟩) = true ↔
            (src', sig', x) = (msrc, sig, key) := by
          rw [beq_iff_eq, BytePSCommMsg.mk.injEq, Prod.mk.injEq, Prod.mk.injEq]
          exact ⟨fun ⟨h₁, h₂, h₃⟩ => ⟨h₁.symm, h₂.symm, h₃.symm⟩,
            fun ⟨h₁, h₂, h₃⟩ => ⟨h₁.symm, h₂.symm, h₃.symm⟩⟩
        simp only [hmsg] at hflow
        omega
      · have hne : (src', sig', x) ≠ (msrc, sig, key) := by
          intro heq
          obtain ⟨hsrc, hrest⟩ := Prod.mk.inj heq
          rw [hsrc, (Prod.mk.inj hrest).1] at hplace
          exact hplace rfl
        rw [update_of_ne hplace, if_neg hne]
        exact hflow
    · have hplace : (sig'.comm, src', dst') ≠ (sig.comm, msrc, r) := fun heq =>
        hdst (Prod.mk.inj (Prod.mk.inj heq).2).2
      rw [update_of_ne hdst, update_of_ne hplace]
      exact hflow
  · intro r' hr' τ hτ x
    by_cases hself : r' = r
    · subst hself
      have hgate := h.gate r' hr' τ hτ x
      rw [update_self, htaken, htables τ hτ x, hheard]
      by_cases hsignal : (τ.signal, x) = (sig, key)
      · obtain ⟨rfl, rfl⟩ := Prod.mk.inj hsignal
        rw [if_pos rfl]
        refine (hgate.arrive (hsource τ hτ rfl)).congr fun p _ => ?_
        rw [tick_apply, tick_apply]
        simp only [Prod.mk.injEq, and_true]
      · rw [if_neg hsignal]
        refine hgate.congr fun p _ => tick_of_ne _ fun heq => hsignal ?_
        exact (Prod.mk.inj heq).2
    · rw [update_of_ne hself]
      exact h.gate r' hr' τ hτ x
  · intro r' hr' hroot op x
    have hfollow := h.follows r' hr' hroot op x
    by_cases hself : r' = r
    · subst hself
      have hpending := hfollows hroot op x
      rw [update_self, htaken, hheard, tick_apply]
      omega
    · rw [update_of_ne hself]
      exact hfollow
  · intro r' msg' hmsg'
    by_cases hself : r' = r
    · subst hself
      rw [update_self] at hmsg'
      exact hreceived msg' hmsg'
    · rw [update_of_ne hself] at hmsg'
      exact h.received r' msg' hmsg'

/-- A signal on its way finds its table below the ready count. -/
theorem count (h : Linked m L w) (hpaced : ∀ r, (L r).Paced m r) (hr : r < m.localSize)
    {c : Comm} {src : ℕ} {msg : BytePSCommMsg} {rest : List BytePSCommMsg}
    (hw : w (c, src, r) = msg :: rest) (hτ : m.hasTable r τ = true)
    (hsignal : τ.signal = msg.signal) (hsrc : src ∈ m.sources r τ) :
    (L r).tables (τ, msg.key) < m.readyCount τ ∧
      Linked m (update L r { L r with
          heard := tick (L r).heard (src, msg.signal, msg.key)
          tables := tick (L r).tables (τ, msg.key) })
        (update w (c, src, r) rest) := by
  constructor
  · -- the signal is still on its way, so its sender is missing at the gate
    have hlegit : m.Legit c src r msg := h.legit c src r msg (hw ▸ mem_cons_self)
    have hmsg : (⟨src, τ.signal, msg.key⟩ : BytePSCommMsg) = msg := by
      rw [hsignal, ← hlegit.src_eq]
    have hflow := h.flow τ.signal (signal_ne τ) src r msg.key
    have hcount : 0 < (w (τ.signal.comm, src, r)).count ⟨src, τ.signal, msg.key⟩ := by
      rw [hmsg, hsignal, hlegit.comm_eq, hw]
      exact count_pos_iff.mpr mem_cons_self
    have hnear := near h hpaced hr hτ hsrc msg.key
    rw [← card_sources hr hτ]
    refine (h.gate r hr τ hτ msg.key).count_lt (near_heard h hpaced hr hτ msg.key) hsrc ?_
    omega
  · have hinj : ∀ τ' : Table, τ'.signal = msg.signal → τ' = τ := by
      intro τ' heq
      rw [← hsignal] at heq
      revert heq
      cases τ' <;> cases τ <;> decide
    refine h.receive hw rfl rfl rfl rfl ?_ ?_ ?_ (h.received r)
    · intro τ' _ x
      show tick (L r).tables (τ, msg.key) (τ', x) = _
      rw [tick_apply, ← hsignal]
      congr 1
      refine if_congr ?_ rfl rfl
      rw [Prod.mk.injEq, Prod.mk.injEq]
      exact and_congr_left fun _ => ⟨fun heq => heq ▸ rfl, fun heq => hinj τ' (heq.trans hsignal)⟩
    · intro τ' _ heq
      exact hinj τ' heq ▸ hsrc
    · intro _ op x
      exact Nat.le_add_right _ _

theorem waiting (h : Linked m L w) (hr : r < m.localSize) (hroot : m.isSignalRoot r = false)
    {op : NcclOp} {x : Key}
    (hmsg : (⟨m.root .nccl r, op.signal, x⟩ : BytePSCommMsg) ∈ w (.nccl, m.root .nccl r, r) ∨
      (L r).received = some ⟨m.root .nccl r, op.signal, x⟩) :
    (L r).taken (op.queue, x) < (L r).added (some op.queue, x) := by
  have hlt : m.root .nccl r < m.localSize := root_lt hr
  have hne : m.root .nccl r ≠ r := root_ne hr hroot
  -- one more signal than tasks taken has left the root
  have hsent : (L r).taken (op.queue, x) < (L (m.root .nccl r)).taken (op.queue, x) := by
    have hsig : op.signal ≠ .doGroup := by cases op <;> decide
    have hcomm : op.signal.comm = .nccl := by cases op <;> rfl
    have hbase : (L (m.root .nccl r)).base x op.signal =
        (L (m.root .nccl r)).taken (op.queue, x) := by cases op <;> rfl
    have hfollows := h.follows r hr hroot op x
    have hflow := h.flow op.signal hsig (m.root .nccl r) r x
    rw [hcomm, hbase] at hflow
    rcases hmsg with hmsg | hmsg
    · have hcount := count_pos_iff.mpr hmsg
      omega
    · have hpending : (L r).pending m r op x = 1 := if_pos hmsg
      omega
  -- and the root has waited for the signal of `r`
  have hself : m.isSignalRoot (m.root .nccl r) = true := by
    have hroot' := root_root (c := .nccl) hr
    rw [root_nccl hlt] at hroot'
    exact beq_iff_eq.mpr hroot'
  have hpeer : r ∈ m.peers .nccl (m.root .nccl r) := Machine.mem_peers.mpr ⟨hr, rfl, hne.symm⟩
  refine hsent.trans_le ?_
  cases op with
  | reduce => exact h.taken_le_base hlt (show m.hasTable _ .reduce = true from hself) hpeer x
  | broadcast => exact h.taken_le_base hlt (show m.hasTable _ .broadcast = true from hself) hpeer x

end Linked

/-! ## Receiving -/

section Receive

variable {m : LocalConfig} {L : ℕ → Ledger} {w : Wire} {r src : ℕ} {c : Comm}
  {msg : BytePSCommMsg} {rest : List BytePSCommMsg} {k : Rank}

theorem Machine.Legit.table {m : Machine} (h : m.Legit c src r msg) (hroot : m.root c r = r) :
    ∃ τ, msg.signal.table = some τ ∧ m.hasTable r τ = true ∧ τ.signal = msg.signal ∧
      src ∈ m.sources r τ := by
  have hready : msg.signal.isReady = true := by
    by_contra hready
    exact h.ne ((h.fromRoot (Bool.eq_false_iff.mpr hready)).symm.trans hroot)
  have hpeer : src ∈ m.peers c r := mem_peers.mpr ⟨h.src_lt, h.toRoot hready, h.ne⟩
  have hnccl : c = .nccl → m.isSignalRoot r = true := by
    rintro rfl
    rw [root_nccl h.dst_lt] at hroot
    exact beq_iff_eq.mpr hroot
  have hcomm := h.comm_eq
  cases hsig : msg.signal with
  | reduceReady =>
    rw [hsig] at hcomm
    subst hcomm
    exact ⟨.reduce, rfl, hnccl rfl, rfl, hpeer⟩
  | bcastReady =>
    rw [hsig] at hcomm
    subst hcomm
    exact ⟨.broadcast, rfl, hnccl rfl, rfl, hpeer⟩
  | pushReady =>
    rw [hsig] at hcomm
    subst hcomm
    exact ⟨.push, rfl, (isRootDevice_iff h.dst_lt).mpr hroot, rfl, hpeer⟩
  | pcieReduceReady =>
    rw [hsig] at hcomm
    subst hcomm
    exact ⟨.pcieReduce, rfl, Bool.and_eq_true_iff.mpr ⟨h.cross hsig, beq_iff_eq.mpr hroot⟩, rfl,
      hpeer⟩
  | doReduce | doBroadcast | doCopyH2D | doGroup =>
    rw [hsig] at hready
    cases hready

theorem Machine.Legit.isReady {m : Machine} (h : m.Legit c src r msg) (hroot : m.root c r ≠ r) :
    msg.signal.isReady = false ∧ m.root c r = src := by
  have hready : msg.signal.isReady = false := by
    by_contra hready
    refine hroot ?_
    rw [← h.toRoot (Bool.not_eq_false _ ▸ hready)]
    exact root_root h.src_lt
  exact ⟨hready, h.fromRoot hready⟩

def Hears (m : LocalConfig) (L : ℕ → Ledger) (w : Wire) (r : ℕ) (res : Except Check Rank) : Prop :=
  ∃ k', res = .ok k' ∧ k'.Ok m r [] ∧ Linked m.toMachine (update L r k'.toLedger) w

section

variable (h : Linked m.toMachine L w) (hpaced : ∀ r, (L r).Paced m.toMachine r)
include h hpaced

theorem Linked.addReadyCount (hr : r < m.localSize) (hok : k.Ok m r []) (hk : k.toLedger = L r)
    (hw : w (c, src, r) = msg :: rest) {τ : Table} (hτ : m.hasTable r τ = true)
    (hsignal : τ.signal = msg.signal) (hsrc : src ∈ m.sources r τ) :
    Hears m L (update w (c, src, r) rest) r
      ((k.hear src msg).addReadyCount m τ msg.key) := by
  obtain ⟨hlt, hlinked⟩ := h.count hpaced hr hw hτ hsignal hsrc
  rw [← hk] at hlt hlinked
  exact ⟨_, if_pos hlt, hok.same rfl rfl rfl rfl rfl, hlinked⟩

theorem Linked.listen (hok : k.Ok m r []) (hk : k.toLedger = L r)
    (hw : w (c, src, r) = msg :: rest) (hroot : m.root c r = r) :
    Hears m L (update w (c, src, r) rest) r (k.listen m src msg) := by
  have hlegit := h.legit c src r msg (hw ▸ mem_cons_self)
  obtain ⟨τ, htable, hτ, hsignal, hsrc⟩ := hlegit.table hroot
  unfold Rank.listen
  rw [htable]
  exact h.addReadyCount hpaced hlegit.dst_lt hok hk hw hτ hsignal hsrc

theorem Linked.copyListen (hok : k.Ok m r []) (hk : k.toLedger = L r)
    (hw : w (.basic, src, r) = msg :: rest) (hdevice : m.isRootDevice r = false) :
    Hears m L (update w (.basic, src, r) rest) r (k.copyListen m r src msg) := by
  have hlegit := h.legit _ src r msg (hw ▸ mem_cons_self)
  have hne : m.root .basic r ≠ r := by
    intro hself
    rw [(isRootDevice_iff hlegit.dst_lt).mpr hself] at hdevice
    cases hdevice
  obtain ⟨hready, hsrc⟩ := hlegit.isReady hne
  have hsignal : msg.signal = .doCopyH2D := by
    have hcomm := hlegit.comm_eq
    revert hcomm hready
    cases msg.signal <;> decide
  have htable : m.hasTable r .copy = true := by
    show (!m.isRootDevice r) = true
    rw [hdevice]
    rfl
  unfold Rank.copyListen
  rw [if_pos (hlegit.src_eq.trans hsrc.symm), if_pos hsignal]
  exact h.addReadyCount hpaced hlegit.dst_lt hok hk hw htable hsignal.symm
    (Finset.mem_singleton.mpr hsrc.symm)

end

theorem Linked.recvSignal (h : Linked m.toMachine L w) (hok : k.Ok m r []) (hk : k.toLedger = L r)
    (hw : w (.nccl, src, r) = msg :: rest) (hroot : m.isSignalRoot r = false) :
    Hears m L (update w (.nccl, src, r) rest) r (k.recvSignalFromRoot m r src msg) := by
  have hlegit := h.legit _ src r msg (hw ▸ mem_cons_self)
  have hne : m.root .nccl r ≠ r := root_ne hlegit.dst_lt hroot
  obtain ⟨hready, hsrc⟩ := hlegit.isReady hne
  -- no table counts the signals of a root
  have htable : ∀ τ : Table, m.hasTable r τ = true → τ.signal ≠ msg.signal := by
    intro τ _ heq
    have hcomm := hlegit.comm_eq
    rw [← heq] at hcomm hready
    revert hcomm hready
    cases τ <;> decide
  have htables : ∀ τ, m.hasTable r τ = true → ∀ x, k.tables (τ, x) = (L r).tables (τ, x) +
      if (τ.signal, x) = (msg.signal, msg.key) then 1 else 0 := by
    intro τ hτ x
    rw [if_neg fun heq => htable τ hτ (Prod.mk.inj heq).1, ← hk]
    rfl
  unfold Rank.recvSignalFromRoot
  rw [if_pos (hlegit.src_eq.trans hsrc.symm)]
  by_cases hgroup : msg.signal = .doGroup
  · rw [if_pos hgroup]
    refine ⟨_, rfl, (hok.same rfl rfl rfl rfl rfl : (k.hear src msg).Ok m r []).enqueueGroup, ?_⟩
    refine h.receive hw ?_ ?_ ?_ ?_ htables (fun τ hτ heq => absurd heq (htable τ hτ)) ?_ ?_
    iterate 4
      · rw [← hk]
        rfl
    · intro _ op x
      rw [← hk]
      exact Nat.le_add_right _ _
    · intro msg' hmsg'
      exact h.received r msg' (hk ▸ hmsg')
  · have hop : ∃ op : NcclOp, msg.signal = op.signal := by
      have hcomm := hlegit.comm_eq
      revert hcomm hready hgroup
      cases msg.signal with
      | doReduce => exact fun _ _ _ => ⟨.reduce, rfl⟩
      | doBroadcast => exact fun _ _ _ => ⟨.broadcast, rfl⟩
      | reduceReady | bcastReady | pushReady | pcieReduceReady => exact fun hready => nomatch hready
      | doCopyH2D => exact fun _ _ hcomm => nomatch hcomm
      | doGroup => exact fun _ hgroup => absurd rfl hgroup
    obtain ⟨op, hop⟩ := hop
    have hsome : msg.signal.ncclOp.isSome = true := by
      rw [hop]
      cases op <;> rfl
    rw [if_neg hgroup, if_pos hsome]
    refine ⟨_, rfl, hok.same rfl rfl rfl rfl rfl, ?_⟩
    refine h.receive hw ?_ ?_ ?_ ?_ htables (fun τ hτ heq => absurd heq (htable τ hτ)) ?_ ?_
    iterate 4
      · rw [← hk]
        rfl
    · intro _ op' x
      refine le_trans ?_ (Nat.le_add_left _ _)
      unfold Ledger.pending
      split_ifs with hmsg hne'
      · exact le_rfl
      · refine absurd ?_ hne'
        obtain rfl := some.inj hmsg
        rw [hsrc]
      all_goals exact Nat.zero_le _
    · intro msg' hmsg'
      obtain rfl : msg = msg' := some.inj hmsg'
      refine ⟨op, msg.key, ?_⟩
      rw [hsrc, ← hlegit.src_eq, ← hop]

end Receive

/-! ## Runs -/

/-- The tasks of all ranks are accounted for, signals tell the truth, and no check has failed. -/
structure LocalWorld.Ok (m : LocalConfig) (s : LocalWorld) : Prop where
  ranks : ∀ r, (s.ranks r).Ok m r []
  linked : Linked m.toMachine (fun r => (s.ranks r).toLedger) s.wire
  fault : s.fault = none

namespace LocalWorld

variable {m : LocalConfig} {s : LocalWorld} {r : ℕ}

theorem Ok.start (m : LocalConfig) : m.start.Ok m where
  ranks r := by
    constructor <;> intros <;> first
      | rfl
      | exact Nat.zero_le _
      | contradiction
  linked := by
    constructor
    · intro c src dst msg hmsg
      cases hmsg
    · intro sig hsig src dst x
      exact Nat.zero_le _
    · intro r _ τ _ x
      exact Gate.start _
    · intro r _ _ op x
      exact Nat.zero_le _
    · intro r msg hmsg
      cases hmsg
  fault := rfl

theorem ledger_update (ranks : ℕ → Rank) (r : ℕ) (k : Rank) :
    (fun r' => (update ranks r k r').toLedger) =
      update (fun r' => (ranks r').toLedger) r k.toLedger :=
  comp_update Rank.toLedger ranks r k

/-- One rank moves, and its messages with it. -/
theorem Ok.update {k : Rank} {w : Wire} (h : s.Ok m) (hok : k.Ok m r [])
    (hlinked : Linked m.toMachine (update (fun r => (s.ranks r).toLedger) r k.toLedger) w) :
    LocalWorld.Ok m { s with ranks := Function.update s.ranks r k, wire := w } where
  ranks r' := by
    by_cases hr : r' = r
    · subst hr
      show (Function.update s.ranks r' k r').Ok m r' []
      rwa [update_self]
    · show (Function.update s.ranks r k r').Ok m r' []
      rw [update_of_ne hr]
      exact h.ranks r'
  linked := by
    rwa [ledger_update]
  fault := h.fault

def Proceeds (m : LocalConfig) (out : Option (Except Check LocalWorld)) : Prop :=
  ∀ res, out = some res → ∃ t, res = .ok t ∧ t.Ok m

/-- What a rank does in order leaves the world in order. -/
theorem Ok.perform {out : Rank.Outcome} (h : s.Ok m) (hr : r < m.localSize)
    (hsteps : (s.ranks r).Steps m r out) : Proceeds m (LocalConfig.perform s r out) := by
  intro res hres
  obtain ⟨done, hdone, rfl⟩ := Option.map_eq_some_iff.mp hres
  obtain ⟨k', sends, rfl, hok, hmove⟩ := hsteps done hdone
  exact ⟨_, rfl, h.update hok (h.linked.localMove (fun r => (h.ranks r).paced) hr hmove)⟩

theorem Ok.receive {c : Comm} {src : ℕ} {handle : BytePSCommMsg → Except Check Rank} (h : s.Ok m)
    (hhandle : ∀ msg rest, s.wire (c, src, r) = msg :: rest →
      Hears m (fun r => (s.ranks r).toLedger) (Function.update s.wire (c, src, r) rest) r
        (handle msg)) :
    Proceeds m (LocalConfig.receive s r c src handle) := by
  intro res hres
  unfold LocalConfig.receive at hres
  cases hw : s.wire (c, src, r) with
  | nil =>
    rw [hw] at hres
    cases hres
  | cons msg rest =>
    obtain ⟨k', hk', hok, hlinked⟩ := hhandle msg rest hw
    rw [hw] at hres
    dsimp only at hres
    rw [hk'] at hres
    exact ⟨_, (some.inj hres).symm, h.update hok hlinked⟩

theorem proceeds_ite {p : Prop} [Decidable p] {out : Option (Except Check LocalWorld)}
    (h : p → Proceeds m out) : Proceeds m (if p then out else none) := by
  intro res hres
  split_ifs at hres with hp
  exact h hp res hres

theorem Ok.exists_task (h : s.Ok m) (hr : r < m.localSize) (hroot : m.isSignalRoot r = false)
    {op : NcclOp} {x : Key}
    (hmsg : (⟨m.root .nccl r, op.signal, x⟩ : BytePSCommMsg) ∈ s.wire (.nccl, m.root .nccl r, r) ∨
      (s.ranks r).received = some ⟨m.root .nccl r, op.signal, x⟩) :
    ∃ e ∈ (s.ranks r).queues op.queue, e.key = x := by
  have hlt := h.linked.waiting hr hroot hmsg
  have hwaiting := (h.ranks r).waiting op.queue x
  have hcount : 0 < countAt op.queue x ((s.ranks r).queues op.queue) := by omega
  exact exists_of_countAt hcount

/-- Every action of a rank can be taken in order. -/
theorem Ok.act (h : s.Ok m) (hr : r < m.localSize) {a : LocalAction}
    (hone : m.OneOutstanding s ⟨r, a⟩) : Proceeds m (m.act s r a) := by
  have hpaced : ∀ r, (s.ranks r).toLedger.Paced m.toMachine r := fun r => (h.ranks r).paced
  have hok := h.ranks r
  cases a with
  | enqueue op key len priority readyEvent => exact h.perform hr (hok.enqueueTensor (hone key rfl))
  | reachEvent q i => exact h.perform hr hok.reachEvent
  | coordinate op => exact proceeds_ite fun hloop => h.perform hr (hok.coordinate hr hloop)
  | copyD2H record => exact proceeds_ite fun _ => h.perform hr hok.copyD2H
  | pcieReduce => exact proceeds_ite fun hloop => h.perform hr (hok.pcieReduce hr hloop)
  | copyH2D record => exact proceeds_ite fun _ => h.perform hr (hok.copyH2D hr)
  | push | pull =>
    exact proceeds_ite fun _ => h.perform hr (hok.transfer (by decide) (by decide))
  | answered q i =>
    refine proceeds_ite fun hq => h.perform hr (hok.answered ?_)
    rcases hq with rfl | rfl <;> decide
  | rootNccl => exact proceeds_ite fun hroot => h.perform hr (hok.rootNccl hr hroot.2)
  | nonRootNccl =>
    refine proceeds_ite fun hloop => ?_
    have hroot : m.isSignalRoot r = false := Bool.eq_false_iff.mpr hloop.2
    refine h.perform hr (hok.nonRootNccl hroot fun msg hmsg => ?_)
    obtain ⟨op, x, rfl⟩ := h.linked.received r msg hmsg
    exact ⟨op, x, rfl, h.exists_task hr hroot (.inr hmsg)⟩
  | syncNccl => exact proceeds_ite fun _ => h.perform hr hok.syncNccl
  | listen c src =>
    exact proceeds_ite fun hroot => h.receive fun msg rest hw =>
      h.linked.listen hpaced hok rfl hw hroot
  | copyListen src =>
    exact proceeds_ite fun hloop => h.receive fun msg rest hw =>
      h.linked.copyListen hpaced hok rfl hw (Bool.eq_false_iff.mpr hloop.2)
  | recvSignal src =>
    exact proceeds_ite fun hloop => h.receive fun msg rest hw =>
      h.linked.recvSignal hok rfl hw (Bool.eq_false_iff.mpr hloop.2.1)

/-- Every step of a local rank keeps the tasks accounted for and the signals true. -/
theorem Ok.step {t : LocalWorld} {a : LocalLabel} (h : s.Ok m) (hone : m.OneOutstanding s a)
    (hstep : m.step s a = some t) : t.Ok m := by
  unfold LocalConfig.step at hstep
  split_ifs at hstep with hlive
  obtain ⟨out, hout, heq⟩ := Option.map_eq_some_iff.mp hstep
  obtain ⟨t', rfl, ht'⟩ := h.act hlive.2 hone out hout
  exact heq ▸ ht'

theorem Ok.of_reach (h : Reach m.worlds m.OneOutstanding s) : s.Ok m :=
  h.invariant (P := LocalWorld.Ok m) (fun s (hs : s = m.start) => hs ▸ Ok.start m)
    fun _ _ _ hok hone hstep => hok.step hone hstep

/-- The scan of a queue for a key ends at a task with it, and passes no task on the way that waits
for an event. -/
def Finds (sq : List TensorTableEntry) (x : Key) : Prop :=
  ∃ before e after, sq = before ++ e :: after ∧ e.key = x ∧ (∀ e' ∈ before, e'.key ≠ x) ∧
    ∀ e' ∈ before ++ [e], e'.readyEvent ≠ some false

theorem finds_of_mem {sq : List TensorTableEntry} {x : Key} (hmem : ∃ e ∈ sq, e.key = x)
    (hready : ∀ e ∈ sq, e.readyEvent ≠ some false) : Finds sq x := by
  induction sq with
  | nil =>
    obtain ⟨e, he, -⟩ := hmem
    cases he
  | cons a sq ih =>
    by_cases ha : a.key = x
    · refine ⟨[], a, sq, rfl, ha, (fun _ he => nomatch he), fun e he => ?_⟩
      exact hready e (mem_cons.mpr (.inl (mem_singleton.mp he)))
    · have hrest : ∃ e ∈ sq, e.key = x := by
        obtain ⟨e, he, hkey⟩ := hmem
        rcases mem_cons.mp he with rfl | he
        · exact absurd hkey ha
        · exact ⟨e, he, hkey⟩
      obtain ⟨before, e, after, rfl, hkey, hbefore, hscan⟩ :=
        ih hrest fun e he => hready e (mem_cons_of_mem _ he)
      refine ⟨a :: before, e, after, rfl, hkey, ?_, ?_⟩
      · intro e' he'
        rcases mem_cons.mp he' with rfl | he'
        · exact ha
        · exact hbefore e' he'
      · intro e' he'
        rcases mem_cons.mp he' with rfl | he'
        · exact hready e' mem_cons_self
        · exact hscan e' he'

/-- The ranks are in step: no check has failed, a rank that is told to take a task for NCCL finds
it, and ready counts keep to their bounds. -/
structure Coordinated (m : LocalConfig) (s : LocalWorld) : Prop where
  fault : s.fault = none
  finds : ∀ r < m.localSize, m.isSignalRoot r = false → ∀ src (op : NcclOp) msg,
    msg ∈ s.wire (.nccl, src, r) ∨ (s.ranks r).received = some msg → msg.signal = op.signal →
      Finds ((s.ranks r).queues op.queue) msg.key
  counts : ∀ r < m.localSize, ∀ τ, m.hasTable r τ = true → ∀ x,
    (s.ranks r).tables (τ, x) ≤ m.readyCount τ

theorem Ok.coordinated (h : s.Ok m) : s.Coordinated m where
  fault := h.fault
  finds r hr hroot src op msg hmsg hsignal := by
    have hne : m.root .nccl r ≠ r := root_ne hr hroot
    have hmsg' : (⟨m.root .nccl r, op.signal, msg.key⟩ : BytePSCommMsg) ∈
          s.wire (.nccl, m.root .nccl r, r) ∨
        (s.ranks r).received = some ⟨m.root .nccl r, op.signal, msg.key⟩ := by
      obtain ⟨msrc, sig, x⟩ := msg
      obtain rfl : sig = op.signal := hsignal
      rcases hmsg with hmsg | hmsg
      · have hlegit := h.linked.legit _ src r _ hmsg
        obtain ⟨-, rfl⟩ := hlegit.isReady hne
        obtain rfl : msrc = _ := hlegit.src_eq
        exact .inl hmsg
      · obtain ⟨op', x', heq⟩ := h.linked.received r _ hmsg
        rw [(BytePSCommMsg.mk.inj heq).1] at hmsg
        exact .inr hmsg
    refine finds_of_mem (h.exists_task hr hroot hmsg') fun e he => ?_
    rw [(h.ranks r).ready hroot op e he]
    exact (some_ne_none false).symm
  counts r hr τ hτ x := h.linked.tables_le (fun r => (h.ranks r).paced) hr hτ x

/-- Whatever the ranks enqueue, and however their threads interleave: as long as no rank has two
operations of a key outstanding, they stay in step. -/
theorem coordinated_of_reach (m : LocalConfig) (s : LocalWorld)
    (h : Reach m.worlds m.OneOutstanding s) : s.Coordinated m :=
  (Ok.of_reach h).coordinated

/-- Two ranks behind one switch, of which the second is the root. -/
def twoRanks : LocalConfig := { localSize := 2, numWorker := 0 }

def twoFloats : Operation where
  tensorName := "weight"
  tensorName_ne := by decide
  unitLen := 4
  numElements := 2
  numElements_pos := Nat.two_pos

/-- The root is told that the first rank has its task, and tells it to reduce. -/
theorem reduce_finds_task : ∃ s, Reach twoRanks.worlds twoRanks.OneOutstanding s ∧
    (s.ranks 0).received = some ⟨1, .doReduce, 5⟩ ∧ Finds ((s.ranks 0).queues .reduce) 5 := by
  obtain ⟨s, hs, hreceived⟩ := exists_reach (S := twoRanks.worlds) (G := twoRanks.OneOutstanding)
    (P := fun s => (s.ranks 0).received = some ⟨1, .doReduce, 5⟩) (.init rfl)
    [⟨0, .enqueue twoFloats 5 8 0 (some false)⟩, ⟨1, .enqueue twoFloats 5 8 0 none⟩,
      ⟨0, .reachEvent .coordinateReduce 0⟩, ⟨0, .coordinate .reduce⟩, ⟨0, .coordinate .reduce⟩,
      ⟨0, .coordinate .reduce⟩, ⟨1, .listen .nccl 0⟩, ⟨1, .rootNccl⟩, ⟨1, .rootNccl⟩,
      ⟨0, .recvSignal 1⟩]
    (by decide +kernel)
  have hcoordinated := coordinated_of_reach twoRanks s hs
  exact ⟨s, hs, hreceived, hcoordinated.finds 0 (by decide) rfl 1 .reduce _ (.inr hreceived) rfl⟩

end LocalWorld

end MegatronDPU.Worker
