import MegatronDPU.Worker.Call

/-!
# The staged path

What the cells of a partition hold after each of its six stages, in every interleaving of workers
and partitions. If two partitions share a cell, then between load and push of the one partition the
other one may pull into the shared buffer (`exists_race`).
-/

namespace MegatronDPU.Worker

open Lts Finset Function List Option Call
open Server (Key)

variable {α : Type}

/-! ## One cell -/

def staged : List QueueType := [.reduce, .copyD2H, .push, .pull, .copyH2D, .broadcast]

section Staged

variable [AddCommMonoid α] (call : Call α)

/-- What a worker has pushed for a cell of partition `i`. -/
def Call.sent (x : WorkerState α) (i c : ℕ) : Option α :=
  call.tasks[i]?.bind fun task => (x.pushed i).bind fun xs => xs[c - call.cell task.offset]?

/-- What a worker holds for a cell of a partition after `k` of its stages, if its own contribution
is `own` and the answer of the server `total`. -/
structure CellOk (own total : α) (c k : ℕ) (m : Memory α) (sent : Option α) : Prop where
  loaded : k = 2 → m .shared c = own
  sent : 3 ≤ k → sent = some own
  pulled : 4 ≤ k → m .shared c = total
  stored : 5 ≤ k → m call.target c = total

variable {call} {s t : ℕ → WorkerState α} {i w c k : ℕ} {task : Task} {x y : WorkerState α}
  {answer : Option (List α)} {q : QueueType} {own total : α} {xs : List α} {k' : ℕ}

section

variable (htask : call.tasks[i]? = some task)
  (hc : call.cell task.offset ≤ c ∧ c < call.cell task.offset + call.cell task.len)
include htask hc

section

omit [AddCommMonoid α]

theorem Call.sent_push (b : Buffer) :
    call.sent (x.push i b (call.cell task.offset) (call.cell task.len)) i c =
      some (x.memory b c) := by
  have hlt : c - call.cell task.offset < call.cell task.len := by omega
  unfold sent
  rw [htask, bind_some]
  show (update x.pushed i (some _) i).bind _ = _
  rw [update_self, bind_some, Region.getElem?_read hlt, Nat.add_sub_cancel' hc.1]

/-- The next stage of the partition itself, if the worker loads its contribution and pulls the
total. -/
theorem CellOk.advance (h : CellOk call own total c k x.memory (call.sent x i c))
    (hq : staged[k]? = some q)
    (hin : k = 1 → x.memory .input c = own)
    (hanswer : k = 3 → ∀ xs, answer = some xs → xs[c - call.cell task.offset]? = some total)
    (hperf : call.perform false i task answer x q = some y) :
    CellOk call own total c (k + 1) y.memory (call.sent y i c) := by
  have hk : k < 6 := (List.getElem?_eq_some_iff.mp hq).1
  have hne := call.target_ne_shared
  -- one case for each stage
  interval_cases k
  · cases hq
    cases hperf
    exact ⟨by omega, by omega, by omega, by omega⟩
  · cases hq
    rw [call.perform_copyD2H] at hperf
    cases hperf
    refine ⟨fun _ => ?_, by omega, by omega, by omega⟩
    rw [copy_memory, if_pos ⟨rfl, hc⟩]
    exact hin rfl
  · cases hq
    rw [call.perform_push] at hperf
    cases hperf
    refine ⟨by omega, fun _ => ?_, by omega, by omega⟩
    rw [sent_push htask hc, h.loaded rfl]
  · cases hq
    rw [call.perform_pull] at hperf
    obtain ⟨xs, hxs, rfl⟩ := map_eq_some_iff.mp hperf
    refine ⟨by omega, fun _ => h.sent le_rfl, fun _ => ?_, by omega⟩
    show update x.memory .shared _ .shared c = _
    rw [update_self]
    exact Region.write_eq hc.1 (hanswer rfl xs hxs)
  · cases hq
    rw [call.perform_copyH2D] at hperf
    cases hperf
    refine ⟨by omega, fun _ => h.sent (by omega), fun _ => ?_, fun _ => ?_⟩
    · rw [copy_memory, if_neg fun hb => hne hb.1.symm]
      exact h.pulled le_rfl
    · rw [copy_memory, if_pos ⟨rfl, hc⟩]
      exact h.pulled le_rfl
  · cases hq
    cases hperf
    exact ⟨by omega, fun _ => h.sent (by omega), fun _ => h.pulled (by omega),
      fun _ => h.stored le_rfl⟩

end

theorem Call.answer_cell (h : call.answer s i = some xs) : xs[c - call.cell task.offset]? =
      some (∑ v ∈ Finset.range call.numWorker, (call.sent (s v) i c).getD 0) := by
  have hlt : c - call.cell task.offset < call.cell task.len := by omega
  unfold answer at h
  rw [htask, bind_some] at h
  split_ifs at h with hall
  cases h
  rw [getElem?_map, getElem?_range hlt, map_some, Option.some.injEq]
  refine sum_congr rfl fun v hv => ?_
  obtain ⟨ys, hys⟩ := isSome_iff_exists.mp (hall v (Finset.mem_range.mp hv))
  unfold sent
  rw [htask, hys, bind_some, bind_some, getD_some, getD_eq_getElem?_getD]

end

theorem Call.length_answer (htask : call.tasks[i]? = some task) (h : call.answer s i = some xs) :
    xs.length = call.cell task.len := by
  unfold answer at h
  rw [htask, bind_some] at h
  split_ifs at h
  cases h
  rw [length_map, length_range]

theorem Call.pushed_isSome_of_answer (h : call.answer s i = some xs) :
    ∀ v < call.numWorker, ((s v).pushed i).isSome := by
  obtain ⟨task, -, h⟩ := bind_eq_some_iff.mp h
  split_ifs at h with hall
  exact hall

omit [AddCommMonoid α] in
theorem Call.sent_congr (h : y.pushed i = x.pushed i) : call.sent y i c = call.sent x i c := by
  unfold sent
  rw [h]

/-! ## The invariant -/

theorem staged_drop_inj {k : ℕ} (hk : k ≤ 6) (hk' : k' ≤ 6) (h : staged.drop k = staged.drop k') :
    k = k' := by
  have hlen := congrArg length h
  simp only [length_drop, staged, length_cons, length_nil] at hlen
  omega

theorem eq_idxOf_staged (h : staged[k]? = some q) : k = staged.idxOf q := by
  have hk : k < 6 := (List.getElem?_eq_some_iff.mp h).1
  interval_cases k <;> cases h <;> rfl

theorem staged_drop_cons {rest : List QueueType} (h : staged.drop k = q :: rest) :
    staged[k]? = some q ∧ rest = staged.drop (k + 1) := by
  constructor
  · rw [← head?_drop, h, head?_cons]
  · rw [← tail_drop, h, tail_cons]

variable (call) in
/-- Where partitions overlap, every worker has the sum already. -/
def Call.Clean : Prop :=
  ∀ c, call.Overlapped c → ∀ v < call.numWorker, call.memory v .input c = call.sum c

variable (call) in
/-- What holds of worker `w` in every state. -/
structure StagedInv (w : ℕ) (x : WorkerState α) : Prop where
  place : ∀ i, ∃ k ≤ 6, x.remaining i = staged.drop k
  unsent : ∀ i, ∀ k ≤ 2, x.remaining i = staged.drop k → x.pushed i = none
  cells : ∀ i c, call.Covers i c → ∀ k ≤ 6, x.remaining i = staged.drop k →
    CellOk call (call.memory w .input c) (call.sum c) c k x.memory (call.sent x i c)
  /-- The input changes only where a task has stored its result into it. -/
  input : ∀ c, x.memory .input c = call.memory w .input c ∨ x.memory .input c = call.sum c ∧
    ∃ i, call.Covers i c ∧ ∃ k ≤ 6, 5 ≤ k ∧ x.remaining i = staged.drop k
  outside : ∀ c, (∀ i, ¬call.Covers i c) → x.memory call.target c = call.memory w call.target c

section

omit [AddCommMonoid α]

theorem Call.perform_uncovered (hc : ¬(call.cell task.offset ≤ c ∧
      c < call.cell task.offset + call.cell task.len))
    (hlen : ∀ xs, answer = some xs → xs.length = call.cell task.len)
    (h : call.perform false i task answer x q = some y) (b : Buffer) :
    y.memory b c = x.memory b c := by
  obtain ⟨-, rfl⟩ | ⟨-, rfl⟩ | ⟨-, rfl⟩ | ⟨-, rfl⟩ | ⟨-, xs, hxs, rfl⟩ := call.perform_cases h
  · rfl
  · rw [copy_memory, if_neg fun hb => hc hb.2]
  · rw [copy_memory, if_neg fun hb => hc hb.2]
  · rfl
  · show update x.memory .shared _ b c = _
    by_cases hb : b = .shared
    · subst hb
      rw [update_self]
      apply Region.write_of_notMem
      rwa [hlen xs hxs]
    · rw [update_of_ne hb]

theorem Call.pushed_of_ne_push (hq : q ≠ .push)
    (h : call.perform false i task answer x q = some y) : y.pushed = x.pushed := by
  obtain ⟨-, rfl⟩ | ⟨-, rfl⟩ | ⟨-, rfl⟩ | ⟨rfl, -⟩ | ⟨-, xs, -, rfl⟩ := call.perform_cases h
  · rfl
  · rfl
  · rfl
  · exact absurd rfl hq
  · rfl

theorem CellOk.keep {sent : Option α} (h : CellOk call own total c k' x.memory sent)
    (hshared : y.memory .shared c = x.memory .shared c ∨ own = total ∧ y.memory .shared c = total)
    (htarget : y.memory call.target c = x.memory call.target c ∨ y.memory call.target c = total) :
    CellOk call own total c k' y.memory sent := by
  refine ⟨fun h2 => ?_, h.sent, fun h4 => ?_, fun h5 => ?_⟩
  · rcases hshared with hy | ⟨heq, hy⟩
    · rw [hy, h.loaded h2]
    · rw [hy, heq]
  · rcases hshared with hy | ⟨-, hy⟩
    · rw [hy, h.pulled h4]
    · exact hy
  · rcases htarget with hy | hy
    · rw [hy, h.stored h5]
    · exact hy

/-- A stage of another partition that shares the cell does no harm if contribution and total agree
there. -/
theorem CellOk.other {sent sent' : Option α} (heq : own = total)
    (h : CellOk call own total c k' x.memory sent)
    (hown : CellOk call own total c (k + 1) y.memory sent') (hq : staged[k]? = some q)
    (hperf : call.perform false i task answer x q = some y) :
    CellOk call own total c k' y.memory sent := by
  have hne := call.target_ne_shared
  refine h.keep ?_ ?_
  · obtain ⟨-, rfl⟩ | ⟨rfl, -⟩ | ⟨-, rfl⟩ | ⟨-, rfl⟩ | ⟨rfl, -⟩ := call.perform_cases hperf
    · exact .inl rfl
    · have hk : k = 1 := eq_idxOf_staged hq
      exact .inr ⟨heq, (hown.loaded (by omega)).trans heq⟩
    · refine .inl ?_
      rw [copy_memory, if_neg fun hb => hne hb.1.symm]
    · exact .inl rfl
    · have hk : k = 3 := eq_idxOf_staged hq
      exact .inr ⟨heq, hown.pulled (by omega)⟩
  · by_cases hh : q = .copyH2D
    · subst hh
      have hk : k = 4 := eq_idxOf_staged hq
      exact .inr (hown.stored (by omega))
    · exact .inl (congrFun (call.perform_memory hperf hne (.inl hh)) c)

end

theorem StagedInv.sent_of_pushed (h : StagedInv call w x) (hcov : call.Covers i c)
    (hpushed : (x.pushed i).isSome) : call.sent x i c = some (call.memory w .input c) := by
  obtain ⟨k, hk, hrem⟩ := h.place i
  have h3 : 3 ≤ k := by
    by_contra hlt
    have hnone := h.unsent i k (by omega) hrem
    rw [hnone] at hpushed
    cases hpushed
  exact (h.cells i c hcov k hk hrem).sent h3

theorem Call.answer_sum (hall : ∀ v < call.numWorker, StagedInv call v (s v))
    (htask : call.tasks[i]? = some task)
    (hc : call.cell task.offset ≤ c ∧ c < call.cell task.offset + call.cell task.len)
    (h : call.answer s i = some xs) : xs[c - call.cell task.offset]? = some (call.sum c) := by
  rw [answer_cell htask hc h, Option.some.injEq]
  refine sum_congr rfl fun v hv => ?_
  have hv := Finset.mem_range.mp hv
  have hpushed := pushed_isSome_of_answer h v hv
  rw [(hall v hv).sent_of_pushed ⟨task, htask, hc⟩ hpushed, getD_some]

/-- A stage that `w` performs keeps its cells right. -/
theorem StagedInv.step {rest : List QueueType} (hclean : call.Clean)
    (hall : ∀ v < call.numWorker, StagedInv call v (s v)) (hw : w < call.numWorker)
    (htask : call.tasks[i]? = some task) (hrem : (s w).remaining i = q :: rest)
    (hperf : call.perform false i task (call.answer s i) (s w) q = some y) :
    StagedInv call w (y.proceed i rest) := by
  have h := hall w hw
  obtain ⟨k, hk, hplace⟩ := h.place i
  obtain ⟨hq, hrest⟩ := staged_drop_cons (hplace.symm.trans hrem)
  have hlt : k < 6 := (List.getElem?_eq_some_iff.mp hq).1
  have hremaining : ∀ j, (y.proceed i rest).remaining j =
      if j = i then staged.drop (k + 1) else (s w).remaining j := by
    intro j
    show update y.remaining i rest j = _
    by_cases hj : j = i
    · subst hj
      rw [update_self, if_pos rfl, hrest]
    · rw [update_of_ne hj, if_neg hj, call.perform_remaining hperf]
  -- the cells of the partition itself
  have hown : ∀ c, call.Covers i c → CellOk call (call.memory w .input c) (call.sum c) c (k + 1)
      y.memory (call.sent y i c) := by
    rintro c ⟨task', htask', hc⟩
    obtain rfl : task' = task := some.inj (htask'.symm.trans htask)
    refine (h.cells i c ⟨task', htask, hc⟩ k hk hplace).advance htask hc hq ?_
      (fun _ xs hxs => answer_sum hall htask hc hxs) hperf
    rintro rfl
    rcases h.input c with hin | ⟨hsum, j, hj, k', hk', h5, hrem'⟩
    · exact hin
    · -- somebody else has stored the sum
      have hji : i ≠ j := by
        rintro rfl
        have := staged_drop_inj hk hk' (hplace.symm.trans hrem')
        omega
      rw [hsum, hclean c ⟨i, j, hji, ⟨task', htask, hc⟩, hj⟩ w hw]
  have hframe : ∀ c, ¬call.Covers i c → ∀ b, y.memory b c = (s w).memory b c := by
    intro c hc b
    refine perform_uncovered (fun hin => hc ⟨task, htask, hin⟩) (fun xs hxs => ?_) hperf b
    exact length_answer htask hxs
  refine ⟨fun j => ?_, fun j k' hk' hj => ?_, fun j c hcov k' hk' hj => ?_, fun c => ?_,
    fun c hc => ?_⟩
  · rw [hremaining]
    split_ifs
    · exact ⟨k + 1, hlt, rfl⟩
    · exact h.place j
  · show y.pushed j = none
    rw [hremaining] at hj
    split_ifs at hj with hji
    · subst hji
      have hkk := staged_drop_inj hlt (by omega) hj
      have hne : q ≠ .push := by
        rintro rfl
        have hk2 : k = 2 := eq_idxOf_staged hq
        omega
      rw [pushed_of_ne_push hne hperf]
      exact h.unsent j k (by omega) hplace
    · rw [call.pushed_of_ne hperf hji]
      exact h.unsent j k' hk' hj
  · rw [hremaining] at hj
    split_ifs at hj with hji
    · subst hji
      obtain rfl := staged_drop_inj hlt hk' hj
      exact hown c hcov
    · have hold := h.cells j c hcov k' hk' hj
      show CellOk call _ _ c k' y.memory (call.sent y j c)
      rw [sent_congr (call.pushed_of_ne hperf hji)]
      by_cases hci : call.Covers i c
      · exact hold.other (hclean c ⟨j, i, hji, hcov, hci⟩ w hw) (hown c hci) hq hperf
      · exact hold.keep (.inl (hframe c hci _)) (.inl (hframe c hci _))
  · show y.memory .input c = _ ∨ y.memory .input c = _ ∧ _
    -- a task that has stored its result stays among those that have
    have hlater : ∀ j, ∀ k' ≤ 6, 5 ≤ k' → (s w).remaining j = staged.drop k' →
        ∃ k'' ≤ 6, 5 ≤ k'' ∧ (y.proceed i rest).remaining j = staged.drop k'' := by
      intro j k' hk' h5 hj
      rw [hremaining]
      split_ifs with hji
      · subst hji
        have := staged_drop_inj hk hk' (hplace.symm.trans hj)
        exact ⟨k + 1, hlt, by omega, rfl⟩
      · exact ⟨k', hk', h5, hj⟩
    by_cases hstore : q = .copyH2D ∧ call.target = .input ∧ call.Covers i c
    · obtain ⟨rfl, htarget, hci⟩ := hstore
      have hk4 : k = 4 := eq_idxOf_staged hq
      refine .inr ⟨?_, i, hci, k + 1, hlt, by omega, ?_⟩
      · rw [← htarget]
        exact (hown c hci).stored (by omega)
      · rw [hremaining, if_pos rfl]
    · have hsame : y.memory .input c = (s w).memory .input c := by
        by_cases hci : call.Covers i c
        · have hkeep : q ≠ .copyH2D ∨ Buffer.input ≠ call.target := by
            by_contra hboth
            obtain ⟨hh, ht⟩ := not_or.mp hboth
            exact hstore ⟨not_not.mp hh, (not_not.mp ht).symm, hci⟩
          exact congrFun (call.perform_memory hperf (by decide) hkeep) c
        · exact hframe c hci _
      rw [hsame]
      refine (h.input c).imp_right fun ⟨hsum, j, hj, k', hk', h5, hrem'⟩ => ?_
      exact ⟨hsum, j, hj, hlater j k' hk' h5 hrem'⟩
  · show y.memory call.target c = _
    rw [hframe c (hc i)]
    exact h.outside c hc

theorem Call.stagedInv_of_reach
    (hclean : call.Clean)
    (h : Reach (call.pushPull false) Free s) : ∀ w < call.numWorker, StagedInv call w (s w) := by
  refine h.invariant (P := fun s => ∀ w < call.numWorker, StagedInv call w (s w)) ?_ ?_
  · rintro s rfl w hw
    have hlist : (call.machine false).queueList 0 = staged.drop 0 := call.queueList_eq false
    refine ⟨fun _ => ⟨0, by omega, hlist⟩, fun _ _ _ _ => rfl, fun i c _ k hk hrem => ?_,
      fun _ => .inl rfl, fun _ _ => rfl⟩
    obtain rfl := staged_drop_inj (by omega) hk (hlist.symm.trans hrem)
    exact ⟨by omega, by omega, by omega, by omega⟩
  · intro s a t hs _ hstep w hw
    obtain ⟨ha, task, q, rest, x, htask, hrem, hperf, rfl⟩ := step_cases hstep
    by_cases hwa : w = a.1
    · subst hwa
      rw [update_self]
      exact StagedInv.step hclean hs ha htask hrem hperf
    · rw [update_of_ne hwa]
      exact hs w hw

/-- On the staged path a finished call has stored the sum of the inputs in every cell of a
partition, and has left the other cells of the target as they were. -/
theorem Call.staged_cell
    (hclean : call.Clean)
    (h : Reach (call.pushPull false) Free s) (hfin : call.Finished s) (hw : w < call.numWorker) :
    (call.Covers i c → (s w).memory call.target c = call.sum c) ∧
    ((∀ j, ¬call.Covers j c) → (s w).memory call.target c = call.memory w call.target c) := by
  have hinv := stagedInv_of_reach hclean h w hw
  refine ⟨fun hcov => ?_, hinv.outside c⟩
  obtain ⟨task, htask, hc⟩ := hcov
  have hi : i < call.tasks.length := (List.getElem?_eq_some_iff.mp htask).1
  have hdone : (s w).remaining i = staged.drop 6 := hfin w hw i hi
  exact (hinv.cells i c ⟨task, htask, hc⟩ 6 le_rfl hdone).stored (by omega)

/-! ## Partitions that overlap -/

omit [AddCommMonoid α] in
theorem Call.pushed_isSome_of_sent (h : call.sent x i c = some own) : (x.pushed i).isSome := by
  obtain ⟨task, -, h⟩ := bind_eq_some_iff.mp h
  obtain ⟨xs, hxs, -⟩ := bind_eq_some_iff.mp h
  rw [hxs]
  rfl

/-- A worker has partition `i` past `k` stages; worker `v` contributes `own v` to cell `c`. -/
structure Call.StagedTo (call : Call α) (own : ℕ → α) (i c k v : ℕ) (x : WorkerState α) : Prop where
  remaining : x.remaining i = staged.drop k
  cell : CellOk call (own v) (∑ u ∈ Finset.range call.numWorker, own u) c k x.memory (call.sent x i c)

theorem runnable_staged (hk : k ≤ 6) : runnable (decide (3 ≤ k)) (staged.drop k) = true := by
  interval_cases k <;> rfl

section

variable (hs : Reach (call.pushPull false) Free s) (hcov : call.Covers i c)
include hs hcov

section

variable {own : ℕ → α} (hkeep : .input ≠ call.target)
  (hin : k ≤ 1 → ∀ v < call.numWorker, own v = call.memory v .input c)
  (hrow : ∀ v < call.numWorker, call.StagedTo own i c k v (s v))
include hkeep hin hrow

theorem Call.exists_stage (hk : k < 6) :
    ∃ t, Reach (call.pushPull false) Free t ∧ ∀ v < call.numWorker,
      call.StagedTo own i c (k + 1) v (t v) ∧ ∀ j, j ≠ i → Untouched (s v) (t v) j := by
  obtain ⟨task, htask, hc⟩ := hcov
  obtain ⟨q, hq⟩ : ∃ q, staged[k]? = some q := ⟨_, getElem?_eq_getElem (show k < staged.length from hk)⟩
  have hlist : staged.drop k = q :: staged.drop (k + 1) := by
    rw [drop_eq_getElem?_toList_append, hq]
    rfl
  have hsent : ∀ v < call.numWorker, 3 ≤ k → call.sent (s v) i c = some (own v) :=
    fun v hv h3 => (hrow v hv).cell.sent h3
  have hanswer : decide (3 ≤ k) = true → (call.answer s i).isSome := fun h3 =>
    answer_isSome htask fun v hv =>
      pushed_isSome_of_sent (hsent v hv (of_decide_eq_true h3))
  have hrunnable := runnable_staged hk.le
  rw [hlist] at hrunnable
  obtain ⟨t, ht, hstep, -⟩ := exists_row hs htask
    (nodup_range : (List.range call.numWorker).Nodup) (fun v hv => List.mem_range.mp hv)
    (fun v hv => (hrow v (List.mem_range.mp hv)).remaining.trans hlist)
    (fun v _ => perform_isSome hrunnable hanswer (s v))
  refine ⟨t, ht, fun v hv => ?_⟩
  obtain ⟨y, hperf, hy⟩ := hstep v (List.mem_range.mpr hv)
  rw [hy]
  refine ⟨⟨update_self _ _ _, ?_⟩, fun j hj => call.untouched_of_ne hperf hj _⟩
  show CellOk call _ _ c _ y.memory (call.sent y i c)
  refine (hrow v hv).cell.advance htask hc hq ?_ ?_ hperf
  · intro h1
    rw [hin (by omega) v hv]
    exact congrFun (memory_of_reach (by decide) (.inr hkeep) hs v) c
  · intro h3 xs hxs
    rw [answer_cell htask hc hxs, Option.some.injEq]
    refine sum_congr rfl fun u hu => ?_
    rw [hsent u (Finset.mem_range.mp hu) (by omega), getD_some]

theorem Call.exists_stages (hk : k ≤ k') (hk' : k' ≤ 6) :
    ∃ t, Reach (call.pushPull false) Free t ∧ ∀ v < call.numWorker,
      call.StagedTo own i c k' v (t v) ∧ ∀ j, j ≠ i → Untouched (s v) (t v) j := by
  induction k', hk using Nat.le_induction with
  | base => exact ⟨s, hs, fun v hv => ⟨hrow v hv, fun _ _ => ⟨rfl, rfl⟩⟩⟩
  | succ m hm ih =>
    obtain ⟨s', hs', hdone⟩ := ih (by omega)
    obtain ⟨t, ht, hlast⟩ := exists_stage hs' hcov hkeep (fun h1 => hin (by omega))
      (fun v hv => (hdone v hv).1) (by omega)
    exact ⟨t, ht, fun v hv => ⟨(hlast v hv).1, fun j hj =>
      ((hdone v hv).2 j hj).trans ((hlast v hv).2 j hj)⟩⟩

end

theorem Call.exists_push {vs : List ℕ} (hnd : vs.Nodup) (hlt : ∀ v ∈ vs, v < call.numWorker)
    (hhead : ∀ v ∈ vs, (s v).remaining i = staged.drop 2) :
    ∃ t, Reach (call.pushPull false) Free t ∧
      (∀ v ∈ vs, ((t v).remaining i = staged.drop 3 ∧
        call.sent (t v) i c = some ((s v).memory .shared c)) ∧
        ∀ j, j ≠ i → Untouched (s v) (t v) j) ∧
      ∀ v ∉ vs, t v = s v := by
  obtain ⟨task, htask, hc⟩ := hcov
  obtain ⟨t, ht, hrow, hrest⟩ := exists_row hs htask hnd hlt
    (show ∀ v ∈ vs, (s v).remaining i = .push :: staged.drop 3 from hhead)
    fun v _ => by rw [call.perform_push]; rfl
  refine ⟨t, ht, fun v hv => ?_, hrest⟩
  obtain ⟨y, hperf, hy⟩ := hrow v hv
  rw [hy]
  refine ⟨⟨update_self _ _ _, ?_⟩, fun j hj => call.untouched_of_ne hperf hj _⟩
  rw [call.perform_push] at hperf
  cases hperf
  exact sent_push htask hc .shared

end

end Staged

section Race

variable [AddCancelCommMonoid α] {call : Call α} {i j w c : ℕ}

theorem sum_replace_ne {n : ℕ} {f : ℕ → α} {a : α} (hw : w < n) (hne : f w ≠ a) :
    ∑ u ∈ Finset.range n, (if u = w then a else f u) ≠ ∑ u ∈ Finset.range n, f u := by
  have hmem := Finset.mem_range.mpr hw
  intro heq
  rw [← add_sum_erase _ _ hmem, ← add_sum_erase _ f hmem, if_pos rfl] at heq
  have hrest : ∑ u ∈ (Finset.range n).erase w, (if u = w then a else f u) =
      ∑ u ∈ (Finset.range n).erase w, f u :=
    sum_congr rfl fun u hu => if_neg (ne_of_mem_erase hu)
  rw [hrest] at heq
  exact hne (add_right_cancel heq).symm

theorem exists_nodup {k : ℕ} (p : ℕ → Prop) [DecidablePred p] :
    ∃ l : List ℕ, l.Nodup ∧ ∀ x, x ∈ l ↔ x < k ∧ p x :=
  ⟨(List.range k).filter p, nodup_range.filter _, by simp⟩

/-- Two partitions share a cell whose sum is not what worker `w` has there. Worker `w` loads its
cell for the one, and before it pushes it the other one pulls the sum into it. -/
theorem Call.exists_race (hkeep : .input ≠ call.target) (hij : i ≠ j) (hi : call.Covers i c)
    (hj : call.Covers j c) (hw : w < call.numWorker)
    (hne : call.memory w .input c ≠ call.sum c) :
    ∃ s, Reach (call.pushPull false) Free s ∧ call.Finished s ∧
      (s w).memory call.target c ≠ call.sum c := by
  have hstart : Reach (call.pushPull false) Free _ := .init rfl
  have hlist : (call.machine false).queueList 0 = staged.drop 0 := call.queueList_eq false
  -- all other partitions come first
  obtain ⟨ks, hks, hmem⟩ := exists_nodup (k := call.tasks.length) (fun k => k ≠ i ∧ k ≠ j)
  obtain ⟨s₁, h₁, hothers⟩ := exists_partitions_finished hstart hks
    (fun k hk => ((hmem k).mp hk).1) (fun _ _ _ _ => rfl)
  have hnotMem : ∀ k, k = i ∨ k = j → k ∉ ks := fun k hk hin => by
    have := ((hmem k).mp hin).2
    omega
  have hfresh : ∀ k, k = i ∨ k = j → ∀ v < call.numWorker,
      (s₁ v).remaining k = staged.drop 0 := fun k hk v hv =>
    ((hothers v hv).2 k (hnotMem k hk)).1.trans hlist
  have hzero : ∀ (x : WorkerState α) (own total : α) (k : ℕ),
      CellOk call own total c 0 x.memory (call.sent x k c) := fun x own total k =>
    ⟨by omega, by omega, by omega, by omega⟩
  -- everybody loads partition `i`, and all but `w` push it
  obtain ⟨s₂, h₂, hloaded⟩ := exists_stages h₁ hi hkeep (fun _ _ _ => rfl)
    (fun v hv => ⟨hfresh i (.inl rfl) v hv, hzero _ (call.memory v .input c) _ _⟩)
    (by omega : 0 ≤ 2) (by omega)
  obtain ⟨vs, hvs, hmem₃⟩ := exists_nodup (k := call.numWorker) (· ≠ w)
  obtain ⟨s₃, h₃, hpushed, hsame₃⟩ := exists_push h₂ hi hvs (fun v hv => ((hmem₃ v).mp hv).1)
    (fun v hv => (hloaded v ((hmem₃ v).mp hv).1).1.1)
  have hs₃w : s₃ w = s₂ w := hsame₃ w fun hin => ((hmem₃ w).mp hin).2 rfl
  have hkept₃ : ∀ v < call.numWorker, ∀ k, k ≠ i → (s₃ v).remaining k = (s₁ v).remaining k := by
    intro v hv k hk
    rw [← ((hloaded v hv).2 k hk).1]
    by_cases hvw : v = w
    · rw [hvw, hs₃w]
    · exact ((hpushed v ((hmem₃ v).mpr ⟨hv, hvw⟩)).2 k hk).1
  -- partition `j` goes through
  obtain ⟨s₄, h₄, hthrough⟩ := exists_stages h₃ hj hkeep (fun _ _ _ => rfl)
    (fun v hv => ⟨(hkept₃ v hv j hij.symm).trans (hfresh j (.inr rfl) v hv),
      hzero _ (call.memory v .input c) _ _⟩) (by omega : 0 ≤ 6) le_rfl
  -- `w` pushes what the pull of `j` has left in its cell
  have hrem₄ : (s₄ w).remaining i = staged.drop 2 := by
    rw [((hthrough w hw).2 i hij).1, hs₃w]
    exact (hloaded w hw).1.1
  obtain ⟨s₅, h₅, hpushed', hsame₅⟩ := exists_push h₄ hi (nodup_singleton w)
    (fun v hv => List.mem_singleton.mp hv ▸ hw)
    (fun v hv => List.mem_singleton.mp hv ▸ hrem₄)
  have hs₅ : ∀ v, v ≠ w → s₅ v = s₄ v := fun v hv => hsame₅ v (mt List.mem_singleton.mp hv)
  have hkept₅ : ∀ v < call.numWorker, ∀ k, k ≠ i → (s₅ v).remaining k = (s₄ v).remaining k := by
    intro v _ k hk
    by_cases hvw : v = w
    · rw [hvw]
      exact ((hpushed' w (List.mem_singleton_self w)).2 k hk).1
    · rw [hs₅ v hvw]
  have hrow₅ : ∀ v < call.numWorker, (s₅ v).remaining i = staged.drop 3 ∧ call.sent (s₅ v) i c =
        some (if v = w then call.sum c else call.memory v .input c) := by
    intro v hv
    by_cases hvw : v = w
    · subst hvw
      obtain ⟨hrem, hsent⟩ := (hpushed' v (List.mem_singleton_self v)).1
      refine ⟨hrem, ?_⟩
      rw [hsent, if_pos rfl, (hthrough v hv).1.2.pulled (by omega)]
      rfl
    · obtain ⟨hrem, hsent⟩ := (hpushed v ((hmem₃ v).mpr ⟨hv, hvw⟩)).1
      obtain ⟨hrem', hpush'⟩ := (hthrough v hv).2 i hij
      rw [hs₅ v hvw, if_neg hvw]
      refine ⟨hrem'.trans hrem, ?_⟩
      rw [sent_congr hpush', hsent, (hloaded v hv).1.2.loaded rfl]
  obtain ⟨s₆, h₆, hdone⟩ := exists_stages h₅ hi hkeep (fun h => by omega)
    (fun v hv => ⟨(hrow₅ v hv).1, ⟨by omega, fun _ => (hrow₅ v hv).2, by omega, by omega⟩⟩)
    (by omega : 3 ≤ 6) le_rfl
  refine ⟨s₆, h₆, fun v hv k hk => ?_, ?_⟩
  · by_cases hki : k = i
    · subst hki
      exact (hdone v hv).1.1
    rw [((hdone v hv).2 k hki).1, hkept₅ v hv k hki]
    by_cases hkj : k = j
    · subst hkj
      exact (hthrough v hv).1.1
    rw [((hthrough v hv).2 k hkj).1, hkept₃ v hv k hki]
    exact (hothers v hv).1 k ((hmem k).mpr ⟨hk, hki, hkj⟩)
  · rw [(hdone w hw).1.2.stored (by omega)]
    exact sum_replace_ne hw hne

end Race

end MegatronDPU.Worker
