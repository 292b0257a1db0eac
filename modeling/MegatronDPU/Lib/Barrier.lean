import Mathlib.Tactic

/-!
# Rounds of a fixed set of members

In every round each member contributes once; the contributions are processed in order of arrival,
and when the last one is, every member may have its answer. A member contributes to the next round
once it has been answered, so the `late` members still wait for the answer of the last completed
round, and the others are in the round that is being filled.
-/

variable {ι : Type*} [DecidableEq ι]

/-- An answer, or the end of a round. -/
inductive BarrierEvent (ι : Type*)
  | answered (member : ι) (round : ℕ)
  | completed
  deriving DecidableEq

theorem mem_of_nodup_of_length_eq {l : List ι} {members : Finset ι} (hnd : l.Nodup)
    (hmem : ∀ w ∈ l, w ∈ members) (hlen : l.length = members.card) {w : ι} (hw : w ∈ members) :
    w ∈ l := by
  rw [← List.toFinset_card_of_nodup hnd] at hlen
  have heq : l.toFinset = members := Finset.eq_of_subset_of_card_le
    (fun v hv => hmem v (List.mem_toFinset.mp hv)) hlen.ge
  rw [← heq] at hw
  exact List.mem_toFinset.mp hw

structure Barrier (members : Finset ι) where
  /-- Completed rounds. -/
  done : ℕ
  /-- Members that contributed to the current round, in order of arrival. -/
  order : List ι
  /-- Members that asked for the answer of the current round and are held back. -/
  held : List ι
  /-- Members that still wait for the answer of the last completed round. -/
  late : Finset ι
  /-- Processed contributions of the current round. -/
  processed : ℕ
  log : List (BarrierEvent ι)
  order_nodup : order.Nodup
  order_mem : ∀ w ∈ order, w ∈ members
  held_nodup : held.Nodup
  held_mem : ∀ w ∈ held, w ∈ order
  late_subset : late ⊆ members
  late_order : ∀ w ∈ late, w ∉ order
  late_done : done = 0 → late = ∅
  processed_le : processed ≤ order.length
  log_answers : ∀ w r, log.count (.answered w r) =
    if w ∈ members ∧ r < (if w ∈ late then done - 1 else done) then 1 else 0
  log_completed : log.count .completed = done
  log_order : ∀ pre w r post, log = pre ++ .answered w r :: post → r < pre.count .completed

namespace Barrier

open BarrierEvent Finset List

variable {members : Finset ι}

def start (members : Finset ι) : Barrier members where
  done := 0
  order := []
  held := []
  late := ∅
  processed := 0
  log := []
  order_nodup := .nil
  order_mem := by simp
  held_nodup := .nil
  held_mem := by simp
  late_subset := by simp
  late_order := by simp
  late_done := fun _ => rfl
  processed_le := le_rfl
  log_answers := by simp
  log_completed := rfl
  log_order := by simp

theorem order_length_le (b : Barrier members) : b.order.length ≤ members.card := by
  rw [← toFinset_card_of_nodup b.order_nodup]
  exact card_le_card fun w hw => b.order_mem w (mem_toFinset.mp hw)

theorem mem_order_of_full (b : Barrier members) (h : b.order.length = members.card) {w : ι}
    (hw : w ∈ members) : w ∈ b.order :=
  mem_of_nodup_of_length_eq b.order_nodup b.order_mem h hw

theorem late_of_full (b : Barrier members) (h : b.order.length = members.card) : b.late = ∅ := by
  rw [eq_empty_iff_forall_notMem]
  intro w hw
  exact b.late_order w hw (b.mem_order_of_full h (b.late_subset hw))

/-- A member contributes to the round. -/
def push (b : Barrier members) (w : ι) (hw : w ∈ members) (ho : w ∉ b.order) (hl : w ∉ b.late) :
    Barrier members :=
  { b with
    order := b.order ++ [w]
    order_nodup := by
      rw [← concat_eq_append]
      exact b.order_nodup.concat ho
    order_mem := by
      intro v hv
      rcases mem_append.mp hv with hv | hv
      · exact b.order_mem v hv
      · exact List.mem_singleton.mp hv ▸ hw
    held_mem := fun v hv => mem_append_left _ (b.held_mem v hv)
    late_order := by
      intro v hv hvo
      rcases mem_append.mp hvo with hvo | hvo
      · exact b.late_order v hv hvo
      · exact hl (List.mem_singleton.mp hvo ▸ hv)
    processed_le := b.processed_le.trans (by simp) }

/-- A member asks before the round is complete. -/
def hold (b : Barrier members) (w : ι) (ho : w ∈ b.order) (hh : w ∉ b.held) : Barrier members :=
  { b with
    held := b.held ++ [w]
    held_nodup := by
      rw [← concat_eq_append]
      exact b.held_nodup.concat hh
    held_mem := by
      intro v hv
      rcases mem_append.mp hv with hv | hv
      · exact b.held_mem v hv
      · exact List.mem_singleton.mp hv ▸ ho }

/-- The next contribution is taken into account. -/
def process (b : Barrier members) (h : b.processed < b.order.length) : Barrier members :=
  { b with processed := b.processed + 1, processed_le := h }

theorem log_order_append {log : List (BarrierEvent ι)}
    (h : ∀ pre w r post, log = pre ++ answered w r :: post → r < pre.count completed)
    {new : List (BarrierEvent ι)}
    (hnew : ∀ pre w r post, new = pre ++ answered w r :: post →
      r < log.count completed + pre.count completed) :
    ∀ pre w r post, log ++ new = pre ++ answered w r :: post → r < pre.count completed := by
  intro pre w r post heq
  rcases append_eq_append_iff.mp heq with ⟨mid, rfl, hmid⟩ | ⟨mid, rfl, hmid⟩
  · rw [count_append]
    exact hnew mid w r post hmid
  · cases mid with
    | nil =>
      have := hnew [] w r post hmid.symm
      simpa using this
    | cons e mid =>
      obtain ⟨rfl, -⟩ := cons_eq_cons.mp hmid
      exact h pre w r mid rfl

section

variable (b : Barrier members)
include b

theorem done_ne_zero_of_late {w : ι} (hw : w ∈ b.late) : b.done ≠ 0 := by
  intro h
  simp [b.late_done h] at hw

theorem log_answers_answer {w : ι} (hw : w ∈ b.late) (v : ι) (r : ℕ) :
    (b.log ++ [answered w (b.done - 1)]).count (answered v r) =
      if v ∈ members ∧ r < (if v ∈ b.late.erase w then b.done - 1 else b.done) then 1 else 0 := by
  have hdone := b.done_ne_zero_of_late hw
  rw [count_append, b.log_answers v r, count_singleton]
  by_cases hv : v = w
  · subst hv
    simp only [b.late_subset hw, hw, notMem_erase, true_and, if_true, if_false,
      beq_iff_eq, answered.injEq]
    split_ifs <;> omega
  · simp [mem_erase, hv, Ne.symm hv]

theorem log_order_answer {w : ι} (hw : w ∈ b.late) :
    ∀ pre v r post, b.log ++ [answered w (b.done - 1)] = pre ++ answered v r :: post →
      r < pre.count completed := by
  have hdone := b.done_ne_zero_of_late hw
  refine log_order_append b.log_order ?_
  intro pre v r post heq
  cases pre with
  | nil =>
    obtain ⟨h, -⟩ := cons_eq_cons.mp heq
    cases h
    rw [b.log_completed, count_nil]
    omega
  | cons e pre => simp at heq

/-- A member that is late gets the result of the last round. -/
def answer (b : Barrier members) (w : ι) (hw : w ∈ b.late) : Barrier members :=
  { b with
    late := b.late.erase w
    log := b.log ++ [answered w (b.done - 1)]
    late_subset := (Finset.erase_subset _ _).trans b.late_subset
    late_order := fun v hv => b.late_order v (Finset.mem_of_mem_erase hv)
    late_done := fun h => by simp [b.late_done h]
    log_answers := b.log_answers_answer hw
    log_completed := by simp [b.log_completed]
    log_order := b.log_order_answer hw }

theorem count_held (w : ι) (r : ℕ) : (b.held.map fun w => answered w b.done).count (answered w r) =
      if w ∈ b.held ∧ r = b.done then 1 else 0 := by
  by_cases hr : r = b.done
  · subst hr
    have hinj : Function.Injective fun w : ι => answered w b.done :=
      fun _ _ h => by simpa using h
    rw [count_map_of_injective b.held _ hinj w]
    by_cases hw : w ∈ b.held
    · simp [hw, count_eq_one_of_mem b.held_nodup hw]
    · simp [hw, count_eq_zero_of_not_mem hw]
  · rw [count_eq_zero_of_not_mem (by simp [Ne.symm hr]), if_neg fun h => hr h.2]

theorem log_answers_complete (hfull : b.order.length = members.card) (w : ι) (r : ℕ) :
    (b.log ++ completed :: b.held.map fun w => answered w b.done).count (answered w r) =
      if w ∈ members ∧ r < (if w ∈ members \ b.held.toFinset then b.done + 1 - 1 else b.done + 1)
      then 1 else 0 := by
  have hmem : w ∈ b.held → w ∈ members := fun h => b.order_mem w (b.held_mem w h)
  rw [count_append, count_cons_of_ne (by simp), b.count_held, b.log_answers w r,
    b.late_of_full hfull]
  by_cases hw : w ∈ members <;> by_cases hh : w ∈ b.held
  · simp only [hw, hh, true_and, notMem_empty, if_false, mem_sdiff, mem_toFinset, not_true_eq_false]
    split_ifs <;> omega
  · simp [hw, hh]
  · exact absurd (hmem hh) hw
  · simp [hw, hh]

theorem log_order_complete : ∀ pre w r post,
      b.log ++ (.completed :: b.held.map fun w => answered w b.done) =
        pre ++ answered w r :: post → r < pre.count completed := by
  refine log_order_append b.log_order ?_
  intro pre w r post heq
  rw [b.log_completed]
  cases pre with
  | nil => simp at heq
  | cons e pre =>
    obtain ⟨rfl, htail⟩ := cons_eq_cons.mp heq
    have hr : answered w r ∈ b.held.map fun w => answered w b.done :=
      htail ▸ mem_append_right pre List.mem_cons_self
    obtain ⟨v, -, hv⟩ := List.mem_map.mp hr
    cases hv
    rw [count_cons_self]
    omega

theorem log_completed_complete :
    (b.log ++ completed :: b.held.map fun w => answered w b.done).count completed =
      b.done + 1 := by
  have : (b.held.map fun w => answered w b.done).count completed = 0 :=
    count_eq_zero_of_not_mem (by simp)
  rw [count_append, count_cons_self, this, b.log_completed]

end

/-- The last contribution is processed: the round is completed and the held members get their
answers; the others are late. -/
def complete (b : Barrier members) (hfull : b.order.length = members.card) : Barrier members where
  done := b.done + 1
  order := []
  held := []
  late := members \ b.held.toFinset
  processed := 0
  log := b.log ++ completed :: b.held.map fun w => answered w b.done
  order_nodup := .nil
  order_mem := by simp
  held_nodup := .nil
  held_mem := by simp
  late_subset := sdiff_subset
  late_order := by simp
  late_done := by simp
  processed_le := le_rfl
  log_answers := b.log_answers_complete hfull
  log_completed := b.log_completed_complete
  log_order := b.log_order_complete

end Barrier
