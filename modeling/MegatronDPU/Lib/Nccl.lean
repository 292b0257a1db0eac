import Mathlib.Tactic

/-!
# Collective calls on the buffers of ranks

Every rank has buffers of cells and issues a list of calls, each with a pointer to what it sends and
one to where it receives. A `Library` executes the calls. What it documents (`Library.Conforms`) is
what a call does that all ranks issue with the same operation, root and count; the calls of a rank
are executed in their order. Of calls that do not match nothing is said.

`waiting` is a library that conforms: its ranks wait for calls that match, and never return if these
do not come.
-/

namespace Nccl

open Finset

variable {β α : Type*}

/-- The operations, some with a root. -/
inductive Op
  | reduceScatter
  | reduce (root : ℤ)
  | allGather
  | broadcast (root : ℤ)
  deriving DecidableEq

/-- A call of a rank, with pointers into its buffers. -/
structure Call (β : Type*) where
  op : Op
  send : β × ℕ
  recv : β × ℕ
  /-- The elements of a part, or of the whole if there are no parts. -/
  count : ℕ

/-- The cells of the buffers of each rank. -/
abbrev Memories (β α : Type*) := ℕ → β → ℕ → α

/-- All ranks issue the operation. -/
def Issued (size : ℕ) (calls : ℕ → Call β) (op : Op) (count : ℕ) : Prop :=
  ∀ r < size, (calls r).op = op ∧ (calls r).count = count

instance (size : ℕ) (calls : ℕ → Call β) (op : Op) (count : ℕ) :
    Decidable (Issued size calls op count) :=
  inferInstanceAs (Decidable (∀ r < size, _ ∧ _))

/-- The root is a rank of the communicator. -/
def IsRank (size : ℕ) (root : ℤ) : Prop := 0 ≤ root ∧ root < size

instance (size : ℕ) (root : ℤ) : Decidable (IsRank size root) := inferInstanceAs (Decidable (_ ∧ _))

/-- The root of an operation, if it has one, is a rank. -/
def Op.Valid (size : ℕ) : Op → Prop
  | .reduceScatter | .allGather => True
  | .reduce root | .broadcast root => IsRank size root

instance (size : ℕ) : ∀ op : Op, Decidable (op.Valid size)
  | .reduceScatter | .allGather => instDecidableTrue
  | .reduce root | .broadcast root => inferInstanceAs (Decidable (IsRank size root))

section Effect

variable [DecidableEq β]

/-- Buffers with `n` cells stored at a pointer. -/
def fill (m : β → ℕ → α) (p : β × ℕ) (n : ℕ) (f : ℕ → α) : β → ℕ → α := fun b c =>
  if b = p.1 ∧ p.2 ≤ c ∧ c < p.2 + n then f (c - p.2) else m b c

theorem fill_apply {m : β → ℕ → α} {buf : β} {pos n : ℕ} {f : ℕ → α} {g : ℕ → α}
    (h : ∀ i < n, f i = g (pos + i)) (b : β) (c : ℕ) :
    fill m (buf, pos) n f b c = if b = buf ∧ pos ≤ c ∧ c < pos + n then g c else m b c := by
  unfold fill
  by_cases hc : b = buf ∧ pos ≤ c ∧ c < pos + n
  · rw [if_pos hc, if_pos hc, h _ (by omega), Nat.add_sub_cancel' hc.2.1]
  · rw [if_neg hc, if_neg hc]

variable [AddCommMonoid α]

/-- Element `i` of what a rank sends. -/
def sent (calls : ℕ → Call β) (m : Memories β α) (r i : ℕ) : α :=
  m r (calls r).send.1 ((calls r).send.2 + i)

/-- What an operation on parts of `count` elements does; what is sent is read before anything is
received. -/
def effect (size : ℕ) (calls : ℕ → Call β) (count : ℕ) (m : Memories β α) : Op → Memories β α
  | .reduceScatter => fun r =>
      fill (m r) (calls r).recv count fun i => ∑ k ∈ range size, sent calls m k (r * count + i)
  | .reduce root => fun r =>
      if (r : ℤ) = root then
        fill (m r) (calls r).recv count fun i => ∑ k ∈ range size, sent calls m k i
      else m r
  | .allGather => fun r =>
      fill (m r) (calls r).recv (size * count) fun i => sent calls m (i / count) (i % count)
  | .broadcast root => fun r => fill (m r) (calls r).recv count (sent calls m root.toNat)

/-! ## Libraries -/

/-- What the calls of the ranks make of the buffers; `none` if they do not return. -/
structure Library (β α : Type*) where
  group : ℕ → (ℕ → List (Call β)) → Memories β α → Option (Memories β α)

/-- What is documented of the calls. -/
structure Library.Conforms (lib : Library β α) : Prop where
  /-- Ranks that have no call to make return. -/
  done : ∀ size m, lib.group size (fun _ => []) m = some m
  /-- Rank `r` receives part `r` of the sum of what the ranks send. -/
  reduceScatter : ∀ {size count : ℕ} {calls : ℕ → Call β} {rest : ℕ → List (Call β)}
    {m : Memories β α}, 0 < size → Issued size calls .reduceScatter count →
    lib.group size (fun r => calls r :: rest r) m =
      lib.group size rest (effect size calls count m .reduceScatter)
  /-- The root receives the sum of what the ranks send. -/
  reduce : ∀ {size count : ℕ} {root : ℤ} {calls : ℕ → Call β} {rest : ℕ → List (Call β)}
    {m : Memories β α}, IsRank size root → Issued size calls (.reduce root) count →
    lib.group size (fun r => calls r :: rest r) m =
      lib.group size rest (effect size calls count m (.reduce root))
  /-- All ranks receive what the ranks send, one after the other. -/
  allGather : ∀ {size count : ℕ} {calls : ℕ → Call β} {rest : ℕ → List (Call β)}
    {m : Memories β α}, 0 < size → Issued size calls .allGather count →
    lib.group size (fun r => calls r :: rest r) m =
      lib.group size rest (effect size calls count m .allGather)
  /-- All ranks receive what the root sends. -/
  broadcast : ∀ {size count : ℕ} {root : ℤ} {calls : ℕ → Call β} {rest : ℕ → List (Call β)}
    {m : Memories β α}, IsRank size root → Issued size calls (.broadcast root) count →
    lib.group size (fun r => calls r :: rest r) m =
      lib.group size rest (effect size calls count m (.broadcast root))

variable {size : ℕ} {m m' : Memories β α}

/-! ## A library that waits -/

/-- A call of all ranks. -/
def run (size : ℕ) (calls : ℕ → Call β) (m : Memories β α) : Option (Memories β α) :=
  if Issued size calls (calls 0).op (calls 0).count ∧ (calls 0).op.Valid size then
    some (effect size calls (calls 0).count m (calls 0).op)
  else none

/-- The calls that the ranks have issued, given those of rank 0. -/
def groupFrom (size : ℕ) : List (Call β) → (ℕ → List (Call β)) → Memories β α →
    Option (Memories β α)
  | [], calls, m => if ∀ r < size, (calls r).isEmpty then some m else none
  | c :: cs, calls, m =>
    if ∀ r < size, ¬(calls r).isEmpty then
      (run size (fun r => (calls r).headD c) m).bind (groupFrom size cs fun r => (calls r).tail)
    else none

/-- Ranks wait for each other in every call. -/
def waiting : Library β α where
  group size calls m := groupFrom size (calls 0) calls m

theorem waiting_group_cons (call : ℕ → Call β) (rest : ℕ → List (Call β)) :
    waiting.group size (fun r => call r :: rest r) m =
      (run size call m).bind (waiting.group size rest) := by
  simp only [waiting, groupFrom, List.isEmpty_cons, Bool.false_eq_true, not_false_eq_true,
    implies_true, if_true, List.headD_cons, List.tail_cons]

theorem run_of_issued {calls : ℕ → Call β} {op : Op} {count : ℕ} (hsize : 0 < size)
    (h : Issued size calls op count) (hvalid : op.Valid size) :
    run size calls m = some (effect size calls count m op) := by
  obtain ⟨rfl, rfl⟩ := h 0 hsize
  exact if_pos ⟨h, hvalid⟩

theorem IsRank.size_pos {root : ℤ} (h : IsRank size root) : 0 < size := by
  have := h.1.trans_lt h.2
  omega

theorem waiting_conforms : (waiting : Library β α).Conforms where
  done size m := by simp [waiting, groupFrom]
  reduceScatter hsize h := by
    rw [waiting_group_cons, run_of_issued hsize h trivial]
    rfl
  reduce hroot h := by
    rw [waiting_group_cons, run_of_issued hroot.size_pos h hroot]
    rfl
  allGather hsize h := by
    rw [waiting_group_cons, run_of_issued hsize h trivial]
    rfl
  broadcast hroot h := by
    rw [waiting_group_cons, run_of_issued hroot.size_pos h hroot]
    rfl

/-- The ranks of the library that waits return from a call only if they have all issued it. -/
theorem of_waiting_group_cons {call : ℕ → Call β} {rest : ℕ → List (Call β)}
    (h : waiting.group size (fun r => call r :: rest r) m = some m') :
    Issued size call (call 0).op (call 0).count ∧ (call 0).op.Valid size := by
  rw [waiting_group_cons] at h
  obtain ⟨_, hrun, -⟩ := Option.bind_eq_some_iff.mp h
  unfold run at hrun
  split_ifs at hrun with hissued
  exact hissued

/-! ## Calls in place -/

namespace Library.Conforms

variable {lib : Library β α} (h : lib.Conforms) {rest : ℕ → List (Call β)}
include h

theorem reduceScatter_parts (hsize : 0 < size) (src dst : β) (count : ℕ) :
    lib.group size
      (fun r => ⟨.reduceScatter, (src, 0), (dst, r * count), count⟩ :: rest r) m =
      lib.group size rest fun r b c =>
        if b = dst ∧ r * count ≤ c ∧ c < r * count + count then
          ∑ k ∈ range size, m k src c else m r b c := by
  have hissued : Issued size (fun r => ⟨.reduceScatter, (src, 0), (dst, r * count), count⟩)
      .reduceScatter count := fun r _ => ⟨rfl, rfl⟩
  refine (h.reduceScatter hsize hissued).trans ?_
  congr 1
  funext r b c
  simp only [effect]
  exact fill_apply (g := fun c => ∑ k ∈ range size, m k src c) (fun i _ => by simp [sent]) b c

theorem allGather_parts (hsize : 0 < size) (buf : β) (count : ℕ) :
    lib.group size (fun r => ⟨.allGather, (buf, r * count), (buf, 0), count⟩ :: rest r) m =
      lib.group size rest fun r b c =>
        if b = buf ∧ c < size * count then m (c / count) buf c else m r b c := by
  have hissued : Issued size (fun r => ⟨.allGather, (buf, r * count), (buf, 0), count⟩)
      .allGather count := fun r _ => ⟨rfl, rfl⟩
  refine (h.allGather hsize hissued).trans ?_
  congr 1
  funext r b c
  simp only [effect]
  refine (fill_apply (g := fun c => m (c / count) buf c) (fun i _ => ?_) b c).trans ?_
  · rw [sent, Nat.div_add_mod', zero_add]
  · simp only [zero_add, zero_le, true_and]

variable {root : ℕ → ℤ} (hsame : ∀ r < size, root r = root 0) (hroot : IsRank size (root 0))
include hsame hroot

theorem reduce_at (src dst : β) (pos count : ℕ) :
    lib.group size (fun r => ⟨.reduce (root r), (src, pos), (dst, pos), count⟩ :: rest r) m =
      lib.group size rest fun (r : ℕ) b c =>
        if (r : ℤ) = root 0 ∧ b = dst ∧ pos ≤ c ∧ c < pos + count then
          ∑ k ∈ range size, m k src c else m r b c := by
  have hissued : Issued size (fun r => ⟨.reduce (root r), (src, pos), (dst, pos), count⟩)
      (.reduce (root 0)) count := fun r hr => ⟨congrArg Op.reduce (hsame r hr), rfl⟩
  refine (h.reduce hroot hissued).trans ?_
  congr 1
  funext r b c
  simp only [effect]
  by_cases hr : (r : ℤ) = root 0
  · simp only [hr, true_and]
    exact fill_apply (g := fun c => ∑ k ∈ range size, m k src c) (fun i _ => rfl) b c
  · rw [if_neg hr, if_neg fun hc => hr hc.1]

theorem broadcast_at (buf : β) (pos count : ℕ) :
    lib.group size (fun r => ⟨.broadcast (root r), (buf, pos), (buf, pos), count⟩ :: rest r) m =
      lib.group size rest fun r b c =>
        if b = buf ∧ pos ≤ c ∧ c < pos + count then m (root 0).toNat buf c else m r b c := by
  have hissued : Issued size (fun r => ⟨.broadcast (root r), (buf, pos), (buf, pos), count⟩)
      (.broadcast (root 0)) count := fun r hr => ⟨congrArg Op.broadcast (hsame r hr), rfl⟩
  refine (h.broadcast hroot hissued).trans ?_
  congr 1
  funext r b c
  simp only [effect]
  exact fill_apply (g := fun c => m (root 0).toNat buf c) (fun i _ => rfl) b c

end Library.Conforms

end Effect

end Nccl
