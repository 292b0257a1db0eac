import MegatronDPU.Lib.Heap
import MegatronDPU.Compressor.Sparse

/-!
# Top-k

`CompressImpl` of the top-k compressor keeps the pairs of the largest magnitudes in a heap whose
root is the smallest of them. The first `k` elements are pushed; a later one replaces the root if it
is larger. `Kept x k m heap` says what the heap is after `m` elements; each step keeps it
(`Kept.step`), so at the end the heap has `k` distinct positions, none of them with a smaller
magnitude than a position left out (`topk_keeps_largest`).
-/

namespace MegatronDPU.Compressor

open BinHeap List Nat Option

variable {α : Type} [AddCommGroup α] [LinearOrder α]

/-- The comparison of the heap: the larger magnitude is the smaller element. -/
def comp (lhs rhs : ℕ × α) : Bool := decide (|rhs.2| < |lhs.2|)

/-- The body of the loop, for element `i`. `popHeap` gives the root `*beg`, which is compared, and
the heap that `std::pop_heap` leaves in front of it. -/
def topkStep (d : FloatType) (k : ℕ) (heap : List (ℕ × α)) (i : ℕ) (v : α) : List (ℕ × α) :=
  if i < k then pushHeap comp heap (makePair d i v)
  else
    match popHeap comp heap with
    | some (top, rest) => if |top.2| < |v| then pushHeap comp rest (makePair d i v) else heap
    | none => heap

/-- The loop from element `i` on. -/
def topkLoop (d : FloatType) (k : ℕ) : ℕ → List (ℕ × α) → List α → List (ℕ × α)
  | _, heap, [] => heap
  | i, heap, v :: src => topkLoop d k (i + 1) (topkStep d k heap i v) src

/-- `CompressImpl` of the top-k compressor. -/
def topkCompress (d : FloatType) (k : ℕ) (src : List α) : Option (List (ℕ × α)) :=
  if k ≤ src.length / 2 then some (topkLoop d k 0 [] src) else none

/-! ## The heap -/

omit [AddCommGroup α] in
theorem strictWeak_lt (f : ℕ × α → α) : StrictWeak fun a b : ℕ × α => decide (f b < f a) where
  asymm a b h := by simpa using (of_decide_eq_true h).le
  negTrans a b c hab hbc := by
    simp only [decide_eq_false_iff_not, not_lt] at *
    exact hab.trans hbc

theorem strictWeak_comp : StrictWeak (comp (α := α)) := strictWeak_lt fun p => |p.2|

/-- The heap after the first `m` elements of `x`. -/
structure Kept (x : List α) (k m : ℕ) (heap : List (ℕ × α)) : Prop where
  isHeap : IsHeap comp heap
  length : heap.length = min m k
  nodup : (heap.map Prod.fst).Nodup
  mem : ∀ p ∈ heap, p.1 < m ∧ x[p.1]? = some p.2
  all : m ≤ k → ∀ j < m, j ∈ heap.map Prod.fst
  largest : ∀ p ∈ heap, ∀ j < m, j ∉ heap.map Prod.fst → ∀ v ∈ x[j]?, |v| ≤ |p.2|

variable {d : FloatType} {x : List α} {k m : ℕ} {heap : List (ℕ × α)} {v : α}

theorem kept_nil (x : List α) (k : ℕ) : Kept x k 0 [] where
  isHeap := by simp [IsHeap]
  length := (zero_min k).symm
  nodup := nodup_nil
  mem := nofun
  all _ j hj := absurd hj (not_lt_zero j)
  largest := nofun

theorem Kept.lt_of_mem (h : Kept x k m heap) {j : ℕ} (hj : j ∈ heap.map Prod.fst) : j < m := by
  obtain ⟨p, hp, rfl⟩ := mem_map.mp hj
  exact (h.mem p hp).1

/-- Until there are `k` elements each one goes into the heap. -/
theorem Kept.push (h : Kept x k m heap) (hm : m < k) (hv : x[m]? = some v) :
    Kept x k (m + 1) (pushHeap comp heap (m, v)) := by
  have hperm := pushHeap_perm comp heap (m, v)
  have hpos : ((pushHeap comp heap (m, v)).map Prod.fst).Perm (m :: heap.map Prod.fst) :=
    hperm.map Prod.fst
  have hall : ∀ j < m + 1, j ∈ (pushHeap comp heap (m, v)).map Prod.fst := by
    intro j hj
    rw [hpos.mem_iff, mem_cons]
    rcases Nat.lt_succ_iff_lt_or_eq.mp hj with hlt | rfl
    · exact .inr (h.all hm.le j hlt)
    · exact .inl rfl
  refine ⟨isHeap_pushHeap strictWeak_comp h.isHeap _, ?_, ?_, fun p hp => ?_, fun _ => hall,
    fun p _ j hj hnot => absurd (hall j hj) hnot⟩
  · rw [hperm.length_eq, length_cons, h.length]
    omega
  · rw [hpos.nodup_iff, nodup_cons]
    exact ⟨fun hmem => lt_irrefl m (h.lt_of_mem hmem), h.nodup⟩
  · rcases mem_cons.mp (hperm.mem_iff.mp hp) with rfl | hp
    · exact ⟨lt_succ_self m, hv⟩
    · exact ⟨(h.mem p hp).1.trans (lt_succ_self m), (h.mem p hp).2⟩

variable {rest : List (ℕ × α)} {top : ℕ × α}

theorem Kept.root_le (h : Kept x k m heap) (hpop : popHeap comp heap = some (top, rest))
    {p : ℕ × α} (hp : p ∈ heap) : |top.2| ≤ |p.2| := by
  have hmax := h.isHeap.root_max strictWeak_comp (popHeap_root hpop) hp
  simpa [comp] using hmax

section

variable (h : Kept x k m heap) (hm : k ≤ m) (hv : x[m]? = some v)
  (hpop : popHeap comp heap = some (top, rest))
include h hm hv hpop

theorem Kept.replace (hlt : |top.2| < |v|) : Kept x k (m + 1) (pushHeap comp rest (m, v)) := by
  have hheap := popHeap_perm hpop
  have hperm := pushHeap_perm comp rest (m, v)
  have hpos : ((pushHeap comp rest (m, v)).map Prod.fst).Perm (m :: rest.map Prod.fst) :=
    hperm.map Prod.fst
  have hold : (heap.map Prod.fst).Perm (top.1 :: rest.map Prod.fst) := hheap.map Prod.fst
  have hrest : ∀ p ∈ rest, p ∈ heap := fun p hp =>
    hheap.mem_iff.mpr (mem_cons_of_mem _ hp)
  have htop : top ∈ heap := hheap.mem_iff.mpr mem_cons_self
  refine ⟨isHeap_pushHeap strictWeak_comp (isHeap_popHeap strictWeak_comp h.isHeap hpop) _, ?_, ?_,
    fun p hp => ?_, fun hk => absurd hk (by omega), fun p hp j hj hnot u hu => ?_⟩
  · have := h.length
    rw [hheap.length_eq, length_cons] at this
    rw [hperm.length_eq, length_cons]
    omega
  · have hnodup := hold.nodup_iff.mp h.nodup
    rw [hpos.nodup_iff, nodup_cons]
    refine ⟨fun hmem => lt_irrefl m (h.lt_of_mem ?_), (nodup_cons.mp hnodup).2⟩
    exact hold.mem_iff.mpr (mem_cons_of_mem _ hmem)
  · rcases mem_cons.mp (hperm.mem_iff.mp hp) with rfl | hp
    · exact ⟨lt_succ_self m, hv⟩
    · have := h.mem p (hrest p hp)
      exact ⟨this.1.trans (lt_succ_self m), this.2⟩
  · rw [hpos.mem_iff, mem_cons, not_or] at hnot
    -- what is left out is at most the old root
    have hu_top : |u| ≤ |top.2| := by
      by_cases hj_top : j = top.1
      · have hx := (h.mem top htop).2
        rw [hj_top, hx] at hu
        rw [some.inj hu]
      · refine h.largest top htop j (by omega) ?_ u hu
        rw [hold.mem_iff, mem_cons, not_or]
        exact ⟨hj_top, hnot.2⟩
    rcases mem_cons.mp (hperm.mem_iff.mp hp) with rfl | hp
    · exact hu_top.trans hlt.le
    · exact hu_top.trans (h.root_le hpop (hrest p hp))

theorem Kept.skip (hle : |v| ≤ |top.2|) : Kept x k (m + 1) heap := by
  refine ⟨h.isHeap, by rw [h.length]; omega, h.nodup,
    fun p hp => ⟨(h.mem p hp).1.trans (lt_succ_self m), (h.mem p hp).2⟩,
    fun hk => absurd hk (by omega), fun p hp j hj hnot u hu => ?_⟩
  rcases Nat.lt_succ_iff_lt_or_eq.mp hj with hlt | rfl
  · exact h.largest p hp j hlt hnot u hu
  · rw [hv] at hu
    rw [← some.inj hu]
    exact hle.trans (h.root_le hpop hp)

end

/-- One more element enters the heap or is no larger than those in it. -/
theorem Kept.step (h : Kept x k m heap) (hk : 0 < k) (hv : x[m]? = some v)
    (hm : m < 2 ^ (8 * d.bytes)) : Kept x k (m + 1) (topkStep d k heap m v) := by
  rw [topkStep, makePair, mod_eq_of_lt hm]
  split_ifs with hlt
  · exact h.push hlt hv
  · have hkm := Nat.not_lt.mp hlt
    cases hpop : popHeap comp heap with
    | none =>
      -- the heap is not empty
      have hlen := h.length
      cases heap with
      | nil =>
        rw [length_nil] at hlen
        omega
      | cons p heap => cases heap <;> cases hpop
    | some pair =>
      obtain ⟨top, rest⟩ := pair
      show Kept x k (m + 1) (if |top.2| < |v| then pushHeap comp rest (m, v) else heap)
      split_ifs with hlarger
      · exact h.replace hkm hv hpop hlarger
      · exact h.skip hkm hv hpop (not_lt.mp hlarger)

/-- The loop over the rest of the elements. -/
theorem Kept.loop {src : List α} (h : Kept x k m heap) (hk : 0 < k) (hsrc : x.drop m = src)
    (hn : x.length ≤ 2 ^ (8 * d.bytes)) : Kept x k (m + src.length) (topkLoop d k m heap src) := by
  induction src generalizing m heap with
  | nil => exact h
  | cons v src ih =>
    have hv : x[m]? = some v := by
      rw [← add_zero m, ← getElem?_drop, hsrc]
      rfl
    have hm : m < x.length := (List.getElem?_eq_some_iff.mp hv).1
    have hrest : x.drop (m + 1) = src := by
      rw [← drop_drop, hsrc, drop_one, tail_cons]
    have hnext := ih (h.step hk hv (hm.trans_le hn)) hrest
    rwa [add_right_comm] at hnext

/-! ## The compressed tensor -/

/-- Top-k of at most half the elements, when positions fit a word: `k` distinct positions with the
largest magnitudes are kept; decompression gives the tensor there and zeros elsewhere; the error is
the tensor elsewhere and zero there. -/
theorem topk_keeps_largest (hk : 1 ≤ k) (hkn : k ≤ x.length / 2)
    (hn : x.length ≤ 2 ^ (8 * d.bytes)) (beyond : List α) :
    ∃ pairs, topkCompress d k x = some pairs ∧ pairs.length = k ∧
      (pairs.map Prod.fst).Nodup ∧
      (∀ p ∈ pairs, p.1 < x.length ∧ x.getD p.1 0 = p.2) ∧
      (∀ p ∈ pairs, ∀ j < x.length, j ∉ pairs.map Prod.fst → |x.getD j 0| ≤ |p.2|) ∧
      ∀ i < x.length,
        (decompressPairs d x.length pairs).getD i 0 =
          (if i ∈ pairs.map Prod.fst then x.getD i 0 else 0) ∧
        (fastUpdateError d x.length (x ++ beyond) pairs).getD i 0 =
          (if i ∈ pairs.map Prod.fst then 0 else x.getD i 0) ∧
        (decompressPairs d x.length pairs).getD i 0 +
          (fastUpdateError d x.length (x ++ beyond) pairs).getD i 0 = x.getD i 0 := by
  have h := (kept_nil x k).loop (d := d) hk (drop_zero) hn
  rw [zero_add] at h
  have hsel : Selects x (topkLoop d k 0 [] x) := fun p hp => (h.mem p hp).2
  refine ⟨_, if_pos hkn, ?_, h.nodup, fun p hp => ⟨(h.mem p hp).1, ?_⟩, fun p hp j hj hnot => ?_,
    fun i hi => ⟨getD_decompressPairs hsel hi, getD_fastUpdateError hsel hi beyond,
      decompressPairs_add_fastUpdateError hsel hi beyond⟩⟩
  · rw [h.length]
    omega
  · rw [getD_eq_getElem?_getD, hsel p hp, getD_some]
  · refine h.largest p hp j hj hnot _ ?_
    rw [getD_eq_getElem?_getD, getElem?_eq_getElem hj]
    rfl

theorem topk_keeps_largest_fourElements :
    ∃ pairs, topkCompress .fp16 2 [(5 : ℤ), -7, 0, 3] = some pairs ∧ pairs.length = 2 := by
  obtain ⟨pairs, hpairs, hlen, -⟩ := topk_keeps_largest (d := .fp16) (x := [(5 : ℤ), -7, 0, 3])
    (k := 2) (by decide) (by decide) (by decide) []
  exact ⟨pairs, hpairs, hlen⟩

/-- The largest of one element is refused: the check allows half of them. -/
theorem topk_single_refused : 1 ≤ 1 ∧ topkCompress .fp32 1 [(5 : ℤ)] = none := ⟨le_rfl, rfl⟩

end MegatronDPU.Compressor
