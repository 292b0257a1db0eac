import MegatronDPU.Lib.Launch
import MegatronDPU.Lib.RootedTree

/-!
# Building the draft tree

`build_tree_efficient` turns the draft tokens selected for each request into the arrays that the
target model and the verifier read. One thread per node writes the mask row and the position of its
node; the thread of the root also links the children of all nodes.

Arrays are flat memories. The offsets into the mask are computed in `int`, and a store outside of
the mask does not return; the other numbers (lengths, tokens, places in the lists) are taken to fit
in an `int`. A thread runs to its end before the next one starts: no thread reads what another
writes.
-/

namespace MegatronDPU.Eagle

open Finset Function List

/-- An integer stored in an `int`. -/
def int32 (x : ℤ) : ℤ := x.bmod (2 ^ 32)

theorem int32_add_left (x y : ℤ) : int32 (int32 x + y) = int32 (x + y) := Int.bmod_add_bmod

theorem int32_of_lt {x : ℕ} (h : x < 2 ^ 31) : int32 x = x :=
  Int.bmod_eq_of_le (by omega) (by omega)

theorem int32_neg {x : ℕ} (hle : 2 ^ 31 ≤ x) (hlt : x < 2 ^ 32) : int32 x < 0 := by
  have hwrap : int32 x = x - 2 ^ 32 := by
    rw [int32, ← Int.sub_bmod_right]
    exact Int.bmod_eq_of_le (by omega) (by omega)
  omega

/-- `TreeMaskMode`. -/
inductive TreeMaskMode
  | fullMask
  | qlenOnly
  | qlenOnlyBitpacking
  deriving DecidableEq, Repr

/-- What the kernel reads. Positions in `parentList` are integers, as `depth` may be zero. -/
structure TreeInput where
  parentList : ℤ → ℤ
  selectedIndex : ℕ → ℕ
  verifiedSeqLen : ℕ → ℕ
  topk : ℕ
  depth : ℕ
  draftTokenNum : ℕ
  treeMaskMode : TreeMaskMode

/-- What the kernel writes. -/
structure TreeBuffers where
  treeMask : ℕ → Bool
  positions : ℕ → ℤ
  retriveIndex : ℕ → ℤ
  retriveNextToken : ℕ → ℤ
  retriveNextSibling : ℕ → ℤ

namespace TreeInput

variable (a : TreeInput) (bid : ℕ)

/-! ## The kernel -/

/-- An entry of `selected_index` of the request. -/
def selected (pos : ℕ) : ℕ := a.selectedIndex (bid * (a.draftTokenNum - 1) + pos)

/-- The entry of the parent list for a token; `topk` is positive in every launch. -/
def parentTbIdx (pos : ℕ) : ℕ := a.selected bid pos / a.topk

/-- The token that the parent list names. -/
def parentTokenIdx (pos : ℕ) : ℤ :=
  a.parentList (bid * (a.topk * (a.depth - 1 : ℤ) + 1) + a.parentTbIdx bid pos)

/-- The linear search of both kinds of threads; `draftTokenNum` where it finds nothing. -/
def search (tokenIdx : ℤ) : ℕ :=
  (List.range a.draftTokenNum).findIdx fun pos => (a.selected bid pos : ℤ) = tokenIdx

/-- The node under which the root's thread links node `i`. -/
def parentPosition (i : ℕ) : ℕ :=
  if 0 < a.parentTbIdx bid (i - 1) then
    let pos := a.search bid (a.parentTokenIdx bid (i - 1))
    if pos < a.draftTokenNum then pos + 1 else pos
  else 0

/-- A round of the loop of the root's thread. -/
def linkToken (i : ℕ) (m : TreeBuffers) : TreeBuffers :=
  let row := bid * a.draftTokenNum
  let m := { m with retriveIndex := update m.retriveIndex (row + i) (row + i : ℕ) }
  let parent := a.parentPosition bid i
  -- the token without a selected parent is only reported
  if parent = a.draftTokenNum then m
  else if m.retriveNextToken (row + parent) = -1 then
    { m with retriveNextToken := update m.retriveNextToken (row + parent) i }
  else
    { m with
      retriveNextToken := update m.retriveNextToken (row + parent) i
      retriveNextSibling :=
        update m.retriveNextSibling (row + i) (m.retriveNextToken (row + parent)) }

/-- The loop of the root's thread, from the last node to the first. -/
def linkTokens (m : TreeBuffers) : TreeBuffers :=
  (range' 1 (a.draftTokenNum - 1)).foldr (a.linkToken bid) m

/-- The columns of a mask row that come before those of the draft. -/
def seqColumns : ℕ := if a.treeMaskMode = .fullMask then a.verifiedSeqLen bid else 0

/-- The elements of `tree_mask` for `bs` requests. -/
def maskSize (bs : ℕ) : ℕ :=
  ∑ i ∈ Finset.range bs, (a.seqColumns i + a.draftTokenNum) * a.draftTokenNum

/-- `tree_mask[idx] = v`. -/
def storeMask (bs : ℕ) (idx : ℤ) (v : Bool) (mask : ℕ → Bool) : Option (ℕ → Bool) :=
  if 0 ≤ idx ∧ idx < a.maskSize bs then some (update mask idx.toNat v) else none

/-- Where the rows of the request start. -/
def seqTreeIdx : ℤ :=
  (List.range bid).foldl (fun idx i => int32 (idx + a.verifiedSeqLen i * a.draftTokenNum))
    (int32 (a.draftTokenNum * a.draftTokenNum * bid))

/-- The column after the root in the row of a node. -/
def tokenTreeIdx (tid : ℕ) : ℤ :=
  let seqLen := a.verifiedSeqLen bid
  if a.treeMaskMode = .fullMask then
    int32 (a.seqTreeIdx bid + (seqLen + a.draftTokenNum) * tid + seqLen + 1)
  else int32 (a.draftTokenNum * a.draftTokenNum * bid + a.draftTokenNum * tid + 1)

/-- The `while (true)` of the other threads; `none` where it needs more than `fuel` rounds. -/
def markAncestors (bs : ℕ) (tokenTreeIdx : ℤ) :
    ℕ → ℕ → ℕ → (ℕ → Bool) → Option (ℕ × (ℕ → Bool))
  | 0, _, _, _ => none
  | fuel + 1, cur, position, mask =>
    let position := position + 1
    (a.storeMask bs (int32 (tokenTreeIdx + cur)) true mask).bind fun mask =>
      if a.parentTbIdx bid cur = 0 then some (position, mask)
      else
        markAncestors bs tokenTreeIdx fuel (a.search bid (a.parentTokenIdx bid cur)) position mask

/-- The row of a thread with the root marked only. -/
def clearMask (bs tid : ℕ) (mask : ℕ → Bool) : Option (ℕ → Bool) :=
  (a.storeMask bs (int32 (a.tokenTreeIdx bid tid - 1)) true mask).bind fun mask =>
    (List.range (a.draftTokenNum - 1)).foldlM
      (fun mask (i : ℕ) => a.storeMask bs (int32 (a.tokenTreeIdx bid tid + i)) false mask) mask

/-- Thread `tid` of block `bid`. -/
def thread (bs fuel : ℕ) (t : ℕ × ℕ) (m : TreeBuffers) : Option TreeBuffers :=
  let (bid, tid) := t
  if a.draftTokenNum ≤ tid then some m
  else
    let row := bid * a.draftTokenNum
    let seqLen : ℤ := a.verifiedSeqLen bid
    (a.clearMask bid bs tid m.treeMask).bind fun mask =>
      if tid = 0 then
        let m := { m with treeMask := mask, positions := update m.positions row seqLen }
        let m := a.linkTokens bid m
        some { m with retriveIndex := update m.retriveIndex row (row : ℕ) }
      else
        (a.markAncestors bid bs (a.tokenTreeIdx bid tid) fuel (tid - 1) 0 mask).map fun r =>
          { m with
            treeMask := r.2
            positions := update m.positions (row + tid) (r.1 + seqLen) }

/-- The grid of the launch: a block per request, a thread per node. -/
def grid (bs : ℕ) : List (ℕ × ℕ) := List.range bs ×ˢ List.range a.draftTokenNum

/-- `build_tree_efficient` with its threads in the given order. -/
def buildTreeEfficient (bs fuel : ℕ) (threads : List (ℕ × ℕ)) (m : TreeBuffers) :
    Option TreeBuffers :=
  launch (a.thread bs fuel) threads m

/-! ## The tree of a selection -/

/-- The node of the first selected token that is the parent of node `i`; the root is the parent of
the first drafted tokens. -/
def parentNode (i : ℕ) : ℕ :=
  if i = 0 ∨ a.parentTbIdx bid (i - 1) = 0 then 0
  else (List.range (a.draftTokenNum - 1)).findIdx
    (fun pos => (a.selected bid pos : ℤ) = a.parentTokenIdx bid (i - 1)) + 1

/-- The parent of every selected token is the root or selected, and the parents lead to the
root. -/
structure IsTree : Prop where
  parent_selected : ∀ i, 0 < i → i < a.draftTokenNum → a.parentTbIdx bid (i - 1) ≠ 0 →
    ∃ pos < a.draftTokenNum - 1, (a.selected bid pos : ℤ) = a.parentTokenIdx bid (i - 1)
  leads : ∀ i < a.draftTokenNum, ∃ k, (a.parentNode bid)^[k] i = 0

variable {a bid}

variable {i bid' tid tid' fuel bs : ℕ} {m m' : TreeBuffers} {t t' : ℕ × ℕ}

theorem parentNode_of_first (h : a.parentTbIdx bid (i - 1) = 0) :
    a.parentNode bid i = 0 := if_pos (.inr h)

/-- A selected parent is found at its first place, also by the search of the kernel, which looks at
one place more than the selection has. -/
theorem exists_parentNode (h0 : 0 < i) (htb : a.parentTbIdx bid (i - 1) ≠ 0)
    (hsel : ∃ pos < a.draftTokenNum - 1, (a.selected bid pos : ℤ) = a.parentTokenIdx bid (i - 1)) :
    ∃ pos < a.draftTokenNum - 1, a.parentNode bid i = pos + 1 ∧
      (a.selected bid pos : ℤ) = a.parentTokenIdx bid (i - 1) ∧
      a.search bid (a.parentTokenIdx bid (i - 1)) = pos := by
  obtain ⟨pos, hpos, heq⟩ := hsel
  have hfound : (List.range (a.draftTokenNum - 1)).findIdx
      (fun pos => (a.selected bid pos : ℤ) = a.parentTokenIdx bid (i - 1)) <
      (List.range (a.draftTokenNum - 1)).length :=
    findIdx_lt_length_of_exists ⟨pos, List.mem_range.mpr hpos, by simpa using heq⟩
  have hval := findIdx_getElem (w := hfound)
  rw [getElem_range, decide_eq_true_eq] at hval
  have hrange : List.range a.draftTokenNum =
      List.range (a.draftTokenNum - 1) ++ [a.draftTokenNum - 1] := by
    rw [← range_succ]
    congr 1
    omega
  refine ⟨_, hfound.trans_eq length_range, ?_, hval, ?_⟩
  · rw [parentNode, if_neg (by omega)]
  · rw [search, hrange, findIdx_append, if_pos hfound]

theorem IsTree.search_spec (h : a.IsTree bid) (h0 : 0 < i) (hi : i < a.draftTokenNum)
    (htb : a.parentTbIdx bid (i - 1) ≠ 0) :
    a.search bid (a.parentTokenIdx bid (i - 1)) + 1 = a.parentNode bid i ∧
      a.parentNode bid i < a.draftTokenNum := by
  obtain ⟨pos, hpos, hnode, -, hsearch⟩ := exists_parentNode h0 htb (h.parent_selected i h0 hi htb)
  omega

theorem IsTree.parentPosition_eq (h : a.IsTree bid) (h0 : 0 < i) (hi : i < a.draftTokenNum) :
    a.parentPosition bid i = a.parentNode bid i := by
  rw [parentPosition]
  split_ifs with htb
  · obtain ⟨hsearch, hlt⟩ := h.search_spec h0 hi htb.ne'
    rw [if_pos (by omega), hsearch]
  · exact (parentNode_of_first (by omega)).symm

theorem IsTree.parentNode_lt (h : a.IsTree bid) (hi : i < a.draftTokenNum) :
    a.parentNode bid i < a.draftTokenNum := by
  by_cases h0 : i = 0 ∨ a.parentTbIdx bid (i - 1) = 0
  · rw [parentNode, if_pos h0]
    omega
  · obtain ⟨hi0, htb⟩ := not_or.mp h0
    exact (h.search_spec (by omega) hi htb).2

/-- The tree of a request. -/
def tree (h : a.IsTree bid) : RootedTree a.draftTokenNum where
  parent := a.parentNode bid
  parent_lt := fun _ hi => h.parentNode_lt hi
  reaches := h.leads
  parent_zero := if_pos (.inl rfl)

/-- The parents lead to the root if every token was drafted after its parent: entry `k` of the
parent list then names a token before `k * topk`, where the tokens of that entry start. -/
theorem isTree_of_drafted
    (hsel : ∀ i, 0 < i → i < a.draftTokenNum → a.parentTbIdx bid (i - 1) ≠ 0 →
      ∃ pos < a.draftTokenNum - 1, (a.selected bid pos : ℤ) = a.parentTokenIdx bid (i - 1))
    (hdraft : ∀ pos < a.draftTokenNum - 1, a.parentTbIdx bid pos ≠ 0 →
      a.parentTokenIdx bid pos < (a.parentTbIdx bid pos * a.topk : ℕ)) : a.IsTree bid := by
  refine ⟨hsel, ?_⟩
  -- strong induction on the place of the token in the draft
  have key : ∀ v i, 0 < i → i < a.draftTokenNum → a.selected bid (i - 1) = v →
      ∃ k, (a.parentNode bid)^[k] i = 0 := by
    intro v
    induction v using Nat.strong_induction_on with
    | _ v ih =>
      intro i h0 hi hv
      by_cases htb : a.parentTbIdx bid (i - 1) = 0
      · exact ⟨1, parentNode_of_first htb⟩
      · obtain ⟨pos, hpos, hnode, heq, -⟩ := exists_parentNode h0 htb (hsel i h0 hi htb)
        have hless := hdraft (i - 1) (by omega) htb
        have hdiv : a.parentTbIdx bid (i - 1) * a.topk ≤ v := by
          rw [← hv]
          exact Nat.div_mul_le_self _ _
        obtain ⟨k, hk⟩ := ih (a.selected bid pos) (by omega) (pos + 1) (by omega) (by omega) rfl
        rw [← hnode] at hk
        exact ⟨k + 1, by rw [iterate_succ_apply, hk]⟩
  intro i hi
  rcases Nat.eq_zero_or_pos i with rfl | h0
  · exact ⟨0, rfl⟩
  · exact key _ i h0 hi rfl

/-! ## Mask rows -/

/-- Where the row of a node starts in the documented layout of the mask, with the column of the
root: after the rows of the requests before, the rows of the nodes before and the columns of the
sequence. -/
def maskStart (a : TreeInput) (bid tid : ℕ) : ℕ :=
  a.maskSize bid + (a.seqColumns bid + a.draftTokenNum) * tid + a.seqColumns bid

theorem seqTreeIdx_eq : a.seqTreeIdx bid = int32 (∑ i ∈ Finset.range bid,
    (a.verifiedSeqLen i + a.draftTokenNum) * a.draftTokenNum : ℕ) := by
  have hfold : ∀ n (s : ℤ), (List.range n).foldl
      (fun idx i => int32 (idx + a.verifiedSeqLen i * a.draftTokenNum)) (int32 s) =
      int32 (s + ∑ i ∈ Finset.range n, (a.verifiedSeqLen i * a.draftTokenNum : ℤ)) := by
    intro n s
    induction n with
    | zero => simp
    | succ n ih =>
      rw [range_succ, foldl_append, ih, foldl_cons, foldl_nil, int32_add_left,
        Finset.sum_range_succ, add_assoc]
  rw [seqTreeIdx, hfold]
  congr 1
  push_cast
  simp only [add_mul, sum_add_distrib, sum_const, card_range, nsmul_eq_mul]
  ring

/-- The offset of the kernel is the documented one, as an `int`. -/
theorem tokenTreeIdx_eq (tid : ℕ) :
    a.tokenTreeIdx bid tid = int32 (a.maskStart bid tid + 1 : ℕ) := by
  unfold tokenTreeIdx maskStart maskSize seqColumns
  split_ifs with hmode
  · rw [seqTreeIdx_eq]
    simp only [add_assoc, int32_add_left]
    rfl
  · simp only [zero_add, sum_const, card_range, smul_eq_mul]
    push_cast
    ring_nf

theorem maskSize_succ (bs : ℕ) : a.maskSize (bs + 1) =
    a.maskSize bs + (a.seqColumns bs + a.draftTokenNum) * a.draftTokenNum :=
  Finset.sum_range_succ _ _

theorem maskSize_mono {bs bs' : ℕ} (h : bs ≤ bs') : a.maskSize bs ≤ a.maskSize bs' :=
  sum_le_sum_of_subset (range_mono h)

theorem maskStart_add_le_size (hlt : bid < bs) (htid : tid < a.draftTokenNum) :
    a.maskStart bid tid + a.draftTokenNum ≤ a.maskSize bs := by
  have hrow : (a.seqColumns bid + a.draftTokenNum) * (tid + 1) ≤
      (a.seqColumns bid + a.draftTokenNum) * a.draftTokenNum := Nat.mul_le_mul_left _ htid
  have hbase := a.maskSize_mono (Nat.succ_le_of_lt hlt)
  rw [Nat.succ_eq_add_one, maskSize_succ] at hbase
  rw [mul_add, mul_one] at hrow
  unfold maskStart
  omega

theorem maskStart_add_le (hlt : bid < bid') (htid : tid < a.draftTokenNum) :
    a.maskStart bid tid + a.draftTokenNum ≤ a.maskStart bid' tid' := by
  refine (maskStart_add_le_size hlt htid).trans ?_
  unfold maskStart
  omega

theorem maskStart_add_le_row (hlt : tid < tid') :
    a.maskStart bid tid + a.draftTokenNum ≤ a.maskStart bid tid' := by
  have hrow : (a.seqColumns bid + a.draftTokenNum) * (tid + 1) ≤
      (a.seqColumns bid + a.draftTokenNum) * tid' := Nat.mul_le_mul_left _ hlt
  rw [mul_add, mul_one] at hrow
  unfold maskStart
  omega

theorem maskStart_disjoint (hne : (bid', tid') ≠ (bid, tid)) (htid : tid < a.draftTokenNum)
    (htid' : tid' < a.draftTokenNum) :
    a.maskStart bid' tid' + a.draftTokenNum ≤ a.maskStart bid tid ∨
      a.maskStart bid tid + a.draftTokenNum ≤ a.maskStart bid' tid' := by
  rcases lt_trichotomy bid bid' with hlt | rfl | hlt
  · exact .inr (maskStart_add_le hlt htid)
  · rcases lt_trichotomy tid tid' with hlt | rfl | hlt
    · exact .inr (maskStart_add_le_row hlt)
    · exact absurd rfl hne
    · exact .inl (maskStart_add_le_row hlt)
  · exact .inl (maskStart_add_le hlt htid')

theorem foldl_update_range {β : Type*} (f : ℕ → β) (b k : ℕ) (v : β) (x : ℕ) :
    (List.range k).foldl (fun f i => update f (b + i) v) f x =
      if b ≤ x ∧ x < b + k then v else f x := by
  induction k with
  | zero => exact (if_neg (by omega)).symm
  | succ k ih =>
    rw [range_succ, foldl_append, foldl_cons, foldl_nil, update_apply, ih]
    split_ifs <;> first | rfl | omega

theorem int32_cell (tid : ℕ) (j : ℤ) :
    int32 (a.tokenTreeIdx bid tid + j) = int32 (a.maskStart bid tid + 1 + j) := by
  rw [tokenTreeIdx_eq, int32_add_left, Nat.cast_add, Nat.cast_one]

section Stores

variable (hsize : a.maskSize bs ≤ 2 ^ 31) (hbid : bid < bs) (htid : tid < a.draftTokenNum)
include hsize hbid htid

/-- In a mask of at most `2 ^ 31` elements every store hits the documented place. -/
theorem storeMask_cell {idx : ℤ} {j : ℕ} (hj : j < a.draftTokenNum)
    (hidx : int32 idx = int32 (a.maskStart bid tid + j : ℕ)) (v : Bool) (mask : ℕ → Bool) :
    a.storeMask bs (int32 idx) v mask = some (update mask (a.maskStart bid tid + j) v) := by
  have hrow := a.maskStart_add_le_size hbid htid
  rw [storeMask, hidx, int32_of_lt (by omega), if_pos (by omega), Int.toNat_natCast]

theorem exists_clearMask (mask : ℕ → Bool) : ∃ mask', a.clearMask bid bs tid mask = some mask' ∧
    ∀ x, mask' x = if a.maskStart bid tid < x ∧ x < a.maskStart bid tid + a.draftTokenNum then false
      else if x = a.maskStart bid tid then true else mask x := by
  have hfold : ∀ k < a.draftTokenNum, ∀ mask : ℕ → Bool, (List.range k).foldlM
      (fun mask (i : ℕ) => a.storeMask bs (int32 (a.tokenTreeIdx bid tid + i)) false mask) mask =
      some ((List.range k).foldl
        (fun mask i => update mask (a.maskStart bid tid + 1 + i) false) mask) := by
    intro k
    induction k with
    | zero => exact fun _ _ => rfl
    | succ k ih =>
      intro hk mask
      have hcell : int32 (a.tokenTreeIdx bid tid + k) =
          int32 (a.maskStart bid tid + (k + 1) : ℕ) := by
        rw [int32_cell]
        push_cast
        ring_nf
      have hstore := storeMask_cell hsize hbid htid hk hcell false
      rw [range_succ, foldlM_append, ih (by omega), foldl_append, Option.bind_eq_bind,
        Option.bind_some, foldlM_cons, hstore, add_comm k, ← add_assoc]
      rfl
  have hroot : int32 (a.tokenTreeIdx bid tid - 1) = int32 (a.maskStart bid tid + 0 : ℕ) := by
    rw [sub_eq_add_neg, int32_cell]
    push_cast
    ring_nf
  refine ⟨_, by rw [clearMask, storeMask_cell hsize hbid htid (by omega) hroot, Option.bind_some,
    hfold _ (by omega)], fun x => ?_⟩
  · rw [foldl_update_range, update_apply, add_zero]
    split_ifs <;> first | rfl | omega

end Stores

/-- The walk of a thread from its node ends after as many rounds as the node is deep, and has marked
the columns of the node and of its ancestors but the root. -/
theorem markAncestors_spec (h : a.IsTree bid) (hsize : a.maskSize bs ≤ 2 ^ 31) (hbid : bid < bs)
    (htid : tid < a.draftTokenNum) (h0 : 0 < i) (hi : i < a.draftTokenNum)
    (hfuel : (tree h).depth i ≤ fuel) (position : ℕ) (mask : ℕ → Bool) :
    ∃ mask', a.markAncestors bid bs (a.tokenTreeIdx bid tid) fuel (i - 1) position mask =
        some (position + (tree h).depth i, mask') ∧
      ∀ x, mask' x = true ↔ mask x = true ∨
        ∃ j, j ≠ 0 ∧ (tree h).Above i j ∧ x = a.maskStart bid tid + j := by
  induction fuel generalizing i position mask with
  | zero =>
    have hdepth := (tree h).depth_parent hi h0.ne'
    omega
  | succ fuel ih =>
    have hdepth : (tree h).depth i = (tree h).depth (a.parentNode bid i) + 1 :=
      (tree h).depth_parent hi h0.ne'
    have hstore : a.storeMask bs (int32 (a.tokenTreeIdx bid tid + (i - 1 : ℕ))) true mask =
        some (update mask (a.maskStart bid tid + i) true) := by
      refine storeMask_cell hsize hbid htid hi ?_ true mask
      rw [int32_cell]
      congr 1
      omega
    have hmark : ∀ x, update mask (a.maskStart bid tid + i) true x = true ↔
        mask x = true ∨ x = a.maskStart bid tid + i := by
      intro x
      rw [update_apply]
      split_ifs with hx
      · simp [hx]
      · simp [hx]
    rw [markAncestors]
    simp only [hstore, Option.bind_some]
    by_cases htb : a.parentTbIdx bid (i - 1) = 0
    · -- the parent is the root
      have hroot := parentNode_of_first htb
      rw [hroot, (tree h).depth_zero] at hdepth
      refine ⟨update mask (a.maskStart bid tid + i) true, by rw [if_pos htb, hdepth], fun x => ?_⟩
      rw [hmark x]
      refine or_congr_right ⟨fun hx => ⟨i, h0.ne', ⟨0, rfl⟩, hx⟩, ?_⟩
      rintro ⟨j, hj0, habove, rfl⟩
      rcases (tree h).above_iff.mp habove with rfl | habove
      · rfl
      · have habove : (tree h).Above 0 j := hroot ▸ habove
        exact absurd ((tree h).above_root_iff.mp habove) hj0
    · obtain ⟨hsearch, hlt⟩ := h.search_spec h0 hi htb
      obtain ⟨mask', hrun, hmask'⟩ := ih (i := a.parentNode bid i) (by omega) hlt (by omega)
        (position + 1) (update mask (a.maskStart bid tid + i) true)
      refine ⟨mask', ?_, fun x => ?_⟩
      · rw [if_neg htb, hdepth, ← add_assoc, add_right_comm position]
        rwa [← hsearch, Nat.add_sub_cancel, hsearch] at hrun
      · rw [hmask' x, hmark x, or_assoc]
        refine or_congr_right ⟨?_, ?_⟩
        · rintro (rfl | ⟨j, hj0, habove, rfl⟩)
          · exact ⟨i, h0.ne', ⟨0, rfl⟩, rfl⟩
          · exact ⟨j, hj0, (tree h).above_iff.mpr (.inr habove), rfl⟩
        · rintro ⟨j, hj0, habove, rfl⟩
          rcases (tree h).above_iff.mp habove with rfl | habove
          · exact .inl rfl
          · exact .inr ⟨j, hj0, habove, rfl⟩

/-! ## Links -/

/-- `m'` is `m` with the nodes from `i` on linked below their parents. -/
structure LinkedFrom (h : a.IsTree bid) (i : ℕ) (m m' : TreeBuffers) : Prop where
  treeMask : m'.treeMask = m.treeMask
  positions : m'.positions = m.positions
  index : ∀ c, i ≤ c → c < a.draftTokenNum →
    m'.retriveIndex (bid * a.draftTokenNum + c) = (bid * a.draftTokenNum + c : ℕ)
  links : ∀ p < a.draftTokenNum,
    Links (fun c => m'.retriveNextSibling (bid * a.draftTokenNum + c))
      (m'.retriveNextToken (bid * a.draftTokenNum + p)) ((tree h).childrenFrom i p)
  unlinked : ∀ c < i, c < a.draftTokenNum →
    m'.retriveNextSibling (bid * a.draftTokenNum + c) = -1
  outside : ∀ x, x < bid * a.draftTokenNum ∨ bid * a.draftTokenNum + a.draftTokenNum ≤ x →
    m'.retriveIndex x = m.retriveIndex x ∧ m'.retriveNextToken x = m.retriveNextToken x ∧
      m'.retriveNextSibling x = m.retriveNextSibling x

/-- The links of the request are still `-1`. -/
def Unlinked (a : TreeInput) (bid : ℕ) (m : TreeBuffers) : Prop :=
  ∀ c < a.draftTokenNum, m.retriveNextToken (bid * a.draftTokenNum + c) = -1 ∧
    m.retriveNextSibling (bid * a.draftTokenNum + c) = -1

theorem linkedFrom_end (h : a.IsTree bid) (hm : a.Unlinked bid m) :
    LinkedFrom h a.draftTokenNum m m where
  treeMask := rfl
  positions := rfl
  index := fun c hge hlt => absurd hlt (by omega)
  links := by
    intro p hp
    rw [RootedTree.childrenFrom, Nat.sub_self]
    exact (hm p hp).1
  unlinked := fun c _ hc => (hm c hc).2
  outside := fun x _ => ⟨rfl, rfl, rfl⟩

/-- Both branches put the child in front: the sibling of a node that is not yet linked is `-1`. -/
theorem linkToken_eq (hlt : a.parentPosition bid i < a.draftTokenNum)
    (hsib : m.retriveNextSibling (bid * a.draftTokenNum + i) = -1) :
    a.linkToken bid i m =
      { m with
        retriveIndex := update m.retriveIndex (bid * a.draftTokenNum + i)
          (bid * a.draftTokenNum + i : ℕ)
        retriveNextToken := update m.retriveNextToken
          (bid * a.draftTokenNum + a.parentPosition bid i) i
        retriveNextSibling := update m.retriveNextSibling (bid * a.draftTokenNum + i)
          (m.retriveNextToken (bid * a.draftTokenNum + a.parentPosition bid i)) } := by
  rw [linkToken]
  simp only [if_neg hlt.ne]
  split_ifs with hfirst
  · rw [hfirst, ← hsib, update_eq_self]
  · rfl

/-- One more node is linked below its parent. -/
theorem LinkedFrom.step {h : a.IsTree bid} (h0 : 0 < i) (hi : i < a.draftTokenNum)
    (hm : LinkedFrom h (i + 1) m m') : LinkedFrom h i m (a.linkToken bid i m') := by
  have hpar := h.parentPosition_eq h0 hi
  have hlt := h.parentNode_lt hi
  rw [linkToken_eq (hpar ▸ hlt) (hm.unlinked i (by omega) hi), hpar]
  refine ⟨hm.treeMask, hm.positions, ?_, ?_, ?_, ?_⟩
  · intro c hge hc
    show update _ _ _ _ = _
    rcases Nat.eq_or_lt_of_le hge with rfl | hgt
    · exact update_self ..
    · rw [update_of_ne (by omega)]
      exact hm.index c hgt hc
  · intro p hp
    -- the siblings of the nodes after `i` keep their links
    have hkeep : Links (fun c => update m'.retriveNextSibling
        (bid * a.draftTokenNum + i) (m'.retriveNextToken
          (bid * a.draftTokenNum + a.parentNode bid i)) (bid * a.draftTokenNum + c))
        (m'.retriveNextToken (bid * a.draftTokenNum + p)) ((tree h).childrenFrom (i + 1) p) := by
      refine links_congr (hm.links p hp) fun c hc => ?_
      have hgt := (mem_range'_1.mp (List.mem_filter.mp hc).1).1
      exact update_of_ne (by omega) ..
    rw [(tree h).childrenFrom_succ hi h0.ne']
    show Links _ (update m'.retriveNextToken _ (i : ℤ) (bid * a.draftTokenNum + p))
      (if a.parentNode bid i = p then _ else _)
    split_ifs with hp'
    · subst hp'
      refine ⟨update_self .., ?_⟩
      show Links _ (update m'.retriveNextSibling _ _ (bid * a.draftTokenNum + i)) _
      rw [update_self]
      exact hkeep
    · rw [update_of_ne (by omega)]
      exact hkeep
  · intro c hc hlt'
    show update _ _ _ _ = _
    rw [update_of_ne (by omega)]
    exact hm.unlinked c (by omega) hlt'
  · intro x hx
    obtain ⟨h₁, h₂, h₃⟩ := hm.outside x hx
    refine ⟨?_, ?_, ?_⟩
    · exact (update_of_ne (by omega) ..).trans h₁
    · exact (update_of_ne (by omega) ..).trans h₂
    · exact (update_of_ne (by omega) ..).trans h₃

theorem linkTokens_spec (h : a.IsTree bid) (hpos : 0 < a.draftTokenNum) (hm : a.Unlinked bid m) :
    LinkedFrom h 1 m (a.linkTokens bid m) := by
  have key : ∀ k i, 0 < i → i + k = a.draftTokenNum →
      LinkedFrom h i m ((range' i k).foldr (a.linkToken bid) m) := by
    intro k
    induction k with
    | zero =>
      intro i _ hi
      obtain rfl : i = a.draftTokenNum := hi
      exact linkedFrom_end h hm
    | succ k ih =>
      intro i h0 hi
      rw [range'_succ, foldr_cons]
      exact (ih (i + 1) (by omega) (by omega)).step h0 (by omega)
  exact key _ 1 one_pos (by omega)

/-! ## Threads -/

/-- Mask row and position of a node: its ancestors and its depth. -/
structure NodeWritten (h : a.IsTree bid) (tid : ℕ) (m : TreeBuffers) : Prop where
  treeMask : ∀ j < a.draftTokenNum,
    m.treeMask (a.maskStart bid tid + j) = true ↔ (tree h).Above tid j
  position : m.positions (bid * a.draftTokenNum + tid) =
    (a.verifiedSeqLen bid + (tree h).depth tid : ℕ)

/-- The links enumerate the children of each node. -/
structure LinksWritten (h : a.IsTree bid) (m : TreeBuffers) : Prop where
  index : ∀ i < a.draftTokenNum,
    m.retriveIndex (bid * a.draftTokenNum + i) = (bid * a.draftTokenNum + i : ℕ)
  links : ∀ p < a.draftTokenNum,
    Links (fun c => m.retriveNextSibling (bid * a.draftTokenNum + c))
      (m.retriveNextToken (bid * a.draftTokenNum + p)) ((tree h).children p)

/-- A thread writes its mask row and its position, the root's thread also the links of its
request. -/
structure Frame (a : TreeInput) (t : ℕ × ℕ) (m m' : TreeBuffers) : Prop where
  treeMask : ∀ x, x < a.maskStart t.1 t.2 ∨ a.maskStart t.1 t.2 + a.draftTokenNum ≤ x →
    m'.treeMask x = m.treeMask x
  positions : ∀ x, x ≠ t.1 * a.draftTokenNum + t.2 → m'.positions x = m.positions x
  links : ∀ x, t.2 ≠ 0 ∨ x < t.1 * a.draftTokenNum ∨
      t.1 * a.draftTokenNum + a.draftTokenNum ≤ x →
    m'.retriveIndex x = m.retriveIndex x ∧ m'.retriveNextToken x = m.retriveNextToken x ∧
      m'.retriveNextSibling x = m.retriveNextSibling x

theorem thread_root (h : a.IsTree bid) (hsize : a.maskSize bs ≤ 2 ^ 31) (hbid : bid < bs)
    (hpos : 0 < a.draftTokenNum) (fuel : ℕ) (hm : a.Unlinked bid m) :
    ∃ m', a.thread bs fuel (bid, 0) m = some m' ∧ NodeWritten h 0 m' ∧
      LinksWritten h m' ∧ a.Frame (bid, 0) m m' := by
  obtain ⟨mask, hclear, hmask⟩ := exists_clearMask hsize hbid hpos m.treeMask
  have hlink := linkTokens_spec h hpos (m := { m with
    treeMask := mask
    positions := update m.positions (bid * a.draftTokenNum) (a.verifiedSeqLen bid) }) hm
  rw [thread]
  simp only [if_neg hpos.not_ge, hclear, Option.bind_some, if_true]
  refine ⟨_, rfl, ⟨fun j hj => ?_, ?_⟩, ⟨fun i hi => ?_, fun p hp => ?_⟩,
    ⟨fun x hx => ?_, fun x hx => ?_, fun x hx => ?_⟩⟩
  · rw [hlink.treeMask, (tree h).above_root_iff]
    show mask _ = true ↔ _
    rw [hmask]
    split_ifs with h₁ h₂
    · exact ⟨fun hf => absurd hf (by decide), fun hj0 => absurd h₁ (by omega)⟩
    · exact ⟨fun _ => by omega, fun _ => rfl⟩
    · omega
  · rw [hlink.positions, (tree h).depth_zero]
    exact update_self ..
  · show update _ _ _ _ = _
    rcases Nat.eq_zero_or_pos i with rfl | h0
    · exact update_self ..
    · rw [update_of_ne (by omega)]
      exact hlink.index i h0 hi
  · rw [← RootedTree.childrenFrom_one]
    exact hlink.links p hp
  · have hx : x < a.maskStart bid 0 ∨ a.maskStart bid 0 + a.draftTokenNum ≤ x := hx
    rw [hlink.treeMask]
    show mask x = _
    rw [hmask, if_neg (by omega), if_neg (by omega)]
  · rw [hlink.positions]
    exact update_of_ne hx ..
  · have hx : x < bid * a.draftTokenNum ∨ bid * a.draftTokenNum + a.draftTokenNum ≤ x := by
      simpa using hx
    obtain ⟨h₁, h₂, h₃⟩ := hlink.outside x hx
    exact ⟨(update_of_ne (by omega) ..).trans h₁, h₂, h₃⟩

theorem thread_node (h : a.IsTree bid) (hsize : a.maskSize bs ≤ 2 ^ 31) (hbid : bid < bs)
    (h0 : 0 < tid) (htid : tid < a.draftTokenNum) (hfuel : a.draftTokenNum ≤ fuel)
    (m : TreeBuffers) :
    ∃ m', a.thread bs fuel (bid, tid) m = some m' ∧ NodeWritten h tid m' ∧
      a.Frame (bid, tid) m m' := by
  have hdepth := (tree h).depth_lt htid
  obtain ⟨cleared, hclear, hcleared⟩ := exists_clearMask hsize hbid htid m.treeMask
  obtain ⟨mask, hrun, hmask⟩ := markAncestors_spec h hsize hbid htid h0 htid
    (hdepth.le.trans hfuel) 0 cleared
  rw [thread]
  simp only [if_neg htid.not_ge, hclear, Option.bind_some, if_neg h0.ne', hrun, Option.map_some]
  refine ⟨_, rfl, ⟨fun j hj => ?_, ?_⟩,
    ⟨fun x hx => ?_, fun x hx => ?_, fun x _ => ⟨rfl, rfl, rfl⟩⟩⟩
  · rw [hmask, hcleared]
    rcases Nat.eq_zero_or_pos j with rfl | hj0
    · rw [if_neg (by omega), if_pos (add_zero _)]
      exact ⟨fun _ => (tree h).above_zero htid, fun _ => .inl rfl⟩
    · rw [if_pos (by omega)]
      constructor
      · rintro (hf | ⟨j', -, habove, heq⟩)
        · exact absurd hf (by decide)
        · obtain rfl : j = j' := by omega
          exact habove
      · exact fun habove => .inr ⟨j, hj0.ne', habove, rfl⟩
  · show update _ _ _ _ = _
    rw [update_self]
    push_cast
    ring
  · have hx : x < a.maskStart bid tid ∨ a.maskStart bid tid + a.draftTokenNum ≤ x := hx
    have hsame : cleared x = m.treeMask x := by
      rw [hcleared, if_neg (by omega), if_neg (by omega)]
    rw [Bool.eq_iff_iff, hmask, hsame]
    refine or_iff_left ?_
    rintro ⟨j, -, ⟨k, rfl⟩, rfl⟩
    have := (tree h).iterate_parent_lt htid k
    omega
  · exact update_of_ne hx ..

/-- What a thread needs. -/
def Ready (a : TreeInput) (t : ℕ × ℕ) (m : TreeBuffers) : Prop := t.2 = 0 → a.Unlinked t.1 m

/-- What a thread leaves. -/
def Written (a : TreeInput) (t : ℕ × ℕ) (m : TreeBuffers) : Prop :=
  ∀ h : a.IsTree t.1, NodeWritten h t.2 m ∧ (t.2 = 0 → LinksWritten h m)

theorem row_disjoint {n bid c : ℕ} (hne : bid' ≠ bid) (hc : c < n) :
    bid' * n + c < bid * n ∨ bid * n + n ≤ bid' * n + c := by
  rcases Nat.lt_or_gt_of_ne hne with hlt | hlt
  all_goals
    have := Nat.mul_le_mul_right n (Nat.succ_le_of_lt hlt)
    rw [Nat.succ_mul] at this
    omega

section

variable (hf : a.Frame t m m') (hne : t' ≠ t)
include hf hne

theorem Frame.links_other (h0 : t'.2 = 0) {c : ℕ} (hc : c < a.draftTokenNum) :
    m'.retriveIndex (t'.1 * a.draftTokenNum + c) = m.retriveIndex (t'.1 * a.draftTokenNum + c) ∧
      m'.retriveNextToken (t'.1 * a.draftTokenNum + c) =
        m.retriveNextToken (t'.1 * a.draftTokenNum + c) ∧
      m'.retriveNextSibling (t'.1 * a.draftTokenNum + c) =
        m.retriveNextSibling (t'.1 * a.draftTokenNum + c) := by
  apply hf.links
  by_cases ht : t.2 = 0
  · exact .inr (row_disjoint (fun heq => hne (Prod.ext heq (h0.trans ht.symm))) hc)
  · exact .inl ht

theorem Frame.ready (hr : a.Ready t' m) : a.Ready t' m' := by
  intro h0 c hc
  obtain ⟨-, hnext, hsib⟩ := hf.links_other hne h0 hc
  rw [hnext, hsib]
  exact hr h0 c hc

theorem Frame.written (ht : t.2 < a.draftTokenNum) (ht' : t'.2 < a.draftTokenNum)
    (hw : a.Written t' m) : a.Written t' m' := by
  intro h
  obtain ⟨⟨hmask, hposition⟩, hlinks⟩ := hw h
  refine ⟨⟨fun j hj => ?_, ?_⟩, fun h0 => ?_⟩
  · have hrows := maskStart_disjoint hne ht ht'
    rw [hf.treeMask _ (by omega)]
    exact hmask j hj
  · rw [hf.positions _ fun heq => ?_]
    · exact hposition
    · by_cases hbid : t'.1 = t.1
      · rw [hbid] at heq
        exact hne (Prod.ext hbid (by omega))
      · have := row_disjoint hbid ht'
        omega
  · obtain ⟨hindex, hchain⟩ := hlinks h0
    refine ⟨fun i hi => ?_, fun p hp => ?_⟩
    · rw [(hf.links_other hne h0 hi).1]
      exact hindex i hi
    · rw [(hf.links_other hne h0 hp).2.1]
      refine links_congr (hchain p hp) fun c hc => ?_
      exact (hf.links_other hne h0 ((tree h).mem_children.mp hc).1).2.2

end

theorem mem_grid : t ∈ a.grid bs ↔ t.1 < bs ∧ t.2 < a.draftTokenNum := by
  obtain ⟨bid, tid⟩ := t
  exact pair_mem_product.trans (and_congr List.mem_range List.mem_range)

theorem nodup_grid (bs : ℕ) : (a.grid bs).Nodup := nodup_range.product nodup_range

theorem independent_thread (htree : ∀ bid < bs, a.IsTree bid) (hsize : a.maskSize bs ≤ 2 ^ 31)
    (hfuel : a.draftTokenNum ≤ fuel) :
    Independent (a.thread bs fuel) a.Ready a.Written (a.grid bs) := by
  rintro ⟨bid, tid⟩ hmem m hready
  obtain ⟨hbid, htid⟩ := mem_grid.mp hmem
  have hrun : ∃ m', a.thread bs fuel (bid, tid) m = some m' ∧ a.Written (bid, tid) m' ∧
      a.Frame (bid, tid) m m' := by
    rcases Nat.eq_zero_or_pos tid with rfl | h0
    · obtain ⟨m', hrun, hnode, hlinks, hframe⟩ :=
        thread_root (htree bid hbid) hsize hbid htid fuel (hready rfl)
      exact ⟨m', hrun, fun _ => ⟨hnode, fun _ => hlinks⟩, hframe⟩
    · obtain ⟨m', hrun, hnode, hframe⟩ := thread_node (htree bid hbid) hsize hbid h0 htid hfuel m
      exact ⟨m', hrun, fun _ => ⟨hnode, fun heq => absurd heq h0.ne'⟩, hframe⟩
  obtain ⟨m', hrun, hwritten, hframe⟩ := hrun
  refine ⟨m', hrun, hwritten, fun t ht hne => ⟨hframe.ready hne, ?_⟩⟩
  exact hframe.written hne htid (mem_grid.mp ht).2

/-- All arrays describe the tree of the request. -/
structure Describes (h : a.IsTree bid) (m : TreeBuffers) : Prop extends LinksWritten h m where
  node : ∀ i < a.draftTokenNum, NodeWritten h i m

theorem exists_buildTreeEfficient (hpos : 0 < a.draftTokenNum) (htree : ∀ bid < bs, a.IsTree bid)
    (hsize : a.maskSize bs ≤ 2 ^ 31) (hfuel : a.draftTokenNum ≤ fuel)
    (hm : ∀ bid < bs, a.Unlinked bid m) {threads : List (ℕ × ℕ)}
    (hthreads : threads.Perm (a.grid bs)) :
    ∃ m', a.buildTreeEfficient bs fuel threads m = some m' ∧
      ∀ bid (hbid : bid < bs), Describes (htree bid hbid) m' := by
  obtain ⟨m', hrun, hwritten⟩ := (independent_thread htree hsize hfuel).exists_launch
    (nodup_grid bs) hthreads fun t ht _ => hm t.1 (mem_grid.mp ht).1
  refine ⟨m', hrun, fun bid hbid => ?_⟩
  have hdone : ∀ tid < a.draftTokenNum, a.Written (bid, tid) m' :=
    fun tid htid => hwritten (bid, tid) (mem_grid.mpr ⟨hbid, htid⟩)
  exact ⟨(hdone 0 hpos (htree bid hbid)).2 rfl, fun i hi => (hdone i hi (htree bid hbid)).1⟩

/-! ## Masks that are too large -/

/-- In a mask with more elements, the row around the element `2 ^ 31` ends at an offset that is
negative as an `int`. -/
theorem exists_row (hlen : ∀ bid < bs, a.verifiedSeqLen bid + a.draftTokenNum ≤ 2 ^ 31)
    (hsize : 2 ^ 31 < a.maskSize bs) : ∃ bid < bs, ∃ tid < a.draftTokenNum,
      int32 (a.maskStart bid tid + (a.draftTokenNum - 1) : ℕ) < 0 := by
  -- the request whose rows go beyond
  have hfind : ∃ bid < bs, a.maskSize bid ≤ 2 ^ 31 ∧ 2 ^ 31 < a.maskSize (bid + 1) := by
    induction bs with
    | zero => exact absurd hsize (by simp [maskSize])
    | succ n ih =>
      rcases Nat.lt_or_ge (2 ^ 31) (a.maskSize n) with hlt | hge
      · obtain ⟨bid, hbid, h⟩ := ih (fun bid hbid => hlen bid (by omega)) hlt
        exact ⟨bid, by omega, h⟩
      · exact ⟨n, Nat.lt_succ_self n, hge, hsize⟩
  obtain ⟨bid, hbid, hle, hgt⟩ := hfind
  rw [maskSize_succ] at hgt
  have hcolumns : a.seqColumns bid + a.draftTokenNum ≤ 2 ^ 31 := by
    refine le_trans ?_ (hlen bid hbid)
    unfold seqColumns
    split_ifs <;> omega
  have hpos : 0 < a.seqColumns bid + a.draftTokenNum := by
    refine Nat.pos_of_ne_zero fun hzero => ?_
    rw [hzero, zero_mul] at hgt
    omega
  -- the row of the request with that element, or the first one after it
  obtain ⟨tid, htid⟩ : ∃ tid, tid = (2 ^ 31 - a.maskSize bid) /
      (a.seqColumns bid + a.draftTokenNum) := ⟨_, rfl⟩
  have hlow := Nat.div_mul_le_self (2 ^ 31 - a.maskSize bid)
    (a.seqColumns bid + a.draftTokenNum)
  have hhigh := Nat.lt_div_mul_add hpos (a := 2 ^ 31 - a.maskSize bid)
  rw [← htid, mul_comm] at hlow hhigh
  have hlt : tid < a.draftTokenNum := by
    rw [htid, Nat.div_lt_iff_lt_mul hpos, mul_comm]
    omega
  refine ⟨bid, hbid, tid, hlt, int32_neg ?_ ?_⟩
  all_goals
    unfold maskStart
    omega

theorem clearMask_eq_none (h : int32 (a.maskStart bid tid + (a.draftTokenNum - 1) : ℕ) < 0)
    (mask : ℕ → Bool) : a.clearMask bid bs tid mask = none := by
  have hstore : ∀ mask, a.storeMask bs (int32 (a.maskStart bid tid + (a.draftTokenNum - 1) : ℕ))
      false mask = none := fun _ => if_neg (by omega)
  unfold clearMask
  rcases Nat.lt_or_ge 1 a.draftTokenNum with hmore | hone
  · -- the last column is cleared at the end
    obtain ⟨k, hk⟩ : ∃ k, a.draftTokenNum - 1 = k + 1 := ⟨a.draftTokenNum - 2, by omega⟩
    have hlast : int32 (a.tokenTreeIdx bid tid + k) =
        int32 (a.maskStart bid tid + (a.draftTokenNum - 1) : ℕ) := by
      rw [int32_cell, hk]
      push_cast
      ring_nf
    rw [hk, Option.bind_eq_none_iff]
    intro mask' _
    rw [range_succ, foldlM_append, Option.bind_eq_bind, Option.bind_eq_none_iff]
    intro mask'' _
    rw [foldlM_cons, hlast, hstore]
    rfl
  · -- the only column is that of the root
    have hroot : int32 (a.tokenTreeIdx bid tid - 1) =
        int32 (a.maskStart bid tid + (a.draftTokenNum - 1) : ℕ) := by
      rw [sub_eq_add_neg, int32_cell, show a.draftTokenNum - 1 = 0 by omega]
      push_cast
      ring_nf
    rw [hroot, storeMask, if_neg (by omega)]
    rfl

theorem buildTreeEfficient_eq_none
    (hlen : ∀ bid < bs, a.verifiedSeqLen bid + a.draftTokenNum ≤ 2 ^ 31)
    (hsize : 2 ^ 31 < a.maskSize bs) {threads : List (ℕ × ℕ)}
    (hthreads : threads.Perm (a.grid bs)) (fuel : ℕ) (m : TreeBuffers) :
    a.buildTreeEfficient bs fuel threads m = none := by
  obtain ⟨bid, hbid, tid, htid, hneg⟩ := exists_row hlen hsize
  have hmem : (bid, tid) ∈ threads := hthreads.mem_iff.mpr (mem_grid.mpr ⟨hbid, htid⟩)
  refine launch_eq_none hmem (fun m => ?_) m
  rw [thread]
  simp only [if_neg htid.not_ge, clearMask_eq_none hneg, Option.bind_none]

end TreeInput

end MegatronDPU.Eagle
