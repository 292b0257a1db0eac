import MegatronDPU.Compressor.Dithering

/-!
# Sparse compressors

The top-k and random-k compressors send `k` pairs of an index and a value. They share
`DecompressImpl`, which writes the values into zeros, and `FastUpdateErrorImpl`, which writes zeros
into a copy of the gradient. `CompressImpl` checks that the pairs fit into the buffer: `k` may be at
most half the number of elements.
-/

namespace MegatronDPU.Compressor

open List

variable {α : Type}

/-! ## Pairs -/

/-- `std::make_pair(i, v)`, where `i` is converted to `index_t`. -/
def makePair (d : FloatType) (i : ℕ) (v : α) : ℕ × α := (i % 2 ^ (8 * d.bytes), v)

/-- Stores values at their indices. -/
def scatter (f : α → α) (dst : List α) (pairs : List (ℕ × α)) : List α :=
  pairs.foldl (fun dst pair => dst.set pair.1 (f pair.2)) dst

/-- Elements of a buffer for `n` elements. -/
def cellsOf (d : FloatType) (n : ℕ) : ℕ := capacity d n / d.bytes

/-- `DecompressImpl` of a compressor for `n` elements. -/
def decompressPairs [Zero α] (d : FloatType) (n : ℕ) (pairs : List (ℕ × α)) : List α :=
  scatter id (replicate (cellsOf d n) 0) pairs

/-- `FastUpdateErrorImpl`; `corrected` is the memory from the start of the gradient on. -/
def fastUpdateError [Zero α] (d : FloatType) (n : ℕ) (corrected : List α) (pairs : List (ℕ × α)) :
    List α :=
  scatter (fun _ => 0) (corrected.take (cellsOf d n)) pairs

/-- Every pair is an element of `x` with its position. -/
def Selects (x : List α) (pairs : List (ℕ × α)) : Prop := ∀ pair ∈ pairs, x[pair.1]? = some pair.2

theorem getElem?_scatter {f : α → α} {dst x : List α} {pairs : List (ℕ × α)} {i : ℕ}
    (h : Selects x pairs) (hi : i < dst.length) :
    (scatter f dst pairs)[i]? = if i ∈ pairs.map Prod.fst then x[i]?.map f else dst[i]? := by
  induction pairs generalizing dst with
  | nil => rfl
  | cons pair pairs ih =>
    rw [scatter, foldl_cons, ← scatter,
      ih (fun q hq => h q (mem_cons_of_mem _ hq)) (by rwa [length_set])]
    simp only [map_cons, mem_cons]
    by_cases hlater : i ∈ pairs.map Prod.fst
    · rw [if_pos hlater, if_pos (.inr hlater)]
    · by_cases hfirst : i = pair.1
      · subst hfirst
        rw [if_neg hlater, if_pos (.inl rfl), getElem?_set_self hi,
          h pair mem_cons_self, Option.map_some]
      · rw [if_neg hlater, if_neg (not_or.mpr ⟨hfirst, hlater⟩), getElem?_set_ne (Ne.symm hfirst)]

section Split

variable [AddCommMonoid α] {d : FloatType} {x : List α} {pairs : List (ℕ × α)} {i : ℕ}

section

variable (h : Selects x pairs) (hi : i < x.length)
include h hi

theorem getD_decompressPairs : (decompressPairs d x.length pairs).getD i 0 =
      if i ∈ pairs.map Prod.fst then x.getD i 0 else 0 := by
  have hcell : i < (replicate (cellsOf d x.length) (0 : α)).length := by
    rw [length_replicate]
    exact hi.trans_le (le_capacity d _)
  rw [decompressPairs, getD_eq_getElem?_getD, getElem?_scatter h hcell, Option.map_id,
    getElem?_eq_getElem hcell, getElem_replicate]
  split_ifs <;> simp

theorem getD_fastUpdateError (beyond : List α) :
    (fastUpdateError d x.length (x ++ beyond) pairs).getD i 0 =
      if i ∈ pairs.map Prod.fst then 0 else x.getD i 0 := by
  have hcell : i < cellsOf d x.length := hi.trans_le (le_capacity d _)
  rw [fastUpdateError, getD_eq_getElem?_getD, getElem?_scatter h (by simp; omega),
    getElem?_take_of_lt hcell, getElem?_append_left hi]
  split_ifs <;> simp [getElem?_eq_getElem hi]

theorem decompressPairs_add_fastUpdateError (beyond : List α) :
    (decompressPairs d x.length pairs).getD i 0 +
      (fastUpdateError d x.length (x ++ beyond) pairs).getD i 0 = x.getD i 0 := by
  rw [getD_decompressPairs h hi, getD_fastUpdateError h hi]
  split_ifs
  · exact add_zero _
  · exact zero_add _

end

end Split

/-! ## Error feedback -/

section Feedback

variable [AddCommMonoid α]

/-- `UpdateGradient` with a scaling of 1: `error` is added to the elements of `grad`. -/
def updateGradient (grad error : List α) : List α := zipWith (· + ·) grad error

/-- `ErrorFeedback::Compress` around a compressor: the compressed gradient and the new error.
`beyond` is the memory after the gradient. -/
def errorFeedbackCompress (d : FloatType) (compress : List α → Option (List (ℕ × α)))
    (error grad beyond : List α) : Option (List (ℕ × α) × List α) := do
  let corrected := updateGradient grad error
  let pairs ← compress corrected
  some (pairs, fastUpdateError d grad.length (corrected ++ beyond) pairs)

/-- A round: the gradient, the memory after it, and the inner compressor with its draws. -/
structure Round (α : Type) where
  grad : List α
  beyond : List α
  compress : List α → Option (List (ℕ × α))

/-- The decompressed outputs of the rounds and the error after the last. -/
def feedbackRounds (d : FloatType) : List α → List (Round α) → Option (List (List α) × List α)
  | error, [] => some ([], error)
  | error, r :: rs => do
    let (pairs, error) ← errorFeedbackCompress d r.compress error r.grad r.beyond
    let (outputs, last) ← feedbackRounds d error rs
    some (decompressPairs d r.grad.length pairs :: outputs, last)

variable {d : FloatType} {n : ℕ}

theorem length_fastUpdateError (x beyond : List α) (pairs : List (ℕ × α)) :
    x.length ≤ (fastUpdateError d x.length (x ++ beyond) pairs).length := by
  have hset : ∀ (f : α → α) (dst : List α), (scatter f dst pairs).length = dst.length := by
    intro f dst
    induction pairs generalizing dst with
    | nil => rfl
    | cons pair pairs ih => exact (ih _).trans length_set
  have hcell : x.length ≤ cellsOf d x.length := le_capacity d _
  rw [fastUpdateError, hset, length_take, length_append]
  omega

theorem getD_updateGradient {grad error : List α} {i : ℕ} (hg : i < grad.length)
    (he : i < error.length) :
    (updateGradient grad error).getD i 0 = grad.getD i 0 + error.getD i 0 := by
  simp [updateGradient, getD_eq_getElem?_getD, getElem?_zipWith,
    getElem?_eq_getElem hg, getElem?_eq_getElem he]

/-- Rounds conserve: by induction over the rounds, from any error. -/
theorem feedbackRounds_eq {rs : List (Round α)} {error : List α} (he : n ≤ error.length)
    (hlen : ∀ r ∈ rs, r.grad.length = n)
    (hsel : ∀ r ∈ rs, ∀ x : List α, x.length = n →
      ∃ pairs, r.compress x = some pairs ∧ Selects x pairs) :
    ∃ outputs last, feedbackRounds d error rs = some (outputs, last) ∧
      ∀ i < n, (outputs.map (·.getD i 0)).sum + last.getD i 0 =
        (rs.map (·.grad.getD i 0)).sum + error.getD i 0 := by
  induction rs generalizing error with
  | nil => exact ⟨[], error, rfl, fun i _ => rfl⟩
  | cons r rs ih =>
    have hgrad := hlen r mem_cons_self
    have hcorr : (updateGradient r.grad error).length = n := by
      rw [updateGradient, length_zipWith]
      omega
    obtain ⟨pairs, hpairs, hsel'⟩ := hsel r mem_cons_self _ hcorr
    have herror : n ≤ (fastUpdateError d n (updateGradient r.grad error ++ r.beyond) pairs).length := by
      simpa only [hcorr] using
        length_fastUpdateError (d := d) (updateGradient r.grad error) r.beyond pairs
    obtain ⟨outputs, last, hrun, hsum⟩ := ih herror
      (fun s hs => hlen s (mem_cons_of_mem _ hs))
      (fun s hs => hsel s (mem_cons_of_mem _ hs))
    refine ⟨decompressPairs d n pairs :: outputs, last, ?_, fun i hi => ?_⟩
    · simp only [feedbackRounds, errorFeedbackCompress, hpairs, hgrad, Option.bind_eq_bind,
        Option.bind_some, hrun]
    · have hsplit := decompressPairs_add_fastUpdateError (d := d) (i := i) hsel' (by omega) r.beyond
      rw [hcorr, getD_updateGradient (by omega) (by omega)] at hsplit
      rw [map_cons, sum_cons, map_cons, sum_cons, add_assoc, hsum i hi, add_left_comm, hsplit]
      abel

end Feedback

/-! ## Random-k -/

/-- `Randint(0, high)` of a draw. -/
def randint (draw : UInt64) (high : ℕ) : ℕ := draw.toNat % high

/-- `CompressImpl` of the random-k compressor. -/
def randomkCompress [Zero α] (d : FloatType) (k : ℕ) (draws : ℕ → UInt64) (src : List α) :
    Option (List (ℕ × α)) :=
  if k ≤ src.length / 2 then
    some ((range k).map fun i =>
      let index := randint (draws i) src.length
      makePair d index (src.getD index 0))
  else none

/-- A round of `randomk`: the gradient, what lies behind it, and the draws. -/
structure RandomkRound (α : Type) where
  grad : List α
  beyond : List α
  draws : ℕ → UInt64

def RandomkRound.round [Zero α] (d : FloatType) (k : ℕ) (r : RandomkRound α) : Round α :=
  ⟨r.grad, r.beyond, randomkCompress d k r.draws⟩

variable [AddCommMonoid α] {d : FloatType} {k n : ℕ}

theorem selects_randomkCompress {x : List α} (hk : k ≤ x.length / 2)
    (hn : x.length ≤ 2 ^ (8 * d.bytes)) (draws : ℕ → UInt64) :
    ∃ pairs, randomkCompress d k draws x = some pairs ∧ Selects x pairs := by
  refine ⟨_, if_pos hk, fun pair hpair => ?_⟩
  obtain ⟨i, hi, rfl⟩ := mem_map.mp hpair
  have hlt : randint (draws i) x.length < x.length :=
    Nat.mod_lt _ (by have := mem_range.mp hi; omega)
  rw [makePair, Nat.mod_eq_of_lt (hlt.trans_le hn)]
  simp [getD_eq_getElem?_getD, getElem?_eq_getElem hlt]

/-- Random-k of at most half the elements, when positions fit a word: decompressed and remaining
parts add up, and so they do over any rounds of error feedback. -/
theorem randomk_conserves (hk : k ≤ n / 2) (hn : n ≤ 2 ^ (8 * d.bytes)) :
    (∀ (x beyond : List α) (draws : ℕ → UInt64), x.length = n →
      ∃ pairs, randomkCompress d k draws x = some pairs ∧ ∀ i < n,
        (decompressPairs d n pairs).getD i 0 +
          (fastUpdateError d n (x ++ beyond) pairs).getD i 0 = x.getD i 0) ∧
    ∀ rs : List (RandomkRound α), (∀ r ∈ rs, r.grad.length = n) →
      ∃ outputs last,
        feedbackRounds d (replicate (cellsOf d n) 0) (rs.map (·.round d k)) =
          some (outputs, last) ∧
        ∀ i < n, (outputs.map (·.getD i 0)).sum + last.getD i 0 =
          (rs.map (·.grad.getD i 0)).sum := by
  constructor
  · rintro x beyond draws rfl
    obtain ⟨pairs, hpairs, hsel⟩ := selects_randomkCompress hk hn draws
    exact ⟨pairs, hpairs, fun i hi => decompressPairs_add_fastUpdateError hsel hi beyond⟩
  · intro rs hlen
    have herror : n ≤ (replicate (cellsOf d n) (0 : α)).length := by
      rw [length_replicate]
      exact le_capacity d n
    obtain ⟨outputs, last, hrun, hsum⟩ := feedbackRounds_eq (d := d) herror
      (show ∀ r ∈ rs.map (·.round d k), r.grad.length = n from fun r hr => by
        obtain ⟨s, hs, rfl⟩ := mem_map.mp hr
        exact hlen s hs)
      (fun r hr x hx => by
        obtain ⟨s, -, rfl⟩ := mem_map.mp hr
        subst hx
        exact selects_randomkCompress hk hn s.draws)
    refine ⟨outputs, last, hrun, fun i hi => ?_⟩
    have hzero : (replicate (cellsOf d n) (0 : α)).getD i 0 = 0 := by
      rw [getD_eq_getElem?_getD, getElem?_replicate]
      split_ifs <;> rfl
    rw [hsum i hi, hzero, add_zero, map_map]
    rfl

theorem randomk_conserves_fourElements :
    1 ≤ 4 / 2 ∧ ∃ pairs, randomkCompress .fp16 1 (fun _ => 7) [(5 : ℤ), -2, 0, 3] = some pairs ∧
      ∀ i < 4, (decompressPairs .fp16 4 pairs).getD i 0 +
        (fastUpdateError .fp16 4 ([5, -2, 0, 3] ++ []) pairs).getD i 0 = [5, -2, 0, 3].getD i 0 :=
  ⟨by decide, (randomk_conserves (by decide) (by decide)).1 [5, -2, 0, 3] [] (fun _ => 7) rfl⟩

/-- One of one elements is refused: the check allows half of them. -/
theorem randomk_single_refused :
    1 ≤ 1 ∧ randomkCompress .fp32 1 (fun _ => 0) [(5 : ℤ)] = none := ⟨le_rfl, rfl⟩

end MegatronDPU.Compressor
