import Mathlib.Tactic

/-!
# Half-precision sums

`CpuReducer` adds arrays of 16-bit floats in blocks of eight where AVX and F16C are compiled in and
the CPU has them. The rest is added one by one; it starts behind the blocks also if the CPU does not
have them, and then nobody adds the blocks (`updates_once_iff`).
-/

namespace MegatronDPU.Server

open Function List

/-- The arithmetic of eight lanes and that of `HalfBits2Float` and `Float2HalfBits`; `A` is the type
of `alpha`. -/
structure HalfArith (H A : Type) where
  add256 : H → H → H
  addScaled256 : A → H → H → H
  add : H → H → H
  addScaled : A → H → H → H

/-- The destination: each element, and how often it was stored to. -/
abbrev Stores (H : Type) := ℕ → H × ℕ

variable {H A : Type} {vec soft : H → ℕ → H} {s : Stores H} {i j : ℕ}

/-- The vector loop stores eight elements. -/
def storeBlock (vec : H → ℕ → H) (s : Stores H) (i : ℕ) : Stores H :=
  fun j => if i ≤ j ∧ j < i + 8 then (vec (s j).1 j, (s j).2 + 1) else s j

/-- The scalar loop stores one element. -/
def storeOne (soft : H → ℕ → H) (s : Stores H) (i : ℕ) : Stores H :=
  update s i (soft (s i).1 i, (s i).2 + 1)

/-- The loops: `avx` is `__AVX__ && __F16C__`, `cpu` is `is_avx_and_f16c()`. New elements are made
from the old one and the position. -/
def halfLoops (avx cpu : Bool) (vec soft : H → ℕ → H) (len : ℕ) (dst : Stores H) : Stores H :=
  let len := len / 2
  if avx then
    let dst := if cpu then (range' 0 (len / 8) 8).foldl (storeBlock vec) dst else dst
    (range' (len / 8 * 8) (len - len / 8 * 8)).foldl (storeOne soft) dst
  else (range' 0 len).foldl (storeOne soft) dst

section Sums

variable (ar : HalfArith H A) (avx cpu : Bool) (dst : Stores H) (src src1 src2 : ℕ → H) (len : ℕ)
  (alpha : A)

/-- `_sum_float16(dst, src, len)`. -/
def sumFloat16 : Stores H :=
  halfLoops avx cpu (fun x i => ar.add256 (src i) x) (fun x i => ar.add x (src i)) len dst

/-- `_sum_float16(dst, src1, src2, len)`. -/
def sumFloat16Into : Stores H :=
  halfLoops avx cpu (fun _ i => ar.add256 (src1 i) (src2 i))
    (fun _ i => ar.add (src1 i) (src2 i)) len dst

/-- `_sum_float16(dst, src, len, alpha)`. -/
def sumFloat16Alpha : Stores H :=
  halfLoops avx cpu (fun x i => ar.addScaled256 alpha (src i) x)
    (fun x i => ar.addScaled alpha (src i) x) len dst

/-- `_sum_float16(dst, src1, src2, len, alpha)`. -/
def sumFloat16AlphaInto : Stores H :=
  halfLoops avx cpu (fun _ i => ar.addScaled256 alpha (src2 i) (src1 i))
    (fun _ i => ar.addScaled alpha (src2 i) (src1 i)) len dst

end Sums

/-- Each element of the array is stored to once more, and no other. -/
def UpdatesOnce (len : ℕ) (dst dst' : Stores H) : Prop :=
  ∀ j, (dst' j).2 = (dst j).2 + if j < len / 2 then 1 else 0

/-! ## What the loops store to -/

theorem foldl_storeOne (a n : ℕ) (j : ℕ) : ((range' a n).foldl (storeOne soft) s j).2 =
    (s j).2 + if a ≤ j ∧ j < a + n then 1 else 0 := by
  induction n generalizing a s with
  | zero => rw [if_neg (by omega)]; rfl
  | succ n ih =>
    rw [range'_succ, foldl_cons, ih, storeOne, update_apply]
    split_ifs <;> first | omega | simp_all

theorem foldl_storeBlock (a n : ℕ) (j : ℕ) : ((range' a n 8).foldl (storeBlock vec) s j).2 =
    (s j).2 + if a ≤ j ∧ j < a + n * 8 then 1 else 0 := by
  induction n generalizing a s with
  | zero => rw [if_neg (by omega)]; rfl
  | succ n ih =>
    rw [range'_succ, foldl_cons, ih, storeBlock]
    split_ifs <;> omega

theorem halfLoops_stores (avx cpu : Bool) (len : ℕ) (j : ℕ) :
    (halfLoops avx cpu vec soft len s j).2 = (s j).2 +
      if (if avx && !cpu then len / 2 / 8 * 8 else 0) ≤ j ∧ j < len / 2 then 1 else 0 := by
  unfold halfLoops
  cases avx with
  | false =>
    simp only [Bool.false_eq_true, if_false, foldl_storeOne, Bool.false_and]
    congr 2
    simp
  | true =>
    cases cpu with
    | false =>
      simp only [if_true, Bool.false_eq_true, if_false, foldl_storeOne, Bool.not_false, Bool.and_true]
      congr 2
      rw [Nat.add_sub_cancel' (Nat.div_mul_le_self _ _)]
    | true =>
      simp only [if_true, foldl_storeOne, foldl_storeBlock, Bool.not_true, Bool.and_false,
        Bool.false_eq_true, if_false]
      split_ifs <;> omega

theorem halfLoops_updatesOnce_iff (avx cpu : Bool) (len : ℕ) :
    UpdatesOnce len s (halfLoops avx cpu vec soft len s) ↔
      (avx = true → cpu = true ∨ len / 2 < 8) := by
  unfold UpdatesOnce
  simp only [halfLoops_stores, Nat.add_left_cancel_iff]
  constructor
  · intro h havx
    by_contra hno
    obtain ⟨hcpu, hlen⟩ := not_or.mp hno
    -- the first element is in a block
    have hzero := h 0
    rw [if_pos (by omega : 0 < len / 2), if_neg] at hzero
    · cases hzero
    · simp only [havx, Bool.not_eq_true _ ▸ hcpu, Bool.not_false, Bool.and_true, if_true]
      omega
  · intro h j
    cases avx with
    | false => simp
    | true =>
      rcases h rfl with rfl | hlen
      · simp
      · rw [Nat.div_eq_of_lt hlen, zero_mul, ite_self]
        simp

/-- For every length, build and CPU, each half-precision sum stores to every element of its
destination once iff AVX and F16C are not compiled in, or the CPU has them, or there is no block of
eight elements. -/
theorem updates_once_iff (ar : HalfArith H A) (avx cpu : Bool) (dst : Stores H)
    (src src1 src2 : ℕ → H) (len : ℕ) (alpha : A) :
    (UpdatesOnce len dst (sumFloat16 ar avx cpu dst src len) ↔
      (avx = true → cpu = true ∨ len / 2 < 8)) ∧
    (UpdatesOnce len dst (sumFloat16Into ar avx cpu dst src1 src2 len) ↔
      (avx = true → cpu = true ∨ len / 2 < 8)) ∧
    (UpdatesOnce len dst (sumFloat16Alpha ar avx cpu dst src len alpha) ↔
      (avx = true → cpu = true ∨ len / 2 < 8)) ∧
    (UpdatesOnce len dst (sumFloat16AlphaInto ar avx cpu dst src1 src2 len alpha) ↔
      (avx = true → cpu = true ∨ len / 2 < 8)) :=
  ⟨halfLoops_updatesOnce_iff .., halfLoops_updatesOnce_iff .., halfLoops_updatesOnce_iff ..,
    halfLoops_updatesOnce_iff ..⟩

/-- Nine elements, with AVX and F16C compiled in and a CPU without them: only the last one is
summed. -/
theorem blocks_not_summed :
    let ar : HalfArith ℤ ℤ := ⟨(· + ·), fun a x y => a * x + y, (· + ·), fun a x y => a * x + y⟩
    (range 9).map (sumFloat16 ar true false (fun _ => (1, 0)) (fun _ => 2) 18) =
      replicate 8 (1, 0) ++ [(3, 1)] := by
  decide

end MegatronDPU.Server
