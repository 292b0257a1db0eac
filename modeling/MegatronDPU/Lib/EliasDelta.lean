import Mathlib.Tactic

/-!
# The Elias delta code

A positive number is coded by its bit length, with as many zeros in front as the length has bits
after its first, followed by its bits after the first (`code`). `Reads get s bs t` says that a
source of bits, given by one step `get`, yields `bs` from the state `s` on and is then in `t`.
Reading is determined and composes (`reads_append_iff`); a number whose bits are shifted in one
after another is the number they spell (`shiftIn_eq`).
-/

namespace EliasDelta

/-- The `n` low bits of `x`, the highest first. -/
def bits (x : ℕ) : ℕ → List Bool
  | 0 => []
  | n + 1 => x.testBit n :: bits x n

/-- The number of bits of `x`. -/
def size (x : ℕ) : ℕ := Nat.log2 x + 1

/-- The Elias delta code: the length of the length in zeros, the length, the rest of `x`. -/
def code (x : ℕ) : List Bool :=
  List.replicate (Nat.log2 (size x)) false ++ bits (size x) (Nat.log2 (size x) + 1) ++
    bits x (Nat.log2 x)

@[simp] theorem length_bits (x n : ℕ) : (bits x n).length = n := by
  induction n with
  | zero => rfl
  | succ n ih => simp [bits, ih]

theorem length_code (x : ℕ) : (code x).length = Nat.log2 x + 2 * Nat.log2 (size x) + 1 := by
  simp only [code, List.length_append, List.length_replicate, length_bits]
  omega

theorem one_le_length_code (x : ℕ) : 1 ≤ (code x).length := by
  rw [length_code]
  omega

/-! ## Sources of bits -/

variable {σ : Type} (get : σ → Option (Bool × σ))

/-- From state `s` the source yields the bits and is in `t`. -/
def Reads : σ → List Bool → σ → Prop
  | s, [], t => s = t
  | s, b :: bs, t => ∃ u, get s = some (b, u) ∧ Reads u bs t

variable {get}

theorem reads_append_iff {s t : σ} {as bs : List Bool} :
    Reads get s (as ++ bs) t ↔ ∃ u, Reads get s as u ∧ Reads get u bs t := by
  induction as generalizing s with
  | nil => simp [Reads]
  | cons a as ih =>
    simp only [List.cons_append, Reads, ih]
    constructor
    · rintro ⟨u, hu, v, hv, ht⟩
      exact ⟨v, ⟨u, hu, hv⟩, ht⟩
    · rintro ⟨v, ⟨u, hu, hv⟩, ht⟩
      exact ⟨u, hu, v, hv, ht⟩

/-- `n` times: shift the number by one place, fetch a bit, put it in the free place. -/
def shiftIn (get : σ → Option (Bool × σ)) (shl : ℕ → Option ℕ) : ℕ → ℕ → σ → Option (ℕ × σ)
  | 0, acc, s => some (acc, s)
  | n + 1, acc, s => do
    let acc ← shl acc
    let (b, s) ← get s
    shiftIn get shl n (if b then acc ||| 1 else acc) s

theorem two_mul_or_toNat (y : ℕ) (b : Bool) :
    (if b then 2 * y ||| 1 else 2 * y) = 2 * y + b.toNat := by
  cases b
  · rfl
  · exact (Nat.two_pow_add_eq_or_of_lt (by decide : 1 < 2 ^ 1) y).symm

theorem shiftIn_eq (shl : ℕ → Option ℕ) {s t : σ} {x n : ℕ}
    (hshl : ∀ i < n, shl (x / 2 ^ (i + 1)) = some (2 * (x / 2 ^ (i + 1))))
    (h : Reads get s (bits x n) t) : shiftIn get shl n (x / 2 ^ n) s = some (x, t) := by
  induction n generalizing s with
  | zero =>
    cases h
    simp [shiftIn]
  | succ n ih =>
    obtain ⟨u, hu, h⟩ := h
    have hstep : 2 * (x / 2 ^ (n + 1)) + (x.testBit n).toNat = x / 2 ^ n := by
      rw [Nat.toNat_testBit, pow_succ, ← Nat.div_div_eq_div_mul]
      exact Nat.div_add_mod _ 2
    simp only [shiftIn, hshl n (Nat.lt_succ_self n), hu, Option.bind_eq_bind, Option.bind_some,
      two_mul_or_toNat, hstep]
    exact ih (fun i hi => hshl i (by omega)) h

theorem div_two_pow_log2 {x : ℕ} (h : 0 < x) : x / 2 ^ Nat.log2 x = 1 := by
  have hne : x ≠ 0 := Nat.pos_iff_ne_zero.mp h
  have hlt : x < 2 ^ (Nat.log2 x + 1) := Nat.lt_log2_self
  rw [pow_succ] at hlt
  exact Nat.div_eq_of_lt_le (by rw [one_mul]; exact Nat.log2_self_le hne) (by omega)

theorem bits_succ_log2 {x : ℕ} (h : 0 < x) :
    bits x (Nat.log2 x + 1) = true :: bits x (Nat.log2 x) := by
  rw [bits, Nat.testBit_log2 (Nat.pos_iff_ne_zero.mp h)]

end EliasDelta
