import Mathlib.Tactic

/-!
# Counting arrivals

A gate counts the arrivals of a finite set of members and opens when its counter has reached their
number; then the counter starts again from zero. The counter alone does not say who has come. It
does if nobody comes twice before the gate opens (`Gate.pass`).
-/

variable {ι : Type*}

section Tick

variable [DecidableEq ι]

/-- One more at `i`. -/
def tick (f : ι → ℕ) (i : ι) : ι → ℕ := Function.update f i (f i + 1)

@[simp] theorem tick_self (f : ι → ℕ) (i : ι) : tick f i i = f i + 1 := Function.update_self ..

@[simp] theorem tick_of_ne (f : ι → ℕ) {i j : ι} (h : j ≠ i) : tick f i j = f j :=
  Function.update_of_ne h ..

theorem tick_apply (f : ι → ℕ) (i j : ι) : tick f i j = f j + if j = i then 1 else 0 := by
  by_cases h : j = i
  · rw [h, tick_self, if_pos rfl]
  · rw [tick_of_ne f h, if_neg h, add_zero]

theorem le_tick (f : ι → ℕ) (i j : ι) : f j ≤ tick f i j := by
  rw [tick_apply]
  exact Nat.le_add_right _ _

end Tick

/-- A gate that was opened `opened` times, counts `count`, and was reached `arrived i` times by the
member `i`. -/
structure Gate (members : Finset ι) (arrived : ι → ℕ) (opened count : ℕ) : Prop where
  balance : count + members.card * opened = ∑ i ∈ members, arrived i
  behind : ∀ i ∈ members, opened ≤ arrived i

namespace Gate

open Finset

variable {members : Finset ι} {arrived arrived' : ι → ℕ} {opened count : ℕ}

theorem start (members : Finset ι) : Gate members (fun _ => 0) 0 0 where
  balance := by simp
  behind _ _ := le_rfl

section

variable (h : Gate members arrived opened count)
include h

theorem congr (heq : ∀ i ∈ members, arrived' i = arrived i) :
    Gate members arrived' opened count where
  balance := by rw [h.balance, sum_congr rfl heq]
  behind i hi := heq i hi ▸ h.behind i hi

theorem arrive [DecidableEq ι] {i : ι} (hi : i ∈ members) :
    Gate members (tick arrived i) opened (count + 1) where
  balance := by
    have hrest : ∑ j ∈ members.erase i, tick arrived i j = ∑ j ∈ members.erase i, arrived j :=
      sum_congr rfl fun j hj => tick_of_ne arrived (ne_of_mem_erase hj)
    have hbalance := h.balance
    rw [← add_sum_erase members arrived hi] at hbalance
    rw [← add_sum_erase members (tick arrived i) hi, hrest, tick_self]
    omega
  behind j hj := (h.behind j hj).trans (le_tick arrived i j)

section

variable (hnear : ∀ i ∈ members, arrived i ≤ opened + 1)
include hnear

theorem count_le : count ≤ members.card := by
  have hsum : ∑ i ∈ members, arrived i ≤ members.card * (opened + 1) := by
    rw [← smul_eq_mul]
    exact sum_le_card_nsmul members arrived (opened + 1) hnear
  rw [← h.balance, Nat.mul_succ] at hsum
  omega

theorem count_lt {i : ι} (hi : i ∈ members) (hmissing : arrived i ≤ opened) :
    count < members.card := by
  have hsum : ∑ i ∈ members, arrived i < ∑ _i ∈ members, (opened + 1) :=
    sum_lt_sum hnear ⟨i, hi, Nat.lt_succ_of_le hmissing⟩
  rw [sum_const, smul_eq_mul, ← h.balance, Nat.mul_succ] at hsum
  omega

/-- A full gate opens and begins again. -/
theorem pass (hfull : count = members.card) : Gate members arrived (opened + 1) 0 where
  balance := by
    rw [← h.balance, hfull, Nat.mul_succ]
    omega
  behind i hi := by
    by_contra hmissing
    have hlt := h.count_lt hnear hi (by omega)
    exact hlt.ne hfull

end

end

end Gate
