import Mathlib.Tactic

/-!
# Gathering entries of a list

`x[idx]` on arrays, with a list of positions.
-/

namespace Move

open List

variable {α : Type*} {x : List α} {i : List ℕ}

/-- `x[idx]`. -/
def gather (x : List α) (idx : List ℕ) : List α := idx.filterMap (x[·]?)

theorem length_gather (h : ∀ k ∈ i, k < x.length) : (gather x i).length = i.length := by
  induction i with
  | nil => rfl
  | cons k i ih =>
    rw [forall_mem_cons] at h
    have hk : x[k]? = some x[k] := getElem?_eq_getElem h.1
    rw [gather, filterMap_cons_some hk, length_cons, length_cons]
    exact congrArg (· + 1) (ih h.2)

theorem getElem?_gather {n : ℕ} (h : ∀ k ∈ i, k < x.length) :
    (gather x i)[n]? = i[n]?.bind (x[·]?) := by
  induction i generalizing n with
  | nil => rfl
  | cons k i ih =>
    rw [forall_mem_cons] at h
    have hk : x[k]? = some x[k] := getElem?_eq_getElem h.1
    rw [gather, filterMap_cons_some hk]
    cases n with
    | zero => exact hk.symm
    | succ n => exact ih h.2

theorem mem_of_mem_gather {a : α} (h : a ∈ gather x i) : a ∈ x := by
  obtain ⟨k, -, hk⟩ := mem_filterMap.mp h
  exact mem_of_getElem? hk

end Move
