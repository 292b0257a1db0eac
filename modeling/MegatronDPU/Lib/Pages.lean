import Mathlib.Tactic

/-!
# Pages of a list

A list is cut into pages of `size` entries, the last one possibly shorter. Cutting the list after
whole pages cuts the list of its pages: `pages_take`, `pages_drop`. `common` is the length of the
longest common beginning of two lists.
-/

namespace Pages

open List

variable {α : Type*} {size : ℕ} {l : List α}

/-- The pages of a list, of which the last may be short. -/
def pages (size : ℕ) (l : List α) : List (List α) :=
  (List.range ((l.length + size - 1) / size)).map fun k => (l.drop (k * size)).take size

theorem length_pages : (pages size l).length = (l.length + size - 1) / size := by
  rw [pages, length_map, length_range]

section

variable (hs : 0 < size)
include hs

theorem lt_length_pages_iff {k : ℕ} : k < (pages size l).length ↔ k * size < l.length := by
  rw [length_pages, Nat.lt_div_iff_mul_lt hs]
  omega

theorem getElem?_pages (k : ℕ) : (pages size l)[k]? =
    if k * size < l.length then some ((l.drop (k * size)).take size) else none := by
  by_cases hk : k < (pages size l).length
  · rw [if_pos ((lt_length_pages_iff hs).mp hk), getElem?_eq_getElem hk]
    simp [pages]
  · rw [if_neg fun h => hk ((lt_length_pages_iff hs).mpr h),
      getElem?_eq_none (Nat.le_of_not_lt hk)]

@[simp] theorem pages_nil : pages size ([] : List α) = [] := by
  rw [← length_eq_zero_iff, length_pages, length_nil]
  exact Nat.div_eq_of_lt (by omega)

theorem pages_eq_nil_iff : pages size l = [] ↔ l = [] := by
  constructor
  · intro h
    by_contra hl
    have hpos : 0 < (pages size l).length :=
      (lt_length_pages_iff hs).mpr (by rw [zero_mul]; exact length_pos_iff.mpr hl)
    rw [h] at hpos
    exact absurd hpos (by simp)
  · rintro rfl
    exact pages_nil hs

theorem head?_pages (hl : l ≠ []) : (pages size l).head? = some (l.take size) := by
  rw [head?_eq_getElem?, getElem?_pages hs, if_pos, zero_mul, drop_zero]
  rw [zero_mul]
  exact length_pos_iff.mpr hl

theorem pages_take (c : ℕ) : pages size (l.take (c * size)) = (pages size l).take c := by
  refine ext_getElem? fun k => ?_
  rw [getElem?_pages hs, getElem?_take, getElem?_pages hs, length_take]
  by_cases hk : k < c
  · -- a page before the cut lies before it as a whole
    have hpage : k * size + size ≤ c * size := by
      rw [← Nat.succ_mul]
      exact Nat.mul_le_mul_right size hk
    rw [if_pos hk, drop_take, take_take, min_eq_left (show size ≤ c * size - k * size by omega)]
    exact if_congr (by omega) rfl rfl
  · have hge : c * size ≤ k * size := Nat.mul_le_mul_right size (Nat.le_of_not_lt hk)
    rw [if_neg hk, if_neg (by omega)]

theorem pages_drop (c : ℕ) : pages size (l.drop (c * size)) = (pages size l).drop c := by
  refine ext_getElem? fun k => ?_
  rw [getElem?_pages hs, getElem?_drop, getElem?_pages hs, length_drop, drop_drop, add_mul]
  exact if_congr (by omega) rfl rfl

end

theorem pages_one (l : List α) : pages 1 l = l.map fun a => [a] := by
  refine ext_getElem? fun k => ?_
  rw [getElem?_pages one_pos, mul_one, getElem?_map]
  split_ifs with hk
  · rw [getElem?_eq_getElem hk, drop_eq_getElem_cons hk]
    rfl
  · rw [getElem?_eq_none (by omega)]
    rfl

/-! ## Common beginnings -/

variable [DecidableEq α]

/-- The length of the common prefix. -/
def common : List α → List α → ℕ
  | a :: l, b :: m => if a = b then common l m + 1 else 0
  | _, _ => 0

theorem common_pos {l m : List α} (hl : l ≠ []) (h : l.head? = m.head?) : 0 < common l m := by
  cases l with
  | nil => exact absurd rfl hl
  | cons a l =>
    cases m with
    | nil => exact absurd h (by simp)
    | cons b m =>
      obtain rfl : a = b := by simpa using h
      rw [common, if_pos rfl]
      exact Nat.succ_pos _

theorem common_eq {l m : List α} {c : ℕ} (hc : c ≤ l.length) (htake : l.take c = m.take c)
    (hstop : l[c]? ≠ m[c]? ∨ l[c]? = none ∨ m[c]? = none) : common l m = c := by
  induction c generalizing l m with
  | zero =>
    cases l with
    | nil => rfl
    | cons a l =>
      cases m with
      | nil => rfl
      | cons b m =>
        rw [common, if_neg]
        simpa using hstop
  | succ c ih =>
    cases l with
    | nil => exact absurd hc (by simp)
    | cons a l =>
      cases m with
      | nil => exact absurd htake (by simp)
      | cons b m =>
        rw [take_succ_cons, take_succ_cons, List.cons.injEq] at htake
        rw [common, if_pos htake.1]
        exact congrArg (· + 1) (ih (by simpa using hc) htake.2 (by simpa using hstop))

theorem common_map {β : Type*} [DecidableEq β] {f : α → β}
    (hf : Function.Injective f) (l m : List α) : common (l.map f) (m.map f) = common l m := by
  fun_induction common l m with
  | case1 l b m ih => rw [map_cons, map_cons, common, if_pos rfl, ih]
  | case2 a l b m hne => rw [map_cons, map_cons, common, if_neg fun h => hne (hf h)]
  | case3 l m h =>
    cases l with
    | nil => rfl
    | cons a l =>
      cases m with
      | nil => rfl
      | cons b m => exact absurd rfl (h a l b m rfl)

/-- Where one of the lists has no page `k`, its pages before are all there is in common. -/
theorem common_pages_of_end (hs : 0 < size) {l m : List α} {k : ℕ} (hk : k ≤ (pages size l).length)
    (htake : (pages size l).take k = (pages size m).take k)
    (hend : ¬ k * size < min l.length m.length) : common (pages size l) (pages size m) = k := by
  refine common_eq hk htake (.inr ?_)
  rw [getElem?_pages hs, getElem?_pages hs]
  by_cases hl : k * size < l.length
  · exact .inr (if_neg (by omega))
  · exact .inl (if_neg hl)

end Pages
