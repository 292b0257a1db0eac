import Mathlib.Tactic

/-!
# Mixed radix numbers

A shape `[s₀, s₁, …]` numbers the points of a grid by `d₀ + s₀ * (d₁ + s₁ * …)`. A mask picks some
of the axes. The numbers that agree with a given point on the other axes make a fiber of the grid
(`mem_fiber`), and the position of a number in its fiber is the number of its picked digits
(`idxOf_fiber`). The fibers of a mask are a partition of the grid (`fibers_perm`), and two fibers of
opposite masks meet in one point (`existsUnique_mem_fibers`).
-/

namespace MixedRadix

open List

variable {shape ds us : List ℕ} {n m r : ℕ}

/-- The digits of `n`, the lowest first. -/
def digits : List ℕ → ℕ → List ℕ
  | [], _ => []
  | s :: shape, n => n % s :: digits shape (n / s)

/-- The number with the given digits. -/
def value : List ℕ → List ℕ → ℕ
  | s :: shape, d :: ds => d + s * value shape ds
  | _, _ => 0

/-- Every digit is below its radix. -/
def Fits (shape ds : List ℕ) : Prop := Forall₂ (fun s d => d < s) shape ds

theorem fits_digits (h : ∀ s ∈ shape, 0 < s) (n : ℕ) : Fits shape (digits shape n) := by
  induction shape generalizing n with
  | nil => exact .nil
  | cons s shape ih =>
    rw [forall_mem_cons] at h
    exact .cons (Nat.mod_lt n h.1) (ih h.2 _)

theorem value_lt (h : Fits shape ds) : value shape ds < shape.prod := by
  induction h with
  | nil => exact one_pos
  | @cons s d shape ds hd _ ih =>
    rw [value, prod_cons]
    calc d + s * value shape ds < s + s * value shape ds := Nat.add_lt_add_right hd _
      _ = s * (value shape ds + 1) := by ring
      _ ≤ s * shape.prod := Nat.mul_le_mul_left s ih

theorem value_digits (h : n < shape.prod) : value shape (digits shape n) = n := by
  induction shape generalizing n with
  | nil => exact (Nat.lt_one_iff.mp h).symm
  | cons s shape ih =>
    rw [prod_cons] at h
    rw [digits, value, ih (Nat.div_lt_of_lt_mul h), Nat.mod_add_div]

theorem digits_value (h : Fits shape ds) : digits shape (value shape ds) = ds := by
  induction h with
  | nil => rfl
  | @cons s d shape ds hd _ ih =>
    have hs : 0 < s := Nat.zero_lt_of_lt hd
    rw [value, digits, Nat.add_mul_mod_self_left, Nat.mod_eq_of_lt hd,
      Nat.add_mul_div_left _ _ hs, Nat.div_eq_of_lt hd, zero_add, ih]

/-! ## Masks -/

section Mask

variable {α : Type*} {mask : List Bool} {l : List α}

/-- The entries that the mask selects. -/
def pick : List Bool → List α → List α
  | true :: mask, x :: xs => x :: pick mask xs
  | false :: mask, _ :: xs => pick mask xs
  | _, _ => []

def others (mask : List Bool) : List Bool := mask.map (!·)

/-- A list from its entries at the marked and at the other positions. -/
def merge : List Bool → List α → List α → List α
  | true :: mask, x :: xs, ys => x :: merge mask xs ys
  | false :: mask, xs, y :: ys => y :: merge mask xs ys
  | _, _, _ => []

theorem merge_pick (h : mask.length = l.length) :
    merge mask (pick mask l) (pick (others mask) l) = l := by
  induction mask generalizing l with
  | nil => exact (length_eq_zero_iff.mp h.symm).symm
  | cons b mask ih =>
    match l with
    | x :: l =>
      have hl := ih (Nat.succ.inj h)
      cases b
      · exact congrArg (x :: ·) hl
      · exact congrArg (x :: ·) hl

theorem mem_of_mem_pick {x : α} (h : x ∈ pick mask l) : x ∈ l := by
  induction mask generalizing l with
  | nil => cases h
  | cons b mask ih =>
    match b, l with
    | true, y :: l =>
      rcases mem_cons.mp h with rfl | h
      · exact mem_cons_self
      · exact mem_cons_of_mem y (ih h)
    | false, y :: l => exact mem_cons_of_mem y (ih h)
    | true, [] | false, [] => cases h

theorem Fits.pick (h : Fits shape ds) (mask : List Bool) : Fits (pick mask shape) (pick mask ds) := by
  induction h generalizing mask with
  | nil =>
    match mask with
    | [] | true :: _ | false :: _ => exact .nil
  | cons hd _ ih =>
    match mask with
    | [] => exact .nil
    | true :: mask => exact .cons hd (ih mask)
    | false :: mask => exact ih mask

theorem pick_eq_pick_iff {l' : List α} (h : mask.length = l.length) (h' : mask.length = l'.length) :
    pick mask l = pick mask l' ↔ ∀ i : ℕ, mask[i]? = some true → l[i]? = l'[i]? := by
  induction mask generalizing l l' with
  | nil => exact ⟨fun _ => nofun, fun _ => rfl⟩
  | cons b mask ih =>
    match l, l' with
    | x :: l, x' :: l' =>
      have hl := ih (Nat.succ.inj h) (Nat.succ.inj h')
      cases b with
      | true =>
        rw [MixedRadix.pick, MixedRadix.pick, List.cons.injEq, hl]
        constructor
        · rintro ⟨rfl, hall⟩ i hi
          cases i with
          | zero => rfl
          | succ i => exact hall i hi
        · exact fun hall => ⟨Option.some.inj (hall 0 rfl), fun i hi => hall (i + 1) hi⟩
      | false =>
        rw [MixedRadix.pick, MixedRadix.pick, hl]
        constructor
        · intro hall i hi
          cases i with
          | zero => cases hi
          | succ i => exact hall i hi
        · exact fun hall i hi => hall (i + 1) hi

theorem pick_replicate_false (l : List α) (n : ℕ) : pick (replicate n false) l = [] := by
  induction l generalizing n with
  | nil => cases n <;> rfl
  | cons x l ih =>
    cases n with
    | zero => rfl
    | succ n => exact ih n

theorem pick_single {k : ℕ} (hk : k < l.length) :
    pick ((replicate l.length false).set k true) l = [l[k]] := by
  induction l generalizing k with
  | nil => cases hk
  | cons x l ih =>
    cases k with
    | zero => exact congrArg (x :: ·) (pick_replicate_false l l.length)
    | succ k => exact ih (Nat.lt_of_succ_lt_succ hk)

theorem prod_pick (h : mask.length = shape.length) :
    (pick mask shape).prod * (pick (others mask) shape).prod = shape.prod := by
  induction mask generalizing shape with
  | nil =>
    rw [length_eq_zero_iff.mp h.symm]
    rfl
  | cons b mask ih =>
    match shape with
    | s :: shape =>
      have hl := ih (Nat.succ.inj h)
      rw [prod_cons, ← hl]
      cases b
      · show (MixedRadix.pick mask shape).prod * (s :: MixedRadix.pick (others mask) shape).prod = _
        rw [prod_cons]
        ring
      · show (s :: MixedRadix.pick mask shape).prod * (MixedRadix.pick (others mask) shape).prod = _
        rw [prod_cons]
        ring

theorem fits_merge (h : mask.length = shape.length) (hd : Fits (pick mask shape) ds)
    (hu : Fits (pick (others mask) shape) us) :
    Fits shape (merge mask ds us) ∧ pick mask (merge mask ds us) = ds ∧
      pick (others mask) (merge mask ds us) = us := by
  induction mask generalizing shape ds us with
  | nil =>
    rw [length_eq_zero_iff.mp h.symm] at hd hu ⊢
    cases hd
    cases hu
    exact ⟨.nil, rfl, rfl⟩
  | cons b mask ih =>
    match shape with
    | s :: shape =>
      cases b with
      | true =>
        cases hd with
        | cons hd hds =>
          obtain ⟨hf, h₁, h₂⟩ := ih (Nat.succ.inj h) hds hu
          exact ⟨.cons hd hf, congrArg (_ :: ·) h₁, h₂⟩
      | false =>
        cases hu with
        | cons hu hus =>
          obtain ⟨hf, h₁, h₂⟩ := ih (Nat.succ.inj h) hd hus
          exact ⟨.cons hu hf, h₁, congrArg (_ :: ·) h₂⟩

end Mask

/-! ## Fibers -/

section Fiber

variable {mask : List Bool}

/-- The numbers with the digits `us` on the other axes. -/
def fiber (mask : List Bool) (shape us : List ℕ) : List ℕ :=
  (range (pick mask shape).prod).map fun i =>
    value shape (merge mask (digits (pick mask shape) i) us)

theorem length_fiber : (fiber mask shape us).length = (pick mask shape).prod := by
  rw [fiber, length_map, length_range]

variable (hpos : ∀ s ∈ shape, 0 < s) (hlen : mask.length = shape.length)
  (hus : Fits (pick (others mask) shape) us)

include hpos

theorem fits_pick_digits (mask : List Bool) (i : ℕ) :
    Fits (pick mask shape) (digits (pick mask shape) i) :=
  fits_digits (fun s hs => hpos s (mem_of_mem_pick hs)) i

include hlen hus

theorem digits_fiber (i : ℕ) :
    digits shape (value shape (merge mask (digits (pick mask shape) i) us)) =
      merge mask (digits (pick mask shape) i) us :=
  digits_value (fits_merge hlen (fits_pick_digits hpos mask i) hus).1

theorem value_merge_lt {i j : ℕ} (hij : i < j) (hj : j < (pick mask shape).prod) :
    value shape (merge mask (digits (pick mask shape) i) us) <
      value shape (merge mask (digits (pick mask shape) j) us) := by
  induction mask generalizing shape us i j with
  | nil => exact absurd hj (by simp [pick]; omega)
  | cons b mask ih =>
    match shape with
    | s :: shape =>
      obtain ⟨hs, hpos⟩ := forall_mem_cons.mp hpos
      cases b with
      | true =>
        have hprod : j / s < (pick mask shape).prod := Nat.div_lt_of_lt_mul hj
        show i % s + s * value shape (merge mask (digits (pick mask shape) (i / s)) us) <
          j % s + s * value shape (merge mask (digits (pick mask shape) (j / s)) us)
        rcases (Nat.div_le_div_right hij.le (c := s)).lt_or_eq with hlt | heq
        · have hv := ih hpos (Nat.succ.inj hlen) hus hlt hprod
          have hmod := Nat.mod_lt i hs
          have hmul := Nat.mul_le_mul_left s (Nat.succ_le_of_lt hv)
          rw [Nat.mul_succ] at hmul
          omega
        · have hi := Nat.div_add_mod i s
          have hj' := Nat.div_add_mod j s
          rw [heq] at hi ⊢
          omega
      | false =>
        cases hus with
        | @cons _ u _ us hu hus =>
          have hv := ih hpos (Nat.succ.inj hlen) hus hij hj
          exact Nat.add_lt_add_left (Nat.mul_lt_mul_of_pos_left hv hs) u

theorem value_pick_fiber {i : ℕ} (hi : i < (pick mask shape).prod) :
    value (pick mask shape) (pick mask (digits shape
      (value shape (merge mask (digits (pick mask shape) i) us)))) = i := by
  rw [digits_fiber hpos hlen hus, (fits_merge hlen (fits_pick_digits hpos mask i) hus).2.1,
    value_digits hi]

theorem sorted_fiber : (fiber mask shape us).Pairwise (· < ·) := by
  rw [fiber, pairwise_map]
  refine pairwise_lt_range.imp_of_mem fun _ hj hij => ?_
  exact value_merge_lt hpos hlen hus hij (mem_range.mp hj)

theorem nodup_fiber : (fiber mask shape us).Nodup :=
  (sorted_fiber hpos hlen hus).imp ne_of_lt

theorem mem_fiber : r ∈ fiber mask shape us ↔
    r < shape.prod ∧ pick (others mask) (digits shape r) = us := by
  unfold fiber
  rw [mem_map]
  constructor
  · rintro ⟨i, -, rfl⟩
    obtain ⟨hf, -, hu⟩ := fits_merge hlen (fits_pick_digits hpos mask i) hus
    refine ⟨value_lt hf, ?_⟩
    rw [digits_fiber hpos hlen hus, hu]
  · rintro ⟨hr, hu⟩
    have hf := (fits_digits hpos r).pick mask
    have hlen' : mask.length = (digits shape r).length :=
      hlen.trans (fits_digits hpos r).length_eq
    refine ⟨value (pick mask shape) (pick mask (digits shape r)), mem_range.mpr (value_lt hf), ?_⟩
    rw [digits_value hf, ← hu, merge_pick hlen', value_digits hr]

theorem idxOf_fiber (hr : r ∈ fiber mask shape us) :
    (fiber mask shape us).idxOf r = value (pick mask shape) (pick mask (digits shape r)) := by
  obtain ⟨i, hi, rfl⟩ := mem_map.mp hr
  have hi' := mem_range.mp hi
  rw [value_pick_fiber hpos hlen hus hi']
  have hget : (fiber mask shape us)[i]? =
      some (value shape (merge mask (digits (pick mask shape) i) us)) := by
    unfold fiber
    rw [getElem?_map, getElem?_range hi']
    rfl
  obtain ⟨hlt, hget⟩ := List.getElem?_eq_some_iff.mp hget
  rw [← hget]
  exact (nodup_fiber hpos hlen hus).idxOf_getElem i hlt

end Fiber

/-! ## All fibers -/

section Fibers

variable {mask : List Bool} {g g' : List ℕ}

/-- The fibers of a mask, in the order of their other digits. -/
def fibers (mask : List Bool) (shape : List ℕ) : List (List ℕ) :=
  (range (pick (others mask) shape).prod).map fun i =>
    fiber mask shape (digits (pick (others mask) shape) i)

theorem others_others (mask : List Bool) : others (others mask) = mask := by
  unfold others
  rw [map_map]
  exact (map_congr_left fun b _ => Bool.not_not b).trans (map_id mask)

theorem length_others (mask : List Bool) : (others mask).length = mask.length := by
  simp [others]

theorem length_flatten_fibers (hlen : mask.length = shape.length) :
    (fibers mask shape).flatten.length = shape.prod := by
  have hmap : (fibers mask shape).map length =
      replicate (pick (others mask) shape).prod (pick mask shape).prod := by
    rw [fibers, map_map, eq_replicate_iff]
    refine ⟨by simp, fun n hn => ?_⟩
    obtain ⟨i, -, rfl⟩ := mem_map.mp hn
    exact length_fiber
  rw [length_flatten, hmap, sum_replicate, smul_eq_mul, mul_comm, prod_pick hlen]

variable (hpos : ∀ s ∈ shape, 0 < s) (hlen : mask.length = shape.length)

include hpos

theorem prod_pick_pos (mask : List Bool) : 0 < (pick mask shape).prod :=
  prod_pos fun s hs => hpos s (mem_of_mem_pick hs)

theorem ne_nil_of_mem_fibers (hg : g ∈ fibers mask shape) : g ≠ [] := by
  obtain ⟨i, -, rfl⟩ := mem_map.mp hg
  refine ne_nil_of_length_pos ?_
  rw [length_fiber]
  exact prod_pick_pos hpos mask

include hlen

theorem prod_div_prod_pick :
    shape.prod / (pick mask shape).prod = (pick (others mask) shape).prod := by
  rw [← prod_pick hlen, Nat.mul_div_cancel_left _ (prod_pick_pos hpos mask)]

theorem mem_fibers_iff : g ∈ fibers mask shape ∧ r ∈ g ↔
    r < shape.prod ∧ g = fiber mask shape (pick (others mask) (digits shape r)) := by
  rw [fibers, mem_map]
  constructor
  · rintro ⟨⟨i, -, rfl⟩, hr⟩
    rw [mem_fiber hpos hlen (fits_pick_digits hpos (others mask) i)] at hr
    exact ⟨hr.1, by rw [hr.2]⟩
  · rintro ⟨hr, rfl⟩
    have hfits := (fits_digits hpos r).pick (others mask)
    refine ⟨⟨value (pick (others mask) shape) (pick (others mask) (digits shape r)), ?_, ?_⟩, ?_⟩
    · exact mem_range.mpr (value_lt hfits)
    · rw [digits_value hfits]
    · exact (mem_fiber hpos hlen hfits).mpr ⟨hr, rfl⟩

theorem fibers_perm : (fibers mask shape).flatten.Perm (range shape.prod) := by
  have hsub : range shape.prod ⊆ (fibers mask shape).flatten := by
    intro r hr
    have hmem := (mem_fibers_iff hpos hlen).mpr ⟨mem_range.mp hr, rfl⟩
    exact mem_flatten_of_mem hmem.1 hmem.2
  -- the fibers cover the range and have no more members than it
  refine ((subperm_of_subset nodup_range hsub).perm_of_length_le ?_).symm
  rw [length_flatten_fibers hlen, length_range]

theorem map_value_of_mem_fibers (hg : g ∈ fibers mask shape) :
    g.map (fun r => value (pick mask shape) (pick mask (digits shape r))) =
      range (pick mask shape).prod := by
  obtain ⟨i, -, rfl⟩ := mem_map.mp hg
  rw [fiber, map_map]
  conv_rhs => rw [← map_id (range (pick mask shape).prod)]
  refine map_congr_left fun j hj => ?_
  exact value_pick_fiber hpos hlen (fits_pick_digits hpos (others mask) i) (mem_range.mp hj)

/-- Fibers of opposite masks meet once: the one gives the other digits, the other the marked. -/
theorem existsUnique_mem_fibers (hg : g ∈ fibers mask shape)
    (hg' : g' ∈ fibers (others mask) shape) : ∃! r, r ∈ g ∧ r ∈ g' := by
  have hlen' : (others mask).length = shape.length := (length_others mask).trans hlen
  obtain ⟨i, -, rfl⟩ := mem_map.mp hg
  obtain ⟨j, -, rfl⟩ := mem_map.mp hg'
  have hus := fits_pick_digits hpos (others mask) i
  have hds := fits_pick_digits hpos (others (others mask)) j
  rw [others_others] at hds
  obtain ⟨hfits, hd, hu⟩ := fits_merge hlen hds hus
  have hmem : ∀ r, r ∈ fiber mask shape (digits (pick (others mask) shape) i) ∧
      r ∈ fiber (others mask) shape (digits (pick (others (others mask)) shape) j) ↔
        r < shape.prod ∧ pick (others mask) (digits shape r) = digits (pick (others mask) shape) i ∧
          pick mask (digits shape r) = digits (pick mask shape) j := by
    intro r
    rw [mem_fiber hpos hlen hus,
      mem_fiber hpos hlen' (fits_pick_digits hpos (others (others mask)) j), others_others]
    exact ⟨fun h => ⟨h.1.1, h.1.2, h.2.2⟩, fun h => ⟨⟨h.1, h.2.1⟩, h.1, h.2.2⟩⟩
  refine ⟨value shape (merge mask (digits (pick mask shape) j)
    (digits (pick (others mask) shape) i)), (hmem _).mpr ?_, fun r hr => ?_⟩
  · rw [digits_value hfits]
    exact ⟨value_lt hfits, hu, hd⟩
  · obtain ⟨hlt, hu', hd'⟩ := (hmem r).mp hr
    have hlen'' : mask.length = (digits shape r).length :=
      hlen.trans (fits_digits hpos r).length_eq
    rw [← hu', ← hd', merge_pick hlen'', value_digits hlt]

end Fibers

end MixedRadix
