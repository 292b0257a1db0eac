import MegatronDPU.Lib.MixedRadix

/-!
# Grids with named axes

The points of a grid are numbered in mixed radix, in an order of its axes. For some of the axes the
grid falls into groups: points that agree on all the other axes (`mem_group`). The position of a
point in its group for one axis is its coordinate on that axis (`idxOf_group_single`).
-/

open MixedRadix Option

/-- An order of named axes. An axis may be named again if it has one point only. -/
structure Grid (α : Type*) [DecidableEq α] where
  order : List α
  size : α → ℕ
  size_pos : ∀ a, 0 < size a
  mem_order : ∀ a, a ∈ order
  once : ∀ a, order.count a = 1 ∨ size a = 1

namespace Grid

open List

variable {α : Type*} [DecidableEq α] (G : Grid α) {a : α} {want : List α} {r r' : ℕ}

def shape : List ℕ := G.order.map G.size

def card : ℕ := G.shape.prod

/-- The coordinate of a rank along an axis. -/
def coord (a : α) (r : ℕ) : ℕ := (digits G.shape r).getD (G.order.idxOf a) 0

/-- The axes that are wanted. -/
def mask (want : List α) : List Bool :=
  want.foldl (fun m a => m.set (G.order.idxOf a) true) (List.replicate G.order.length false)

/-- The points that agree with `r` on the axes that are not wanted. -/
def group (want : List α) (r : ℕ) : List ℕ :=
  fiber (G.mask want) G.shape (pick (others (G.mask want)) (digits G.shape r))

/-- The ranks that differ in the wanted axes only. -/
def groups (want : List α) : List (List ℕ) :=
  (List.range (G.card / (pick (G.mask want) G.shape).prod)).map fun g =>
    fiber (G.mask want) G.shape (digits (pick (others (G.mask want)) G.shape) g)

theorem shape_pos : ∀ s ∈ G.shape, 0 < s := by
  intro s hs
  obtain ⟨a, -, rfl⟩ := mem_map.mp hs
  exact G.size_pos a

theorem card_eq [Fintype α] : G.card = ∏ a, G.size a := by
  have huniv : G.order.toFinset = Finset.univ :=
    Finset.eq_univ_of_forall fun a => mem_toFinset.mpr (G.mem_order a)
  rw [card, shape, Finset.prod_list_map_count, huniv]
  refine Finset.prod_congr rfl fun a _ => ?_
  rcases G.once a with h | h
  · rw [h, pow_one]
  · rw [h, one_pow]

/-! ## Masks -/

omit [DecidableEq α] in
theorem length_foldl_set (f : α → ℕ) (m : List Bool) :
    (want.foldl (fun m a => m.set (f a) true) m).length = m.length := by
  induction want generalizing m with
  | nil => rfl
  | cons a want ih => rw [foldl_cons, ih, length_set]

theorem length_mask : (G.mask want).length = G.shape.length := by
  rw [mask, length_foldl_set, length_replicate, shape, length_map]

omit [DecidableEq α] in
theorem getElem?_foldl_set (f : α → ℕ) (m : List Bool) (i : ℕ) :
    (want.foldl (fun m a => m.set (f a) true) m)[i]? = some true ↔
      i < m.length ∧ ((∃ a ∈ want, f a = i) ∨ m[i]? = some true) := by
  induction want generalizing m with
  | nil =>
    simp only [foldl_nil, not_mem_nil, false_and, exists_false, false_or]
    exact ⟨fun h => ⟨(List.getElem?_eq_some_iff.mp h).1, h⟩, And.right⟩
  | cons a want ih =>
    rw [foldl_cons, ih, length_set, getElem?_set]
    refine and_congr_right fun hi => ?_
    rw [exists_mem_cons_iff]
    split_ifs with h h'
    · exact ⟨fun _ => .inl (.inl h), fun _ => .inr rfl⟩
    · exact absurd (h ▸ hi) h'
    · simp only [h, false_or]

theorem mask_eq_true_iff {i : ℕ} (hi : i < G.order.length) :
    (G.mask want)[i]? = some true ↔ G.order[i] ∈ want ∧ G.order.idxOf G.order[i] = i := by
  rw [mask, getElem?_foldl_set, length_replicate]
  constructor
  · rintro ⟨-, ⟨a, ha, rfl⟩ | h⟩
    · rw [getElem_idxOf hi]
      exact ⟨ha, rfl⟩
    · rw [getElem?_replicate_of_lt hi] at h
      cases h
  · exact fun h => ⟨hi, .inl ⟨_, h.1, h.2⟩⟩

theorem others_eq_true_iff {i : ℕ} (hi : i < G.order.length) :
    (others (G.mask want))[i]? = some true ↔
      ¬(G.order[i] ∈ want ∧ G.order.idxOf G.order[i] = i) := by
  have hlen : i < (G.mask want).length := by
    rw [length_mask, shape, length_map]
    exact hi
  rw [← G.mask_eq_true_iff hi, others, getElem?_map, getElem?_eq_getElem hlen]
  cases (G.mask want)[i] <;> simp

/-! ## Coordinates -/

theorem length_digits (r : ℕ) : (digits G.shape r).length = G.order.length := by
  rw [← (fits_digits G.shape_pos r).length_eq, shape, length_map]

theorem coord_eq_getElem (a : α) (r : ℕ) :
    (digits G.shape r)[G.order.idxOf a]? = some (G.coord a r) := by
  have hlt : G.order.idxOf a < (digits G.shape r).length := by
    rw [length_digits]
    exact idxOf_lt_length_of_mem (G.mem_order a)
  rw [coord, getD_eq_getElem?_getD, getElem?_eq_getElem hlt, getD_some]

theorem digit_lt {i : ℕ} (hi : i < G.order.length) {d : ℕ} (hd : (digits G.shape r)[i]? = some d) :
    d < G.size G.order[i] := by
  obtain ⟨hlt, rfl⟩ := List.getElem?_eq_some_iff.mp hd
  have h := (forall₂_iff_get.mp (fits_digits G.shape_pos r)).2 i
    (by rw [shape, length_map]; exact hi) hlt
  simpa [shape] using h

theorem coord_lt (a : α) (r : ℕ) : G.coord a r < G.size a := by
  have hi := idxOf_lt_length_of_mem (G.mem_order a)
  have h := G.digit_lt hi (G.coord_eq_getElem a r)
  rwa [getElem_idxOf hi] at h

theorem idxOf_of_count_eq_one {l : List α} {i : ℕ} (hi : i < l.length) (h : l.count l[i] = 1) :
    l.idxOf l[i] = i := by
  have hj := idxOf_lt_length_of_mem (getElem_mem hi)
  have hget : l[i] = l[l.idxOf l[i]] := (getElem_idxOf hj).symm
  by_contra hne
  have hdup : l.Duplicate l[i] := by
    rw [duplicate_iff_exists_distinct_get]
    rcases lt_or_gt_of_ne hne with hlt | hlt
    · exact ⟨⟨_, hj⟩, ⟨i, hi⟩, hlt, hget, rfl⟩
    · exact ⟨⟨i, hi⟩, ⟨_, hj⟩, hlt, rfl, hget⟩
  rw [duplicate_iff_two_le_count, h] at hdup
  omega

theorem digit_eq_zero {i : ℕ} (hi : i < G.order.length) (hne : G.order.idxOf G.order[i] ≠ i) :
    (digits G.shape r)[i]? = some 0 := by
  have hsize : G.size G.order[i] = 1 := by
    exact (G.once _).resolve_left fun hcount => hne (idxOf_of_count_eq_one hi hcount)
  have hlt : i < (digits G.shape r).length := by rwa [length_digits]
  have hd := getElem?_eq_getElem hlt
  have h0 := G.digit_lt hi hd
  rw [hsize, Nat.lt_one_iff] at h0
  rw [hd, h0]

theorem pick_others_eq_iff : pick (others (G.mask want)) (digits G.shape r) =
    pick (others (G.mask want)) (digits G.shape r') ↔
      ∀ a ∉ want, G.coord a r = G.coord a r' := by
  have hlen : ∀ r, (others (G.mask want)).length = (digits G.shape r).length := by
    intro r
    rw [others, length_map, length_mask, length_digits, shape, length_map]
  rw [pick_eq_pick_iff (hlen r) (hlen r')]
  constructor
  · intro h a ha
    have hi := idxOf_lt_length_of_mem (G.mem_order a)
    have hm := (G.others_eq_true_iff hi).mpr fun hc => ha (by
      rw [← getElem_idxOf hi]
      exact hc.1)
    have h' := h _ hm
    rw [coord_eq_getElem, coord_eq_getElem] at h'
    exact some.inj h'
  · intro h i hi
    have hlt : i < G.order.length := by
      have := (List.getElem?_eq_some_iff.mp hi).1
      rwa [hlen r, length_digits] at this
    by_cases hfirst : G.order.idxOf G.order[i] = i
    · have hnot : G.order[i] ∉ want := fun hc => (G.others_eq_true_iff hlt).mp hi ⟨hc, hfirst⟩
      have h' := congrArg some (h _ hnot)
      rw [← coord_eq_getElem, ← coord_eq_getElem, hfirst] at h'
      exact h'
    · rw [G.digit_eq_zero hlt hfirst, G.digit_eq_zero hlt hfirst]

/-! ## Groups -/

theorem fits_others (r : ℕ) :
    Fits (pick (others (G.mask want)) G.shape) (pick (others (G.mask want)) (digits G.shape r)) :=
  (fits_digits G.shape_pos r).pick _

theorem mem_group : r' ∈ G.group want r ↔ r' < G.card ∧ ∀ a ∉ want, G.coord a r' = G.coord a r := by
  rw [group, mem_fiber G.shape_pos G.length_mask (G.fits_others r), pick_others_eq_iff]
  rfl

theorem sorted_group : (G.group want r).Pairwise (· < ·) :=
  sorted_fiber G.shape_pos G.length_mask (G.fits_others r)

theorem groups_eq_fibers : G.groups want = fibers (G.mask want) G.shape := by
  rw [groups, card, prod_div_prod_pick G.shape_pos G.length_mask, fibers]

theorem mem_groups_iff {g : List ℕ} :
    g ∈ G.groups want ∧ r ∈ g ↔ r < G.card ∧ g = G.group want r := by
  rw [groups_eq_fibers, mem_fibers_iff G.shape_pos G.length_mask]
  rfl

theorem idxOf_group_single (hr : r < G.card) : (G.group [a] r).idxOf r = G.coord a r := by
  have hmem : r ∈ G.group [a] r := G.mem_group.mpr ⟨hr, fun _ _ => rfl⟩
  have hi := idxOf_lt_length_of_mem (G.mem_order a)
  have hshape : G.order.length = G.shape.length := (length_map _).symm
  rw [group, idxOf_fiber G.shape_pos G.length_mask (G.fits_others r) hmem]
  have hmask : G.mask [a] = (List.replicate G.order.length false).set (G.order.idxOf a) true := rfl
  have hpick : ∀ l : List ℕ, (h : l.length = G.order.length) →
      pick (G.mask [a]) l = [l[G.order.idxOf a]] := by
    intro l h
    rw [hmask, ← h, pick_single]
  obtain ⟨hlt, hcoord⟩ := List.getElem?_eq_some_iff.mp (G.coord_eq_getElem a r)
  rw [hpick _ hshape.symm, hpick _ (G.length_digits r), hcoord]
  show G.coord a r + G.shape[G.order.idxOf a] * 0 = G.coord a r
  rw [mul_zero, add_zero]

end Grid
