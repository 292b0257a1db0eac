import Mathlib.Tactic

/-!
# Rooted trees by parents

The nodes of a tree are the numbers below `n`; `0` is the root, and from every node the parents lead
to it. `depth` counts them, `Above i j` says that `j` is `i` or one of its ancestors, `children`
lists the children of a node in order, and next-sibling links enumerate such a list (`Links`).

`follow` is the walk that takes the first child accepted by its parent. If no two children of a
node are accepted, it is a cut of the longest path of accepted children (`exists_longest`).
-/

namespace MegatronDPU

open Function List

/-- A tree on the numbers below `n` whose root is 0. -/
structure RootedTree (n : ℕ) where
  parent : ℕ → ℕ
  parent_lt : ∀ i < n, parent i < n
  reaches : ∀ i < n, ∃ k, parent^[k] i = 0
  parent_zero : parent 0 = 0

namespace RootedTree

variable {n : ℕ} (T : RootedTree n) {i j p c : ℕ}

/-! ## Depth and ancestors -/

open Classical in
/-- The steps from a node to the root. -/
noncomputable def depth (i : ℕ) : ℕ := if h : ∃ k, T.parent^[k] i = 0 then Nat.find h else 0

/-- `j` is `i` or an ancestor of it. -/
def Above (i j : ℕ) : Prop := ∃ k, T.parent^[k] i = j

theorem iterate_parent_zero (k : ℕ) : T.parent^[k] 0 = 0 := by
  induction k with
  | zero => rfl
  | succ k ih => rw [iterate_succ_apply', ih, T.parent_zero]

theorem iterate_parent_lt (hi : i < n) (k : ℕ) : T.parent^[k] i < n := by
  induction k with
  | zero => exact hi
  | succ k ih =>
    rw [iterate_succ_apply']
    exact T.parent_lt _ ih

theorem depth_zero : T.depth 0 = 0 := by
  classical
  rw [depth, dif_pos ⟨0, rfl⟩, Nat.find_eq_zero]
  rfl

theorem iterate_depth (hi : i < n) : T.parent^[T.depth i] i = 0 := by
  classical
  rw [depth, dif_pos (T.reaches i hi)]
  exact Nat.find_spec (T.reaches i hi)

theorem depth_le {k : ℕ} (h : T.parent^[k] i = 0) : T.depth i ≤ k := by
  classical
  rw [depth, dif_pos ⟨k, h⟩]
  exact Nat.find_min' _ h

theorem depth_parent (hi : i < n) (h0 : i ≠ 0) : T.depth i = T.depth (T.parent i) + 1 := by
  have hspec := T.iterate_depth (T.parent_lt i hi)
  refine le_antisymm (T.depth_le hspec) ?_
  cases hd : T.depth i with
  | zero =>
    have h := T.iterate_depth hi
    rw [hd] at h
    exact absurd h h0
  | succ d =>
    have h := T.iterate_depth hi
    rw [hd, iterate_succ_apply] at h
    exact Nat.succ_le_succ (T.depth_le h)

theorem depth_iterate (hi : i < n) {k : ℕ} (hk : k ≤ T.depth i) :
    T.depth (T.parent^[k] i) = T.depth i - k := by
  induction k with
  | zero => rfl
  | succ k ih =>
    have hne : T.parent^[k] i ≠ 0 := fun h => absurd (T.depth_le h) (by omega)
    have hstep := T.depth_parent (T.iterate_parent_lt hi k) hne
    rw [iterate_succ_apply']
    have := ih (by omega)
    omega

theorem depth_lt (hi : i < n) : T.depth i < n := by
  by_contra hge
  let f (k : Fin (n + 1)) : Fin n := ⟨T.parent^[k] i, T.iterate_parent_lt hi k⟩
  obtain ⟨k, l, hne, heq⟩ := Fintype.exists_ne_map_eq_of_card_lt f (by simp)
  have heq : T.parent^[(k : ℕ)] i = T.parent^[(l : ℕ)] i := congrArg Fin.val heq
  have hk := T.depth_iterate hi (k := k) (by omega)
  have hl := T.depth_iterate hi (k := l) (by omega)
  rw [heq] at hk
  exact hne (Fin.ext (by omega))

theorem above_zero (hi : i < n) : T.Above i 0 := T.reaches i hi

theorem above_root_iff : T.Above 0 j ↔ j = 0 := by
  constructor
  · rintro ⟨k, rfl⟩
    exact T.iterate_parent_zero k
  · rintro rfl
    exact ⟨0, rfl⟩

theorem above_iff : T.Above i j ↔ j = i ∨ T.Above (T.parent i) j := by
  constructor
  · rintro ⟨k, rfl⟩
    cases k with
    | zero => exact .inl rfl
    | succ k => exact .inr ⟨k, by rw [iterate_succ_apply]⟩
  · rintro (rfl | ⟨k, rfl⟩)
    · exact ⟨0, rfl⟩
    · exact ⟨k + 1, by rw [iterate_succ_apply]⟩

/-! ## Children and links -/

/-- The children of `p` among the nodes that are not below `i`, in order. -/
def childrenFrom (i p : ℕ) : List ℕ :=
  (List.range' i (n - i)).filter fun c => c ≠ 0 ∧ T.parent c = p

/-- The children of a node in ascending order. -/
def children (p : ℕ) : List ℕ := T.childrenFrom 0 p

theorem mem_children : c ∈ T.children p ↔ c < n ∧ c ≠ 0 ∧ T.parent c = p := by
  simp [children, childrenFrom]

theorem childrenFrom_succ (hi : i < n) (h0 : i ≠ 0) : T.childrenFrom i p =
    if T.parent i = p then i :: T.childrenFrom (i + 1) p else T.childrenFrom (i + 1) p := by
  have hrange : List.range' i (n - i) = i :: List.range' (i + 1) (n - (i + 1)) := by
    have hlen : n - i = n - (i + 1) + 1 := by omega
    rw [hlen, range'_succ]
  rw [childrenFrom, hrange, filter_cons]
  split_ifs with h₁ h₂ h₂
  · rfl
  · simp [h₂] at h₁
  · simp [h0, h₂] at h₁
  · rfl

theorem childrenFrom_one : T.childrenFrom 1 p = T.children p := by
  unfold children childrenFrom
  cases n with
  | zero => rfl
  | succ n =>
    rw [Nat.sub_zero, range'_succ, filter_cons]
    simp

end RootedTree

/-- The links `next` follow from `first` through `l`; `-1` ends them. -/
def Links (next : ℕ → ℤ) : ℤ → List ℕ → Prop
  | first, [] => first = -1
  | first, c :: l => first = c ∧ Links next (next c) l

theorem links_congr {next next' : ℕ → ℤ} {first : ℤ} {l : List ℕ} (h : Links next first l)
    (heq : ∀ c ∈ l, next' c = next c) : Links next' first l := by
  induction l generalizing first with
  | nil => exact h
  | cons c l ih =>
    refine ⟨h.1, ?_⟩
    rw [heq c mem_cons_self]
    exact ih h.2 fun c' hc' => heq c' (mem_cons_of_mem c hc')

namespace RootedTree

variable {n : ℕ} (T : RootedTree n)

/-! ## Following accepted children -/

variable (accept : ℕ → ℕ → Bool)

/-- A path from `p` downwards on which every node is accepted by its parent. -/
def AcceptedPath : ℕ → List ℕ → Prop
  | _, [] => True
  | p, c :: l => c ∈ T.children p ∧ accept p c = true ∧ AcceptedPath c l

/-- At most `k` steps to the first child that is accepted. -/
def follow : ℕ → ℕ → List ℕ
  | 0, _ => []
  | k + 1, p =>
    match (T.children p).find? (accept p) with
    | none => []
    | some c => c :: follow k c

variable {T accept}

theorem length_follow_le (k p : ℕ) : (T.follow accept k p).length ≤ k := by
  induction k generalizing p with
  | zero => exact le_rfl
  | succ k ih =>
    rw [follow]
    split
    · exact Nat.zero_le _
    · exact Nat.succ_le_succ (ih _)

theorem acceptedPath_follow (k p : ℕ) : T.AcceptedPath accept p (T.follow accept k p) := by
  induction k generalizing p with
  | zero => trivial
  | succ k ih =>
    rw [follow]
    split
    · trivial
    · next c hc => exact ⟨mem_of_find?_eq_some hc, find?_some hc, ih c⟩

theorem AcceptedPath.length_lt {p : ℕ} {l : List ℕ} (h : T.AcceptedPath accept p l) (hp : p < n) :
    T.depth p + l.length < n := by
  induction l generalizing p with
  | nil => exact T.depth_lt hp
  | cons c l ih =>
    obtain ⟨hc, -, hl⟩ := h
    obtain ⟨hcn, hc0, rfl⟩ := T.mem_children.mp hc
    have hrest := ih hl hcn
    rw [T.depth_parent hcn hc0] at hrest
    rw [length_cons]
    omega

section

variable
  (huniq : ∀ p, ∀ c ∈ T.children p, ∀ c' ∈ T.children p,
    accept p c = true → accept p c' = true → c = c')
include huniq

/-- Where at most one child of a node is accepted, every accepted path goes along. -/
theorem take_prefix_follow {k p : ℕ} {l : List ℕ} (h : T.AcceptedPath accept p l) :
    l.take k <+: T.follow accept k p := by
  induction k generalizing p l with
  | zero => exact nil_prefix
  | succ k ih =>
    cases l with
    | nil => exact nil_prefix
    | cons c l =>
      obtain ⟨hc, hacc, hl⟩ := h
      obtain ⟨c', hfind⟩ := Option.isSome_iff_exists.mp
        (find?_isSome.mpr ⟨c, hc, hacc⟩ : ((T.children p).find? (accept p)).isSome = true)
      obtain rfl := huniq p c hc c' (mem_of_find?_eq_some hfind) hacc (find?_some hfind)
      rw [follow, hfind, take_succ_cons]
      exact cons_prefix_cons.mpr ⟨rfl, ih hl⟩

theorem exists_longest {p : ℕ} (hp : p < n) : ∃ longest, T.AcceptedPath accept p longest ∧
      (∀ l, T.AcceptedPath accept p l → l <+: longest) ∧
      ∀ k, T.follow accept k p = longest.take k := by
  have hall : ∀ l, T.AcceptedPath accept p l → l <+: T.follow accept n p := by
    intro l hl
    have hlen := hl.length_lt hp
    have h := take_prefix_follow huniq (k := n) hl
    rwa [take_of_length_le (by omega)] at h
  refine ⟨T.follow accept n p, acceptedPath_follow n p, hall, fun k => ?_⟩
  have hcut := prefix_take_iff.mpr
    ⟨hall _ (acceptedPath_follow k p), length_follow_le k p⟩
  have hback := take_prefix_follow huniq (k := k) (acceptedPath_follow n p)
  exact hcut.eq_of_length_le hback.length_le

end

end RootedTree

end MegatronDPU
