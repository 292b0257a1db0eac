import Mathlib.Tactic

/-!
# Strided groups

The numbers below `m * n * s` in rows of `n * s`: the groups of a row are its `s` residues, each
with `n` members that are `s` apart. `s = 1` gives blocks of consecutive numbers.

1. `partitions_groups`: the groups cover every number once.
2. `idxOf_of_mem_groups`: the position of `r` in its group is `r / s % n`.
-/

namespace MegatronDPU.Strided

open List Nat

/-- Residue `j` of row `o`. -/
def group (s n o j : ℕ) : List ℕ := (range n).map fun i => (o * n + i) * s + j

/-- The groups of `m` rows. -/
def groups (s n m : ℕ) : List (List ℕ) :=
  (range m).flatMap fun o => (range s).map (group s n o)

/-- No list is empty and every number below `N` is in exactly one of them, once. -/
structure Partitions (gs : List (List ℕ)) (N : ℕ) : Prop where
  perm : gs.flatten.Perm (range N)
  ne_nil : [] ∉ gs

variable {s n m o j r N : ℕ} {g : List ℕ} {gs : List (List ℕ)}

theorem Partitions.lt_of_mem (h : Partitions gs N) (hg : g ∈ gs) (hr : r ∈ g) : r < N :=
  mem_range.mp (h.perm.mem_iff.mp (mem_flatten_of_mem hg hr))

theorem Partitions.exists_mem (h : Partitions gs N) (hr : r < N) : ∃ g ∈ gs, r ∈ g :=
  mem_flatten.mp (h.perm.mem_iff.mpr (mem_range.mpr hr))

/-! ## Members -/

theorem mem_groups : g ∈ groups s n m ↔ ∃ o < m, ∃ j < s, g = group s n o j := by
  simp [groups, eq_comm]

theorem mem_group (hj : j < s) : r ∈ group s n o j ↔ ∃ i < n, r / s = o * n + i ∧ r % s = j := by
  have hs : 0 < s := zero_lt_of_lt hj
  rw [group, mem_map]
  constructor
  · rintro ⟨i, hi, rfl⟩
    refine ⟨i, mem_range.mp hi, ?_, ?_⟩
    · rw [mul_comm, mul_add_div hs, div_eq_of_lt hj, add_zero]
    · rw [mul_comm, mul_add_mod, mod_eq_of_lt hj]
  · rintro ⟨i, hi, hdiv, hmod⟩
    refine ⟨i, mem_range.mpr hi, ?_⟩
    rw [← hdiv, ← hmod, div_add_mod']

theorem nodup_group (hs : 0 < s) : (group s n o j).Nodup := by
  apply List.Nodup.map _ nodup_range
  intro i i' h
  exact add_left_cancel (eq_of_mul_eq_mul_right hs (add_right_cancel h))

theorem idxOf_of_mem_groups (hg : g ∈ groups s n m) (hr : r ∈ g) : g.idxOf r = r / s % n := by
  obtain ⟨o, -, j, hj, rfl⟩ := mem_groups.mp hg
  obtain ⟨i, hi, hdiv, hmod⟩ := (mem_group hj).mp hr
  have hlt : i < (group s n o j).length := by rwa [group, length_map, length_range]
  have hget : (group s n o j)[i] = r := by
    simp only [group, getElem_map, getElem_range]
    rw [← hdiv, ← hmod, div_add_mod']
  conv_lhs => rw [← hget]
  rw [(nodup_group (zero_lt_of_lt hj)).idxOf_getElem, hdiv, mul_comm, mul_add_mod,
    mod_eq_of_lt hi]

/-! ## The partition -/

theorem exists_mem_groups (hr : r < m * n * s) : ∃ g ∈ groups s n m, r ∈ g := by
  have hs : 0 < s := pos_of_ne_zero fun h => by simp [h] at hr
  have hn : 0 < n := pos_of_ne_zero fun h => by simp [h] at hr
  refine ⟨group s n (r / s / n) (r % s), mem_groups.mpr ⟨_, ?_, _, mod_lt r hs, rfl⟩,
    (mem_group (mod_lt r hs)).mpr ⟨r / s % n, mod_lt _ hn, ?_, rfl⟩⟩
  · rw [div_lt_iff_lt_mul hn, div_lt_iff_lt_mul hs]
    exact hr
  · rw [div_add_mod']

theorem length_flatten_groups : (groups s n m).flatten.length = m * n * s := by
  have hrow (o : ℕ) : ((range s).map (group s n o)).flatten.length = n * s := by
    simp [group, Function.comp_def, mul_comm]
  rw [groups, flatMap, flatten_flatten, map_map, length_flatten, map_map]
  simp only [Function.comp_def, hrow]
  simp [mul_assoc]

theorem partitions_groups (hn : 0 < n) : Partitions (groups s n m) (m * n * s) := by
  refine ⟨?_, ?_⟩
  · -- the groups cover the range and have no more members than it
    have hsub : range (m * n * s) ⊆ (groups s n m).flatten := by
      intro r hr
      exact mem_flatten.mpr (exists_mem_groups (mem_range.mp hr))
    refine ((subperm_of_subset nodup_range hsub).perm_of_length_le ?_).symm
    rw [length_flatten_groups, length_range]
  · intro hnil
    obtain ⟨o, -, j, -, heq⟩ := mem_groups.mp hnil
    have hlen := congrArg length heq
    rw [group, length_map, length_range, length_nil] at hlen
    exact hn.ne hlen

/-! ## Blocks, and rows of rows -/

theorem groups_one : groups 1 n m = (range m).map fun o => (range n).map (o * n + ·) := by
  rw [map_eq_flatMap]
  simp [groups, group]

theorem flatMap_range_mul (m n : ℕ) :
    ((range m).flatMap fun i => (range n).map (i * n + ·)) = range (m * n) := by
  induction m with
  | zero => simp
  | succ m ih => rw [range_succ, flatMap_append, ih, succ_mul, range_add]; simp

theorem groups_mul (k : ℕ) : ((range k).flatMap fun i => (range m).flatMap fun o =>
      (range s).map (group s n (i * m + o))) = groups s n (k * m) := by
  rw [groups, ← flatMap_range_mul, flatMap_assoc]
  simp only [flatMap_map]

end MegatronDPU.Strided
