import MegatronDPU.Lib.Strided
import MegatronDPU.Parallel.RankGenerator

/-!
# Orthogonal groups of ranks

What `generate_masked_orthogonal_rank_groups` is for: the ranks of the world are the points of a
grid with one axis for each kind of parallelism. A mask gives a partition of the ranks by their
coordinates on the other axes, and the partitions of a mask and of its complement are orthogonal
(`generateMaskedOrthogonalRankGroups_orthogonal`).
-/

namespace MegatronDPU.Parallel

open MixedRadix
open Strided (Partitions)

/-- The coordinates along the masked axes. -/
def coordinates (mask : List Bool) (parallelSize : List ℕ) (rank : ℕ) : List ℕ :=
  pick mask (digits parallelSize rank)

/-- The groups of a mask: the ranks that share their coordinates on the axes that are not marked,
in the mixed-radix order of the marked ones. -/
structure MaskedGroups (parallelSize : List ℕ) (mask : List Bool) (groups : List (List ℕ)) :
    Prop where
  partitions : Partitions groups parallelSize.prod
  mem_iff : ∀ group ∈ groups, ∀ rank ∈ group, ∀ rank', rank' ∈ group ↔
    rank' < parallelSize.prod ∧
      coordinates (others mask) parallelSize rank' = coordinates (others mask) parallelSize rank
  order : ∀ group ∈ groups,
    group.map (fun rank => value (pick mask parallelSize) (coordinates mask parallelSize rank)) =
      List.range (pick mask parallelSize).prod

variable {parallelSize : List ℕ} {mask : List Bool} {worldSize : ℕ}

theorem maskedGroups_fibers (hpos : ∀ s ∈ parallelSize, 0 < s)
    (hlen : mask.length = parallelSize.length) :
    MaskedGroups parallelSize mask (fibers mask parallelSize) where
  partitions := ⟨fibers_perm hpos hlen, fun hnil => ne_nil_of_mem_fibers hpos hnil rfl⟩
  mem_iff group hgroup rank hrank rank' := by
    obtain ⟨-, rfl⟩ := (mem_fibers_iff hpos hlen).mp ⟨hgroup, hrank⟩
    exact mem_fiber hpos hlen ((fits_digits hpos rank).pick (others mask))
  order _ hgroup := map_value_of_mem_fibers hpos hlen hgroup

/-- For axes whose sizes multiply up to the world, no assertion fails, and both a mask and its
complement give partitions of the ranks, of which any two groups meet in one rank. -/
theorem generateMaskedOrthogonalRankGroups_orthogonal (hpos : ∀ s ∈ parallelSize, 1 ≤ s)
    (hworld : parallelSize.prod = worldSize) (hlen : mask.length = parallelSize.length) :
    ∃ groups groups',
      generateMaskedOrthogonalRankGroups worldSize parallelSize mask = .ok groups ∧
      generateMaskedOrthogonalRankGroups worldSize parallelSize (others mask) = .ok groups' ∧
      MaskedGroups parallelSize mask groups ∧
      MaskedGroups parallelSize (others mask) groups' ∧
      ∀ group ∈ groups, ∀ group' ∈ groups', ∃! rank, rank ∈ group ∧ rank ∈ group' := by
  subst hworld
  have hlen' : (others mask).length = parallelSize.length := (length_others mask).trans hlen
  refine ⟨fibers mask parallelSize, fibers (others mask) parallelSize,
    generateMaskedOrthogonalRankGroups_eq hpos hlen,
    generateMaskedOrthogonalRankGroups_eq hpos hlen', maskedGroups_fibers hpos hlen,
    maskedGroups_fibers hpos hlen', ?_⟩
  intro group hgroup group' hgroup'
  exact existsUnique_mem_fibers hpos hlen hgroup hgroup'

/-- The `dp` groups of the example in the source: axes tp, dp, pp of sizes 2, 3, 4. -/
theorem generateMaskedOrthogonalRankGroups_orthogonal_dp : ∃ groups groups',
      generateMaskedOrthogonalRankGroups 24 [2, 3, 4] [false, true, false] = .ok groups ∧
      generateMaskedOrthogonalRankGroups 24 [2, 3, 4] (others [false, true, false]) = .ok groups' ∧
      MaskedGroups [2, 3, 4] [false, true, false] groups ∧
      MaskedGroups [2, 3, 4] (others [false, true, false]) groups' ∧
      ∀ group ∈ groups, ∀ group' ∈ groups', ∃! rank, rank ∈ group ∧ rank ∈ group' :=
  generateMaskedOrthogonalRankGroups_orthogonal (by decide) rfl rfl

end MegatronDPU.Parallel
