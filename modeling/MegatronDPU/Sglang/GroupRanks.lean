import MegatronDPU.Sglang.ParallelState

/-!
# Positions in the process groups of SGLang

A scheduler learns its ranks in the attention and expert groups before the groups exist:
`_compute_parallelism_ranks` and `compute_dp_attention_world_info` take them from the rank in the
tensor-parallel group by division. `initialize_model_parallel` builds the groups afterwards with
loops of their own; each family is one of strided groups (`Strided.groups`).
-/

namespace MegatronDPU.Sglang

open Raise Strided List GroupCoordinator

/-! ## The computed ranks -/

/-- The sizes given on the command line. -/
structure ParallelArgs where
  tpSize : ℕ
  ppSize : ℕ := 1
  dpSize : ℕ := 1
  enableDpAttention : Bool := false
  attnCpSize : ℕ := 1
  moeDpSize : ℕ := 1
  epSize : ℕ := 1
  enablePdmux : Bool := false
  deriving DecidableEq

namespace ParallelArgs

variable (args : ParallelArgs)

def attnDpSize : ℕ := if args.enableDpAttention then args.dpSize else 1

/-- The arguments with which `init_torch_distributed` calls `initialize_model_parallel`. -/
def modelParallelSizes : ModelParallelSizes where
  tensorModelParallelSize := args.tpSize
  attentionDataParallelSize := args.attnDpSize
  pipelineModelParallelSize := args.ppSize
  expertModelParallelSize := args.epSize
  attentionContextModelParallelSize := args.attnCpSize
  moeDataModelParallelSize := args.moeDpSize
  duplicateTpGroup := args.enablePdmux

end ParallelArgs

/-- The ranks that a process computes for itself. -/
structure ParallelismRanks where
  attnCpRank : ℕ
  moeDpRank : ℕ
  moeEpRank : ℕ
  deriving DecidableEq

/-- `_compute_parallelism_ranks`. -/
def computeParallelismRanks (args : ParallelArgs) (tpRank : ℕ) : ParallelismRanks :=
  let attnDpSize := if args.enableDpAttention then args.dpSize else 1
  let attnTpSize := args.tpSize / attnDpSize / args.attnCpSize
  { attnCpRank := tpRank / attnTpSize % args.attnCpSize
    moeDpRank := tpRank / (args.tpSize / args.moeDpSize)
    moeEpRank := tpRank % (args.tpSize / args.moeDpSize) /
      (args.tpSize / args.moeDpSize / args.epSize) }

/-- What the attention layers are told. -/
structure DpAttentionWorldInfo where
  attnTpRank : ℕ
  attnTpSize : ℕ
  attnDpRank : ℕ
  deriving DecidableEq

/-- `compute_dp_attention_world_info`. -/
def computeDpAttentionWorldInfo (enableDpAttention : Bool) (tpRank tpSize dpSize attnCpSize : ℕ) :
    DpAttentionWorldInfo :=
  let attnDpSize := if enableDpAttention then dpSize else 1
  let attnTpSize := tpSize / attnDpSize / attnCpSize
  { attnTpRank := tpRank % attnTpSize
    attnTpSize
    attnDpRank := if enableDpAttention then tpRank / (attnTpSize * attnCpSize) else 0 }

/-- `rank_in_group` of a coordinator made at `rank`. -/
def GroupCoordinator.rankInGroup (g : GroupCoordinator) (rank : ℕ) : ℕ := g.ranks.idxOf rank

/-! ## The families are strided -/

variable {a : ModelParallelSizes} {worldSize rank : ℕ}

/-- The sizes of attention and those of the experts fill a tensor-parallel group. -/
structure ModelParallelSizes.Divides (a : ModelParallelSizes) : Prop where
  pos : a.Pos
  attn : a.attentionContextModelParallelSize * a.attentionDataParallelSize ∣
    a.tensorModelParallelSize
  moe : a.expertModelParallelSize * a.moeDataModelParallelSize ∣ a.tensorModelParallelSize

namespace ModelParallelSizes.Divides

theorem attn_eq (h : a.Divides) : a.tensorModelParallelSize =
    a.attnTpSize * (a.attentionContextModelParallelSize * a.attentionDataParallelSize) := by
  rw [attnTpSize, Nat.div_div_eq_div_mul, Nat.div_mul_cancel h.attn]

theorem moe_eq (h : a.Divides) : a.tensorModelParallelSize =
    a.moeTpSize * (a.expertModelParallelSize * a.moeDataModelParallelSize) := by
  rw [moeTpSize, Nat.div_div_eq_div_mul, Nat.div_mul_cancel h.moe]

theorem attnTpSize_pos (h : a.Divides) : 0 < a.attnTpSize :=
  Nat.pos_of_mul_pos_right (h.attn_eq ▸ h.pos.1)

theorem moeTpSize_pos (h : a.Divides) : 0 < a.moeTpSize :=
  Nat.pos_of_mul_pos_right (h.moe_eq ▸ h.pos.1)

theorem numTpGroups_eq (h : a.Divides) : a.numTpGroups = a.pipelineModelParallelSize := by
  rw [numTpGroups, worldSize, Nat.mul_div_cancel_left _ h.pos.1]

end ModelParallelSizes.Divides

variable {n k : ℕ} {gs : List (List ℕ)}

theorem pyRangeStep_of_length {start stop step : ℕ} (h : (pyRangeStep start stop step).length = n) :
    pyRangeStep start stop step = (range n).map (start + · * step) := by
  rw [pyRangeStep, length_map, length_range] at h
  rw [pyRangeStep, h]

theorem pyRange_eq_map (start n : ℕ) :
    pyRange start (start + n) = (range n).map (start + ·) := by
  rw [pyRange, Nat.add_sub_cancel_left, range'_eq_map_range]

namespace ModelParallelSizes.Divides

section

variable (h : a.Divides)
include h

theorem tpGroupRanks_eq : a.tpGroupRanks =
    groups 1 a.tensorModelParallelSize a.pipelineModelParallelSize := by
  simp only [tpGroupRanks, h.numTpGroups_eq, Nat.succ_mul, pyRange_eq_map, groups_one]

theorem inTpGroups_eq {s : ℕ} (hs : 0 < s) (htp : a.tensorModelParallelSize = s * n * k) :
    (a.inTpGroups ((range k).flatMap fun o => (range s).map (o * (s * n) + ·))
      fun st => pyRangeStep st (st + s * n) s) = groups s n (a.pipelineModelParallelSize * k) := by
  have hgroup (i o j : ℕ) : pyRangeStep (i * a.tensorModelParallelSize + (o * (s * n) + j))
      (i * a.tensorModelParallelSize + (o * (s * n) + j) + s * n) s = group s n (i * k + o) j := by
    rw [pyRangeStep_of_length (length_pyRangeStep _ n hs), group, htp]
    apply map_congr_left
    intro x _
    ring
  rw [← groups_mul, inTpGroups, h.numTpGroups_eq]
  simp only [map_flatMap, map_map, Function.comp_def, hgroup]

theorem attnCpGroupRanks_eq : a.attnCpGroupRanks =
    groups a.attnTpSize a.attentionContextModelParallelSize
      (a.pipelineModelParallelSize * a.attentionDataParallelSize) :=
  h.inTpGroups_eq h.attnTpSize_pos (by rw [mul_assoc]; exact h.attn_eq)

theorem moeEpGroupRanks_eq : a.moeEpGroupRanks = groups a.moeTpSize a.expertModelParallelSize
      (a.pipelineModelParallelSize * a.moeDataModelParallelSize) := by
  rw [← h.inTpGroups_eq h.moeTpSize_pos (by rw [mul_assoc]; exact h.moe_eq), moeEpGroupRanks,
    mul_comm a.expertModelParallelSize]

theorem moeDpGroupRanks_eq : a.moeDpGroupRanks =
    groups (a.moeTpSize * a.expertModelParallelSize) a.moeDataModelParallelSize
      a.pipelineModelParallelSize := by
  have htp : a.tensorModelParallelSize =
      a.moeTpSize * a.expertModelParallelSize * a.moeDataModelParallelSize := by
    rw [mul_assoc]
    exact h.moe_eq
  have hfill := h.inTpGroups_eq (mul_pos h.moeTpSize_pos h.pos.2.1)
    (htp.trans (mul_one _).symm)
  rw [mul_one, ← htp] at hfill
  rw [← hfill, moeDpGroupRanks]
  simp

theorem inTpGroups_blocks_eq (htp : a.tensorModelParallelSize = n * k) :
    (a.inTpGroups ((range k).map (· * n)) fun st => pyRange st (st + n)) =
      groups 1 n (a.pipelineModelParallelSize * k) := by
  have hgroup (i o : ℕ) : pyRange (i * a.tensorModelParallelSize + o * n)
      (i * a.tensorModelParallelSize + o * n + n) = group 1 n (i * k + o) 0 := by
    rw [pyRange_eq_map, group, htp]
    apply map_congr_left
    intro x _
    ring
  rw [← groups_mul, inTpGroups, h.numTpGroups_eq]
  simp only [map_map, Function.comp_def, hgroup, range_one, map_cons, map_nil, ← map_eq_flatMap]

theorem ppGroupRanks_eq : a.ppGroupRanks =
    groups a.tensorModelParallelSize a.pipelineModelParallelSize 1 := by
  have hnum : a.worldSize / a.pipelineModelParallelSize = a.tensorModelParallelSize := by
    rw [worldSize, Nat.mul_div_cancel _ h.pos.2.2.1]
  rw [groups, range_one, flatMap_singleton, ppGroupRanks, hnum]
  apply map_congr_left
  intro i hi
  have hlen : (pyRangeStep i a.worldSize a.tensorModelParallelSize).length =
      a.pipelineModelParallelSize := by
    refine (nodup_length_pp h.pos _ (mem_map.mpr ⟨i, ?_, ?_⟩)).2
    · rwa [hnum]
    · rw [hnum]
  rw [pyRangeStep_of_length hlen, group]
  apply map_congr_left
  intro x _
  ring

end

end ModelParallelSizes.Divides

/-! ## Partitions -/

/-- The families of groups. -/
inductive Family where
  | tp | attnCp | attnTp | moeDp | moeEp | moeTp | pp
  deriving DecidableEq

def ParallelState.group (s : ParallelState) : Family → GroupCoordinator
  | .tp => s.tp
  | .attnCp => s.attnCp
  | .attnTp => s.attnTp
  | .moeDp => s.moeDp
  | .moeEp => s.moeEp
  | .moeTp => s.moeTp
  | .pp => s.pp

namespace ModelParallelSizes

/-- The family of a group with its own list of ranks, or the tensor-parallel family where the code
shares that group. -/
def sharedRanks (a : ModelParallelSizes) (size : ℕ) (groupRanks : List (List ℕ)) : List (List ℕ) :=
  if size = a.tensorModelParallelSize then a.tpGroupRanks else groupRanks

/-- The rank lists of a family. -/
def groupRanks (a : ModelParallelSizes) : Family → List (List ℕ)
  | .tp => a.tpGroupRanks
  | .attnCp => a.sharedRanks a.attentionContextModelParallelSize a.attnCpGroupRanks
  | .attnTp => a.sharedRanks a.attnTpSize a.attnTpGroupRanks
  | .moeDp => a.sharedRanks a.moeDataModelParallelSize a.moeDpGroupRanks
  | .moeEp => a.sharedRanks a.expertModelParallelSize a.moeEpGroupRanks
  | .moeTp => a.sharedRanks a.moeTpSize a.moeTpGroupRanks
  | .pp => a.ppGroupRanks

/-- The distance of the ranks of a group. -/
def stride (a : ModelParallelSizes) : Family → ℕ
  | .tp | .attnTp | .moeTp => 1
  | .attnCp => a.attnTpSize
  | .moeDp => a.moeTpSize * a.expertModelParallelSize
  | .moeEp => a.moeTpSize
  | .pp => a.tensorModelParallelSize

def groupSize (a : ModelParallelSizes) : Family → ℕ
  | .tp => a.tensorModelParallelSize
  | .attnCp => a.attentionContextModelParallelSize
  | .attnTp => a.attnTpSize
  | .moeDp => a.moeDataModelParallelSize
  | .moeEp => a.expertModelParallelSize
  | .moeTp => a.moeTpSize
  | .pp => a.pipelineModelParallelSize

def rows (a : ModelParallelSizes) : Family → ℕ
  | .tp | .moeDp => a.pipelineModelParallelSize
  | .attnCp => a.pipelineModelParallelSize * a.attentionDataParallelSize
  | .attnTp => a.pipelineModelParallelSize *
      (a.attentionContextModelParallelSize * a.attentionDataParallelSize)
  | .moeEp => a.pipelineModelParallelSize * a.moeDataModelParallelSize
  | .moeTp => a.pipelineModelParallelSize *
      (a.expertModelParallelSize * a.moeDataModelParallelSize)
  | .pp => 1

namespace Divides

theorem sharedRanks_eq (h : a.Divides) {s : ℕ} (htp : a.tensorModelParallelSize = s * n * k)
    (hgs : gs = groups s n (a.pipelineModelParallelSize * k)) :
    a.sharedRanks n gs = groups s n (a.pipelineModelParallelSize * k) := by
  unfold sharedRanks
  split_ifs with hn
  · have hone : s * k = 1 := by
      refine Nat.eq_of_mul_eq_mul_right (h.pos.1.trans_eq hn.symm) ?_
      rw [one_mul, mul_right_comm, ← htp, hn]
    rw [h.tpGroupRanks_eq, Nat.eq_one_of_mul_eq_one_right hone, Nat.eq_one_of_mul_eq_one_left hone,
      hn, mul_one]
  · exact hgs

section

variable (h : a.Divides) (f : Family)
include h f

theorem groupSize_pos : 0 < a.groupSize f := by
  obtain ⟨htp, hep, hpp, -, hcp, hdp⟩ := h.pos
  cases f
  exacts [htp, hcp, h.attnTpSize_pos, hdp, hep, h.moeTpSize_pos, hpp]

theorem rows_mul : a.rows f * a.groupSize f * a.stride f = a.worldSize := by
  have hattn := h.attn_eq
  have hmoe := h.moe_eq
  rw [worldSize]
  cases f with
  | tp => rw [rows, groupSize, stride]; ring
  | attnCp | attnTp => rw [hattn, rows, groupSize, stride]; ring
  | moeDp | moeEp | moeTp => rw [hmoe, rows, groupSize, stride]; ring
  | pp => rw [rows, groupSize, stride]; ring

theorem groupRanks_eq : a.groupRanks f = groups (a.stride f) (a.groupSize f) (a.rows f) := by
  have hattn := h.attn_eq
  have hmoe := h.moe_eq
  cases f with
  | tp => exact h.tpGroupRanks_eq
  | attnCp => exact h.sharedRanks_eq (by rw [mul_assoc]; exact hattn) h.attnCpGroupRanks_eq
  | attnTp =>
    exact h.sharedRanks_eq (by rw [stride, one_mul]; exact hattn) (h.inTpGroups_blocks_eq hattn)
  | moeDp =>
    refine (h.sharedRanks_eq (k := 1) ?_ ?_).trans (by rw [mul_one]; rfl)
    · rw [stride, mul_one, mul_assoc]; exact hmoe
    · rw [mul_one]; exact h.moeDpGroupRanks_eq
  | moeEp => exact h.sharedRanks_eq (by rw [mul_assoc]; exact hmoe) h.moeEpGroupRanks_eq
  | moeTp =>
    exact h.sharedRanks_eq (by rw [stride, one_mul]; exact hmoe) (h.inTpGroups_blocks_eq hmoe)
  | pp => exact h.ppGroupRanks_eq

theorem partitions : Partitions (a.groupRanks f) a.worldSize := by
  rw [h.groupRanks_eq, ← h.rows_mul f]
  exact partitions_groups (h.groupSize_pos f)

end

end Divides

end ModelParallelSizes

/-! ## The groups of a rank -/

theorem GroupCoordinator.init_of_partitions (h : Partitions gs worldSize)
    (hrank : rank < worldSize) (groupName : String) (c : Dict String ℕ) :
    ∃ g c', init worldSize rank gs groupName c = .ok (g, c') ∧ g.ranks ∈ gs ∧
      rank ∈ g.ranks := by
  obtain ⟨ranks, hmem, hin⟩ := h.exists_mem hrank
  have hfilter : gs.filter (rank ∈ ·) ≠ [] := by
    apply ne_nil_of_mem
    exact mem_filter.mpr ⟨hmem, decide_eq_true hin⟩
  obtain ⟨last, hlast⟩ := getLast?_isSome.mpr hfilter |> Option.isSome_iff_exists.mp
  have hlt : ∀ ranks ∈ gs, ∀ r ∈ ranks, r < worldSize := fun ranks hranks r hr =>
    h.lt_of_mem hranks hr
  have hinit : init worldSize rank gs groupName c =
      .ok ({ uniqueName := (getUniqueName c groupName).1, ranks := last },
        (getUniqueName c groupName).2) := by
    refine require_bind_eq_ok.mpr ⟨hlt, ?_⟩
    rw [hlast]
    rfl
  refine ⟨_, _, hinit, ?_⟩
  have := mem_filter.mp (mem_of_getLast? hlast)
  exact ⟨this.1, of_decide_eq_true this.2⟩

theorem subGroup_of_partitions {tp : GroupCoordinator} {size : ℕ}
    (h : Partitions (a.sharedRanks size gs) worldSize) (hrank : rank < worldSize)
    (htp : tp.ranks ∈ a.tpGroupRanks) (hin : rank ∈ tp.ranks) (groupName : String)
    (c : Dict String ℕ) :
    ∃ g c', subGroup worldSize rank size a.tensorModelParallelSize tp gs groupName c =
      .ok (g, c') ∧ g.ranks ∈ a.sharedRanks size gs ∧ rank ∈ g.ranks := by
  unfold subGroup
  unfold ModelParallelSizes.sharedRanks at h ⊢
  split_ifs with hsize
  · exact ⟨tp, c, rfl, htp, hin⟩
  · rw [if_neg hsize] at h
    exact init_of_partitions h hrank groupName c

theorem partitions_singleton (hrank : rank < worldSize) :
    Partitions [range worldSize] worldSize := by
  refine ⟨by simp, ?_⟩
  rw [mem_singleton, eq_comm, range_eq_nil]
  omega

theorem pdmuxGroup_of_partitions (h : Partitions a.tpGroupRanks worldSize)
    (hrank : rank < worldSize) (c : Dict String ℕ) :
    ∃ g c', pdmuxGroup worldSize rank a c = .ok (g, c') := by
  unfold pdmuxGroup
  split_ifs
  · obtain ⟨g, c', hg, -⟩ :=
      init_of_partitions h hrank "pdmux_prefill_tp" c
    rw [hg]
    exact ⟨some g, c', rfl⟩
  · exact ⟨none, c, rfl⟩

theorem initializeModelParallel_ok (h : a.Divides) (hrank : rank < a.worldSize) :
    ∃ s, initializeModelParallel a.worldSize rank a = .ok s ∧
      ∀ f, (s.group f).ranks ∈ a.groupRanks f ∧ rank ∈ (s.group f).ranks := by
  have hpart := h.partitions
  obtain ⟨world, c₀, hworld, -⟩ :=
    init_of_partitions (partitions_singleton hrank) hrank "world" .empty
  obtain ⟨tp, c₁, htp, htpMem⟩ :=
    init_of_partitions (hpart .tp) hrank "tp" c₀
  obtain ⟨pdmux, c₂, hpdmux⟩ := pdmuxGroup_of_partitions (hpart .tp) hrank c₁
  have hsub (f : Family) {size : ℕ} {gs : List (List ℕ)}
      (hf : a.groupRanks f = a.sharedRanks size gs) := by
    exact subGroup_of_partitions (hf ▸ hpart f) hrank htpMem.1 htpMem.2
  obtain ⟨attnCp, c₃, hattnCp, hattnCpMem⟩ := hsub .attnCp rfl "attn_cp" c₂
  obtain ⟨attnTp, c₄, hattnTp, hattnTpMem⟩ := hsub .attnTp rfl "attention_tp" c₃
  obtain ⟨moeDp, c₅, hmoeDp, hmoeDpMem⟩ := hsub .moeDp rfl "moe_dp" c₄
  obtain ⟨moeEp, c₆, hmoeEp, hmoeEpMem⟩ := hsub .moeEp rfl "moe_ep" c₅
  obtain ⟨moeTp, c₇, hmoeTp, hmoeTpMem⟩ := hsub .moeTp rfl "moe_tp" c₆
  obtain ⟨pp, c₈, hpp, hppMem⟩ := init_of_partitions (hpart .pp) hrank "pp" c₇
  refine ⟨{ world, tp, pdmuxPrefillTp := pdmux, attnCp, attnTp, moeDp, moeEp, moeTp, pp },
    bind_eq_ok.mpr ⟨_, hworld, require_bind_eq_ok.mpr ⟨rfl, bind_eq_ok.mpr ⟨_, htp, bind_eq_ok.mpr
      ⟨_, hpdmux, bind_eq_ok.mpr ⟨_, hattnCp, bind_eq_ok.mpr ⟨_, hattnTp, bind_eq_ok.mpr ⟨_, hmoeDp,
        bind_eq_ok.mpr ⟨_, hmoeEp, bind_eq_ok.mpr ⟨_, hmoeTp, bind_eq_ok.mpr
          ⟨_, hpp, rfl⟩⟩⟩⟩⟩⟩⟩⟩⟩⟩, ?_⟩
  intro f
  cases f
  exacts [htpMem, hattnCpMem, hattnTpMem, hmoeDpMem, hmoeEpMem, hmoeTpMem, hppMem]

/-! ## Positions -/

theorem rankInGroup_eq (h : a.Divides) {g : GroupCoordinator} {f : Family}
    (hg : g.ranks ∈ a.groupRanks f ∧ rank ∈ g.ranks) :
    g.rankInGroup rank = rank / a.stride f % a.groupSize f :=
  idxOf_of_mem_groups (h.groupRanks_eq f ▸ hg.1) hg.2

variable {args : ParallelArgs}

theorem attnTpSize_eq (args : ParallelArgs) :
    args.tpSize / (if args.enableDpAttention then args.dpSize else 1) / args.attnCpSize =
      args.modelParallelSizes.attnTpSize := by
  rw [Nat.div_div_eq_div_mul, mul_comm, ← Nat.div_div_eq_div_mul]
  rfl

/-- The ranks of a process are its positions: the tensor-parallel rank by definition, the others as
`_compute_parallelism_ranks` and `compute_dp_attention_world_info` say. -/
structure ParallelState.RanksAgree (s : ParallelState) (args : ParallelArgs) (rank : ℕ) : Prop where
  attnCp : s.attnCp.rankInGroup rank =
    (computeParallelismRanks args (s.tp.rankInGroup rank)).attnCpRank
  attnTp : s.attnTp.rankInGroup rank =
    (computeDpAttentionWorldInfo args.enableDpAttention (s.tp.rankInGroup rank) args.tpSize
      args.dpSize args.attnCpSize).attnTpRank
  moeDp : s.moeDp.rankInGroup rank =
    (computeParallelismRanks args (s.tp.rankInGroup rank)).moeDpRank
  moeEp : s.moeEp.rankInGroup rank =
    (computeParallelismRanks args (s.tp.rankInGroup rank)).moeEpRank

section

variable {s : ParallelState} (h : args.modelParallelSizes.Divides)
  (hs : ∀ f, (s.group f).ranks ∈ args.modelParallelSizes.groupRanks f ∧ rank ∈ (s.group f).ranks)
include h hs

theorem tpRank_eq : s.tp.rankInGroup rank = rank % args.tpSize := by
  have hpos := rankInGroup_eq h (hs .tp)
  rw [ModelParallelSizes.stride, Nat.div_one] at hpos
  exact hpos

theorem ranksAgree : s.RanksAgree args rank := by
  have htp := tpRank_eq h hs
  have hattn : args.tpSize = args.modelParallelSizes.attnTpSize *
      (args.attnCpSize * args.attnDpSize) := h.attn_eq
  have hmoe : args.tpSize = args.modelParallelSizes.moeTpSize * args.epSize * args.moeDpSize := by
    rw [mul_assoc]
    exact h.moe_eq
  have hdp : args.tpSize / args.moeDpSize = args.modelParallelSizes.moeTpSize * args.epSize := by
    have hpos : 0 < args.moeDpSize := h.pos.2.2.2.2.2
    rw [hmoe, Nat.mul_div_cancel _ hpos]
  have hep : args.modelParallelSizes.moeTpSize * args.epSize / args.epSize =
      args.modelParallelSizes.moeTpSize := Nat.mul_div_cancel _ h.pos.2.1
  refine ⟨?_, ?_, ?_, ?_⟩
  · rw [htp]
    show _ = rank % args.tpSize / (args.tpSize / _ / args.attnCpSize) % args.attnCpSize
    rw [attnTpSize_eq, hattn, Nat.mod_mul_right_div_self, Nat.mod_mod_of_dvd _ (dvd_mul_right _ _)]
    exact rankInGroup_eq h (hs .attnCp)
  · rw [htp]
    show _ = rank % args.tpSize % (args.tpSize / _ / args.attnCpSize)
    rw [attnTpSize_eq, Nat.mod_mod_of_dvd _ ⟨_, hattn⟩]
    have hpos := rankInGroup_eq h (hs .attnTp)
    rw [ModelParallelSizes.stride, Nat.div_one] at hpos
    exact hpos
  · rw [htp]
    show _ = rank % args.tpSize / (args.tpSize / args.moeDpSize)
    rw [hdp, hmoe, Nat.mod_mul_right_div_self]
    exact rankInGroup_eq h (hs .moeDp)
  · rw [htp]
    show _ = rank % args.tpSize % (args.tpSize / args.moeDpSize) /
      (args.tpSize / args.moeDpSize / args.epSize)
    rw [hdp, Nat.mod_mod_of_dvd _ ⟨_, hmoe⟩, hep, Nat.mod_mul_right_div_self]
    exact rankInGroup_eq h (hs .moeEp)

end

/-- With sizes that divide each other, the families of groups partition the world, every rank is
accepted with its group of each family, and its positions there are the computed ranks. -/
theorem initializeModelParallel_partitions (args : ParallelArgs)
    (h : args.modelParallelSizes.Divides) :
    (∀ f, Partitions (args.modelParallelSizes.groupRanks f) (args.tpSize * args.ppSize)) ∧
      ∀ rank < args.tpSize * args.ppSize, ∃ s,
        initializeModelParallel (args.tpSize * args.ppSize) rank args.modelParallelSizes = .ok s ∧
          (∀ f, (s.group f).ranks ∈ args.modelParallelSizes.groupRanks f ∧
            rank ∈ (s.group f).ranks) ∧
          s.tp.rankInGroup rank = rank % args.tpSize ∧ s.RanksAgree args rank := by
  refine ⟨h.partitions, fun rank hrank => ?_⟩
  obtain ⟨s, hs, hgroups⟩ := initializeModelParallel_ok h hrank
  exact ⟨s, hs, hgroups, tpRank_eq h hgroups, ranksAgree h hgroups⟩

/-- Eight ranks in two stages; attention splits a stage into two sequences, the experts into two
sets. -/
theorem initializeModelParallel_partitions_eight :
    let args : ParallelArgs := { tpSize := 4, ppSize := 2, attnCpSize := 2, epSize := 2 }
    args.modelParallelSizes.Divides ∧
      Partitions (args.modelParallelSizes.groupRanks .attnCp) 8 ∧
      args.modelParallelSizes.groupRanks .attnCp = [[0, 2], [1, 3], [4, 6], [5, 7]] := by
  intro args
  have h : args.modelParallelSizes.Divides := ⟨by decide, by decide, by decide⟩
  exact ⟨h, (initializeModelParallel_partitions args h).1 .attnCp, by decide⟩

end MegatronDPU.Sglang
