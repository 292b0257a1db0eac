import MegatronDPU.Lib.Strided

/-!
# Scheduler processes on nodes

SGLang starts one process for each pair of a pipeline rank and a tensor rank. Which of them run on
a node, and on which GPU, follows from `_calculate_rank_ranges`; how many of them there are is told
to BytePS by `init_torch_distributed`, with a formula of its own.
-/

namespace MegatronDPU.Sglang

open List

/-- The fields of `ServerArgs` that placement depends on, as accepted by `check_server_args`. -/
structure ServerArgs where
  nnodes : ℕ
  ppSize : ℕ
  tpSize : ℕ
  baseGpuId : ℕ := 0
  gpuIdStep : ℕ := 1
  nnodes_pos : 0 < nnodes := by decide
  ppSize_pos : 0 < ppSize := by decide
  tpSize_pos : 0 < tpSize := by decide
  divisible : nnodes ∣ tpSize * ppSize := by decide

/-- `range(start, stop)`. -/
def pyRange (start stop : ℕ) : List ℕ := range' start (stop - start)

/-- What `_calculate_rank_ranges` returns. -/
structure RankRanges where
  ppRankRange : List ℕ
  tpRankRange : List ℕ
  ppSizePerNode : ℕ
  tpSizePerNode : ℕ

/-- `_calculate_rank_ranges`. -/
def calculateRankRanges (nnodes ppSize tpSize nodeRank : ℕ) : RankRanges :=
  let ppSizePerNode := max (ppSize / nnodes) 1
  let nnodesPerPpRank := max (nnodes / ppSize) 1
  let ppRankRange := pyRange (ppSizePerNode * (nodeRank / nnodesPerPpRank))
    (ppSizePerNode * (nodeRank / nnodesPerPpRank + 1))
  let nnodesPerTpGroup := nnodesPerPpRank
  let tpSizePerNode := tpSize / nnodesPerTpGroup
  let tpRankRange := pyRange (tpSizePerNode * (nodeRank % nnodesPerTpGroup))
    (tpSizePerNode * (nodeRank % nnodesPerTpGroup + 1))
  { ppRankRange, tpRankRange, ppSizePerNode, tpSizePerNode }

/-- A scheduler process. -/
structure Proc where
  ppRank : ℕ
  tpRank : ℕ
  gpuId : ℕ
  deriving DecidableEq

variable (args : ServerArgs) (nodeRank : ℕ)

/-- `_launch_scheduler_processes` of a node, with `dp_size == 1`. -/
def launchSchedulerProcesses : List Proc :=
  let r := calculateRankRanges args.nnodes args.ppSize args.tpSize nodeRank
  r.ppRankRange.flatMap fun ppRank => r.tpRankRange.map fun tpRank =>
    { ppRank, tpRank
      gpuId := args.baseGpuId + ppRank % r.ppSizePerNode * r.tpSizePerNode +
        tpRank % r.tpSizePerNode * args.gpuIdStep }

/-- The `local_size` that `init_torch_distributed` hands to BytePS. -/
def localSize : ℕ :=
  let gpusPerNode := max 1 (args.tpSize / args.nnodes)
  gpusPerNode * args.ppSize

/-! ## The processes of a node -/

theorem pyRange_mod (n k : ℕ) : (pyRange (n * k) (n * (k + 1))).map (· % n) = range n := by
  have hlen : n * (k + 1) - n * k = n := by rw [Nat.mul_succ, Nat.add_sub_cancel_left]
  rw [pyRange, hlen, range'_eq_map_range, map_map]
  conv_rhs => rw [← map_id (range n)]
  apply map_congr_left
  intro i hi
  rw [Function.comp_apply, Nat.mul_add_mod, Nat.mod_eq_of_lt (mem_range.mp hi), id]

theorem length_pyRange (n k : ℕ) : (pyRange (n * k) (n * (k + 1))).length = n := by
  rw [pyRange, length_range', Nat.mul_succ, Nat.add_sub_cancel_left]

/-- The number of processes that `_calculate_rank_ranges` places on a node. -/
def procsPerNode : ℕ :=
  max (args.ppSize / args.nnodes) 1 * (args.tpSize / max (args.nnodes / args.ppSize) 1)

theorem length_launch : (launchSchedulerProcesses args nodeRank).length = procsPerNode args := by
  simp only [launchSchedulerProcesses, calculateRankRanges, length_flatMap, length_map,
    length_pyRange, map_const', sum_replicate, smul_eq_mul]
  rfl

theorem gpuIds_eq (hbase : args.baseGpuId = 0) (hstep : args.gpuIdStep = 1) :
    (launchSchedulerProcesses args nodeRank).map Proc.gpuId =
      range (procsPerNode args) := by
  have hrow : ∀ (i k n : ℕ), ((pyRange (n * k) (n * (k + 1))).map fun j => i * n + j % n) =
      (range n).map (i * n + ·) := by
    intro i k n
    rw [← pyRange_mod n k, map_map]
    rfl
  simp only [launchSchedulerProcesses, calculateRankRanges, map_flatMap, map_map,
    Function.comp_def, hbase, hstep, zero_add, mul_one, hrow]
  -- the rows depend on the remainders of the pipeline ranks only
  rw [procsPerNode, ← Strided.flatMap_range_mul, ← pyRange_mod (max (args.ppSize / args.nnodes) 1)
    (nodeRank / max (args.nnodes / args.ppSize) 1), flatMap_map]

/-! ## The size told to BytePS -/

/-- When the two formulas agree. With at least as many stages as nodes, the common divisor of the
two sizes must reach the number of nodes, up to a remainder that is lost in no quotient. With fewer
stages, either every node gets a whole number of tensor ranks, or there are fewer tensor ranks than
nodes and one for each node that holds a part of a stage. -/
def SizesAgree : Prop :=
  if args.nnodes ≤ args.ppSize then
    args.nnodes ≤ args.tpSize.gcd args.ppSize ∧
      args.tpSize.gcd args.ppSize % args.nnodes *
        (max args.tpSize args.ppSize / args.tpSize.gcd args.ppSize) < args.nnodes
  else
    args.nnodes ∣ args.tpSize ∧
        args.tpSize / args.nnodes * (args.nnodes % args.ppSize) < args.nnodes / args.ppSize ∨
      args.nnodes / args.ppSize * args.ppSize ≤ args.tpSize ∧ args.tpSize < args.nnodes ∧
        args.tpSize < args.nnodes / args.ppSize * (args.ppSize + 1)

instance : Decidable (SizesAgree args) := by
  unfold SizesAgree
  infer_instance

variable {args}

theorem localSize_of_le (h : args.nnodes ≤ args.tpSize) :
    localSize args = args.tpSize / args.nnodes * args.ppSize := by
  rw [localSize, max_eq_right (Nat.div_pos h args.nnodes_pos)]

theorem localSize_of_lt (h : args.tpSize < args.nnodes) : localSize args = args.ppSize := by
  rw [localSize, Nat.div_eq_of_lt h]
  exact one_mul _

/-- A multiple of `g` has the multiple of the quotient iff the remainders of its parts fit. -/
theorem mul_div_eq_iff {g n s c : ℕ} (hn : 0 < n) (hc : c * n ≤ g) :
    g * s / n = c * s ↔ (g - c * n) * s < n := by
  have hg : g * s = (g - c * n) * s + c * s * n := by
    rw [mul_right_comm, ← add_mul, Nat.sub_add_cancel hc]
  rw [hg, Nat.add_mul_div_right _ _ hn, Nat.add_eq_right, Nat.div_eq_zero_iff_lt hn]

/-- Two numbers are in the ratio of their quotients by `n` iff the quotients are multiples of
`g / n`, where `g` is the greatest common divisor. -/
theorem div_mul_eq_div_mul_iff {a b n : ℕ} (hn : 0 < n) (ha : n ≤ a) (hb : n ≤ b) :
    a / n * b = b / n * a ↔ n ≤ a.gcd b ∧ a.gcd b % n * (max a b / a.gcd b) < n := by
  obtain ⟨s, t, hst, hs, ht⟩ := Nat.exists_coprime a b
  have hg : 0 < a.gcd b := Nat.gcd_pos_of_pos_left b (hn.trans_le ha)
  generalize a.gcd b = g at *
  subst hs ht
  have hs : 0 < s := Nat.pos_of_mul_pos_right (hn.trans_le ha)
  have ht : 0 < t := Nat.pos_of_mul_pos_right (hn.trans_le hb)
  have hmax : max (s * g) (t * g) / g = max s t := by
    rw [← max_mul_of_nonneg _ _ hg.le, Nat.mul_div_cancel _ hg]
  rw [hmax, mul_comm s g, mul_comm t g]
  constructor
  · intro h
    have hcross : g * s / n * t = g * t / n * s := by
      apply Nat.eq_of_mul_eq_mul_right hg
      linarith
    obtain ⟨c, hc⟩ : s ∣ g * s / n := hst.dvd_of_dvd_mul_right ⟨_, hcross.trans (mul_comm _ _)⟩
    have hc' : g * t / n = t * c := by
      apply Nat.eq_of_mul_eq_mul_right hs
      rw [← hcross, hc]
      ring
    have hcn : c * n ≤ g := by
      apply Nat.le_of_mul_le_mul_right _ hs
      calc c * n * s = g * s / n * n := by rw [hc]; ring
        _ ≤ g * s := Nat.div_mul_le_self _ _
    have hcpos : 0 < c := Nat.pos_of_mul_pos_left (hc ▸ Nat.div_pos (mul_comm s g ▸ ha) hn)
    have hfits := (mul_div_eq_iff hn hcn).mp (hc.trans (mul_comm _ _))
    have hfits' := (mul_div_eq_iff hn hcn).mp (hc'.trans (mul_comm _ _))
    have hmod : g % n = g - c * n := by
      conv_lhs => rw [← Nat.sub_add_cancel hcn, Nat.add_mul_mod_self_right]
      exact Nat.mod_eq_of_lt ((Nat.le_mul_of_pos_right _ hs).trans_lt hfits)
    refine ⟨(Nat.le_mul_of_pos_left n hcpos).trans hcn, ?_⟩
    rw [hmod, mul_max_of_nonneg _ _ (Nat.zero_le _)]
    exact max_lt hfits hfits'
  · rintro ⟨-, h⟩
    have hsub : g % n = g - g / n * n := by rw [mul_comm, Nat.mod_eq_sub]
    rw [hsub, mul_max_of_nonneg _ _ (Nat.zero_le _), max_lt_iff] at h
    rw [(mul_div_eq_iff hn (Nat.div_mul_le_self g n)).mpr h.1,
      (mul_div_eq_iff hn (Nat.div_mul_le_self g n)).mpr h.2]
    ring

/-- With at least as many stages as nodes, a node has all tensor ranks of its stages. -/
theorem procsPerNode_of_le (h : args.nnodes ≤ args.ppSize) :
    procsPerNode args = args.ppSize / args.nnodes * args.tpSize := by
  have hone : args.nnodes / args.ppSize ≤ 1 := Nat.div_le_of_le_mul (by omega)
  rw [procsPerNode, max_eq_left (Nat.div_pos h args.nnodes_pos), max_eq_right hone, Nat.div_one]

/-- With more nodes than stages, a node has a part of the tensor ranks of one stage. -/
theorem procsPerNode_of_lt (h : args.ppSize < args.nnodes) :
    procsPerNode args = args.tpSize / (args.nnodes / args.ppSize) := by
  rw [procsPerNode, Nat.div_eq_of_lt h, max_eq_right zero_le_one, one_mul,
    max_eq_left (Nat.div_pos h.le args.ppSize_pos)]

/-- For `n` nodes and `p < n` stages, the parts of the stages are as large as `t / n` whole ones
iff nothing is left over. -/
theorem div_div_eq_iff {n p t : ℕ} (hp : 0 < p) (hpn : p < n) (hdvd : n ∣ t * p) :
    t / (n / p) = t / n * p ↔ n ∣ t ∧ t / n * (n % p) < n / p := by
  have hq : 0 < n / p := Nat.div_pos hpn.le hp
  have ht : t = n / p * (t / n * p) + (t / n * (n % p) + t % n) := by
    calc t = n * (t / n) + t % n := (Nat.div_add_mod t n).symm
      _ = (p * (n / p) + n % p) * (t / n) + t % n := by rw [Nat.div_add_mod n p]
      _ = n / p * (t / n * p) + (t / n * (n % p) + t % n) := by ring
  have hfits : t / (n / p) = t / n * p ↔ t / n * (n % p) + t % n < n / p := by
    conv_lhs => lhs; rw [ht, Nat.mul_add_div hq]
    rw [Nat.add_eq_left, Nat.div_eq_zero_iff_lt hq]
  rw [hfits]
  constructor
  · intro h
    -- less than a part is left over, and `n` divides its product with the number of stages
    have hlt : t % n * p < n :=
      (Nat.mul_lt_mul_of_pos_right ((Nat.le_add_left _ _).trans_lt h) hp).trans_le
        (Nat.div_mul_le_self n p)
    have hzero : t % n * p = 0 := by
      apply Nat.eq_zero_of_dvd_of_lt _ hlt
      rwa [Nat.dvd_iff_mod_eq_zero, Nat.mod_mul_mod, ← Nat.dvd_iff_mod_eq_zero]
    have hmod : t % n = 0 := (Nat.mul_eq_zero.mp hzero).resolve_right hp.ne'
    exact ⟨Nat.dvd_of_mod_eq_zero hmod, (Nat.le_add_right _ _).trans_lt h⟩
  · rintro ⟨h, hlt⟩
    rwa [Nat.mod_eq_zero_of_dvd h, add_zero]

theorem localSize_eq_procsPerNode_iff : localSize args = procsPerNode args ↔ SizesAgree args := by
  have hn := args.nnodes_pos
  have hp := args.ppSize_pos
  have ht := args.tpSize_pos
  unfold SizesAgree
  rw [eq_comm]
  split_ifs with hle
  · rw [procsPerNode_of_le hle]
    rcases lt_or_ge args.tpSize args.nnodes with h | h
    · rw [localSize_of_lt h]
      refine iff_of_false (fun heq => ?_) fun hgcd => ?_
      · have hless := Nat.mul_lt_mul_of_pos_left h (Nat.div_pos hle hn)
        have hdiv := Nat.div_mul_le_self args.ppSize args.nnodes
        omega
      · exact absurd (hgcd.1.trans (Nat.gcd_le_left _ ht)) h.not_ge
    · rw [localSize_of_le h, eq_comm, div_mul_eq_div_mul_iff hn h hle]
  · rw [not_le] at hle
    rw [procsPerNode_of_lt hle]
    rcases lt_or_ge args.tpSize args.nnodes with h | h
    · have hnot : ¬ args.nnodes ∣ args.tpSize := Nat.not_dvd_of_pos_of_lt ht h
      have hq := Nat.div_pos hle.le hp
      rw [localSize_of_lt h, Nat.div_eq_iff hq, mul_comm args.ppSize, Nat.mul_succ]
      constructor
      · rintro ⟨hlow, hhigh⟩
        exact .inr ⟨hlow, h, by omega⟩
      · rintro (⟨hdvd, -⟩ | ⟨hlow, -, hhigh⟩)
        · exact absurd hdvd hnot
        · exact ⟨hlow, by omega⟩
    · rw [localSize_of_le h, div_div_eq_iff hp hle args.divisible, or_iff_left fun hlt => ?_]
      exact absurd hlt.2.1 h.not_gt

variable (args) in
/-- On a node BytePS is told the number of its processes, and their GPUs are its local ranks. -/
def LocalRanksOk : Prop :=
  localSize args = (launchSchedulerProcesses args nodeRank).length ∧
    ∀ i, i ∈ (launchSchedulerProcesses args nodeRank).map Proc.gpuId ↔ i < localSize args

/-- For all accepted sizes and on every node, the size told to BytePS is the number of processes of
the node and their local ranks are exactly those below it, iff the two formulas agree. -/
theorem localRanksOk_iff (hbase : args.baseGpuId = 0) (hstep : args.gpuIdStep = 1) :
    LocalRanksOk args nodeRank ↔ SizesAgree args := by
  unfold LocalRanksOk
  rw [length_launch, gpuIds_eq args nodeRank hbase hstep, ← localSize_eq_procsPerNode_iff]
  refine ⟨And.left, fun h => ⟨h, fun i => ?_⟩⟩
  rw [mem_range, h]

/-- Two nodes, each with two stages of four ranks. -/
theorem localRanksOk_iff_two_nodes : LocalRanksOk ⟨2, 4, 4, 0, 1, by decide, by decide, by decide,
    by decide⟩ 1 :=
  (localRanksOk_iff 1 rfl rfl).mpr (by decide)

/-- Two nodes with one process each: BytePS is told two. -/
theorem pipeline_only_localSize :
    localSize ⟨2, 2, 1, 0, 1, by decide, by decide, by decide, by decide⟩ = 2 ∧
      launchSchedulerProcesses ⟨2, 2, 1, 0, 1, by decide, by decide, by decide, by decide⟩ 0 =
        [⟨0, 0, 0⟩] := by
  decide

end MegatronDPU.Sglang
