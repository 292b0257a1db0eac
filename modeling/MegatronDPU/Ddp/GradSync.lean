import MegatronDPU.Ddp.Buffer
import MegatronDPU.Server.Sums

/-!
# Gradients through BytePS and through NCCL

`start_grad_sync` and `finish_grad_sync` reduce a gradient bucket over its data-parallel group. NCCL
divides by the size of the group; the callback of BytePS divides by the size of the BytePS world,
and a BytePS reduction only ends if each rank of the group is a worker of its own. Arithmetic is
over exact rationals; the sum is that of the server (`answer_eq_nodeSum`).
-/

namespace MegatronDPU.Ddp

open Lts Finset

/-! ## The BytePS world -/

/-- `num_worker` machines with `local_size` processes each. -/
structure World where
  numWorker : ℕ
  localSize : ℕ
  numWorker_pos : 0 < numWorker
  localSize_pos : 0 < localSize

namespace World

variable (w : World)

/-- `byteps_size()`. -/
def size : ℕ := w.numWorker * w.localSize

/-- The ranks of a machine: `local_rank + worker_id * local_size`. -/
def members (node : ℕ) : Finset ℕ :=
  (range w.localSize).image fun localRank => localRank + node * w.localSize

/-- The machines whose processes all take part, so that the root of the machine hears from all of
them and pushes. -/
def pushing (group : Finset ℕ) : Finset ℕ :=
  (range w.numWorker).filter fun node => w.members node ⊆ group

end World

/-- The sum of tensors over some ranks. -/
def tensorSum (len : ℕ) (ranks : Finset ℕ) (tensors : ℕ → List ℚ) : List ℚ :=
  List.ofFn fun i : Fin len => ∑ r ∈ ranks, (tensors r).getD i 0

/-- The sum over the ranks of a node. -/
def localReduce (w : World) (len : ℕ) (tensors : ℕ → List ℚ) (node : ℕ) : List ℚ :=
  tensorSum len (w.members node) tensors

/-- `push_pull` of a tensor by the ranks of a group, at one of them. It ends if the machine of the
rank pushes and the server hears from as many machines as were announced. -/
def pushPull (w : World) (expectedWorkers : ℕ) (group : Finset ℕ) (average : Bool) (len : ℕ)
    (tensors : ℕ → List ℚ) (rank : ℕ) : Option (List ℚ) :=
  if w.members (rank / w.localSize) ⊆ group ∧ (w.pushing group).card = expectedWorkers then
    let output := tensorSum len (w.pushing group) (localReduce w len tensors)
    some (if average then output.map fun x => x / (w.size : ℚ) else output)
  else none

/-- `torch.distributed.all_reduce` with `AVG` or `SUM`. -/
def allReduce (group : Finset ℕ) (average : Bool) (len : ℕ) (tensors : ℕ → List ℚ) : List ℚ :=
  let sum := tensorSum len group tensors
  if average then sum.map fun x => x / (group.card : ℚ) else sum

/-! ### The sum of the server -/

/-- The machines that push a tensor, as the server sees them; `tensors r` are those of round
`r`. -/
def nodeGroup (w : World) (group : Finset ℕ) (h : (w.pushing group).Nonempty) (dtype len : ℕ)
    (tensors : ℕ → ℕ → List ℚ) : Server.KeyGroup ℚ where
  workers := w.pushing group
  workers_nonempty := h
  dtype := dtype
  kwargs := none
  initPayload _ := List.replicate len 0
  payload node r := localReduce w len (tensors r) node

open Server in
/-- In every interleaving in which a `COPY_FIRST` waits for the pulls of the round before, the
server answers the pulls of a round with the sum that `pushPull` takes. -/
theorem answer_eq_nodeSum {C : CompressorClass ℚ} {cfg : Config} (hcfg : cfg.SyncEngine)
    {groups : Key → KeyGroup ℚ} {key : Key} {w : World} {group : Finset ℕ}
    {h : (w.pushing group).Nonempty} {dtype len : ℕ} {tensors : ℕ → ℕ → List ℚ}
    (hkey : groups key = nodeGroup w group h dtype len tensors) {s : Job ℚ C}
    (hs : Reach (jobs cfg C groups) (CopyAfterPulls key) s) {x : Response ℚ} {node r : ℕ}
    (hx : Event.response x ∈ ofKey s.trace key)
    (ha : (Event.response x).isAnswer node r = true) :
    x.kvs.vals = .cells (tensorSum len (w.pushing group) (localReduce w len (tensors r))) := by
  have hl : Reach (lanes cfg C (groups key) key) Lane.CopyAfterPulls (s.lane key) :=
    reach_lane hcfg.plainQueues (fun _ _ _ => trivial) (fun _ _ hi hc => hc.lane hi) hs
  have hg : (groups key).Uncompressed len := by
    rw [hkey]
    exact ⟨rfl, fun _ _ => List.length_replicate, fun _ _ _ => List.length_ofFn⟩
  rw [lane_answers hcfg hg hl hx ha, hkey]
  rfl

/-! ## `DistributedDataParallel` -/

/-- The data-parallel groups of a rank. -/
structure Groups where
  dpCp : Finset ℕ
  exptDp : Finset ℕ
  dpCp_nonempty : dpCp.Nonempty
  exptDp_nonempty : exptDp.Nonempty

inductive ParamKind
  | dense
  | expert
  deriving DecidableEq

def Groups.group (g : Groups) : ParamKind → Finset ℕ
  | .dense => g.dpCp
  | .expert => g.exptDp

/-- `gradient_scaling_factor`. -/
def gradientScalingFactor (cfg : DdpConfig) (g : Groups) (kind : ParamKind) : ℚ :=
  if cfg.calculatePerTokenLoss then 1
  else if cfg.averageInCollective then
    match kind with
    | .dense => 1
    | .expert => g.exptDp.card / g.dpCp.card
  else 1 / g.dpCp.card

/-- The assertion on the factor when buffers are allocated. -/
def FactorChecked (cfg : DdpConfig) (g : Groups) (kind : ParamKind) : Prop :=
  cfg.calculatePerTokenLoss = false →
    if cfg.averageInCollective then
      gradientScalingFactor cfg g kind / (g.group kind).card = 1 / g.dpCp.card
    else gradientScalingFactor cfg g kind = 1 / g.dpCp.card

/-- `DistributedDataParallel` accepts the configuration. -/
structure Accepted (cfg : DdpConfig) (w : World) (g : Groups) : Prop where
  perToken : cfg.calculatePerTokenLoss = true → cfg.averageInCollective = false
  world : cfg.useDpuReduce = true → cfg.useDistributedOptimizer = false → g.dpCp.card ≤ w.size
  factor : ∀ kind, FactorChecked cfg g kind

/-! ## `start_grad_sync` and `finish_grad_sync` -/

/-- A bucket group between the two calls. A handle is a communication under way, with the data it
will end with, if it does. -/
structure BucketState where
  gradData : List ℚ
  gradReduceHandle : Option (Option (List ℚ)) := none

/-- The collective on the gradients of a bucket. -/
def collective (cfg : DdpConfig) (w : World) (g : Groups) (kind : ParamKind) (len : ℕ)
    (grads : ℕ → List ℚ) (rank : ℕ) : Option (List ℚ) :=
  let factor := gradientScalingFactor cfg g kind
  let scaled := fun r => if factor ≠ 1 then (grads r).map (· * factor) else grads r
  if cfg.useDistributedOptimizer = false ∧ cfg.useDpuReduce = true then
    pushPull w (g.group kind).card (g.group kind) cfg.averageInCollective len scaled rank
  else some (allReduce (g.group kind) cfg.averageInCollective len scaled)

/-- `start_grad_sync`. -/
def startGradSync (asyncOp : Bool) (reduced : Option (List ℚ)) (s : BucketState) :
    Option BucketState :=
  if s.gradReduceHandle.isSome then none
  else if asyncOp then some { s with gradReduceHandle := some reduced }
  else reduced.map fun data => { gradData := data }

/-- `finish_grad_sync`. -/
def finishGradSync (cfg : DdpConfig) (reduced : Option (List ℚ)) (s : BucketState) :
    Option BucketState :=
  if cfg.overlapGradReduce then
    match s.gradReduceHandle with
    | none => none
    | some result => result.map fun data => { gradData := data }
  else startGradSync false reduced s

/-- The gradients of a rank after a training step: with overlap the reduction is started during
the backward pass, without it `finish_grad_sync` starts it. -/
def gradSync (cfg : DdpConfig) (w : World) (g : Groups) (kind : ParamKind) (len : ℕ)
    (grads : ℕ → List ℚ) (rank : ℕ) : Option (List ℚ) := do
  let reduced := collective cfg w g kind len grads rank
  let s : BucketState := { gradData := grads rank }
  let s ← if cfg.overlapGradReduce then startGradSync true reduced s else some s
  let s ← finishGradSync cfg reduced s
  some s.gradData

variable {cfg : DdpConfig} {w : World} {g : Groups} {kind : ParamKind} {len rank : ℕ}
  {grads tensors : ℕ → List ℚ} {group : Finset ℕ}

theorem gradSync_eq : gradSync cfg w g kind len grads rank =
    collective cfg w g kind len grads rank := by
  unfold gradSync finishGradSync startGradSync
  cases cfg.overlapGradReduce <;> cases collective cfg w g kind len grads rank <;> rfl

/-! ## Machines and ranks -/

namespace World

theorem mem_members {node r : ℕ} : r ∈ w.members node ↔ r / w.localSize = node := by
  unfold members
  rw [mem_image]
  constructor
  · rintro ⟨i, hi, rfl⟩
    rw [Nat.add_mul_div_right _ _ w.localSize_pos, Nat.div_eq_of_lt (mem_range.mp hi), zero_add]
  · rintro rfl
    exact ⟨r % w.localSize, mem_range.mpr (Nat.mod_lt _ w.localSize_pos),
      Nat.mod_add_div' r w.localSize⟩

theorem card_members (node : ℕ) : (w.members node).card = w.localSize := by
  unfold members
  rw [card_image_of_injective _ (add_left_injective _), card_range]

theorem card_pushing_mul_le : (w.pushing group).card * w.localSize ≤ group.card := by
  have hdisj : Set.PairwiseDisjoint (w.pushing group : Set ℕ) w.members := by
    intro m _ n _ hmn
    apply disjoint_left.mpr
    intro r hm hn
    exact hmn ((mem_members.mp hm).symm.trans (mem_members.mp hn))
  have hsub : (w.pushing group).biUnion w.members ⊆ group := by
    intro r hr
    obtain ⟨node, hnode, hr⟩ := mem_biUnion.mp hr
    exact (mem_filter.mp hnode).2 hr
  calc (w.pushing group).card * w.localSize
      = ∑ node ∈ w.pushing group, (w.members node).card := by simp [card_members]
    _ = ((w.pushing group).biUnion w.members).card := (card_biUnion hdisj).symm
    _ ≤ group.card := card_le_card hsub

theorem pushing_of_localSize_eq_one (h : w.localSize = 1) (hg : ∀ r ∈ group, r < w.size) :
    w.pushing group = group := by
  have hmem : ∀ node, w.members node = {node} := by
    intro node
    ext r
    rw [mem_members, h, Nat.div_one, mem_singleton]
  ext node
  unfold pushing
  rw [mem_filter, hmem, singleton_subset_iff, mem_range]
  refine ⟨fun hn => hn.2, fun hn => ⟨?_, hn⟩⟩
  have hlt := hg node hn
  rwa [size, h, mul_one] at hlt

theorem card_pushing_eq_iff (hne : group.Nonempty) (hg : ∀ r ∈ group, r < w.size) :
    (w.pushing group).card = group.card ↔ w.localSize = 1 := by
  have hpos := hne.card_pos
  have hl := w.localSize_pos
  constructor
  · intro h
    have hle : (w.pushing group).card * w.localSize ≤ group.card := card_pushing_mul_le
    rw [h] at hle
    by_contra hne
    have : group.card * 2 ≤ group.card * w.localSize := Nat.mul_le_mul_left _ (by omega)
    omega
  · intro h
    rw [pushing_of_localSize_eq_one h hg]

end World

/-! ## Sums -/

theorem getD_tensorSum {ranks : Finset ℕ} {i : ℕ} (hi : i < len) :
    (tensorSum len ranks tensors).getD i 0 = ∑ r ∈ ranks, (tensors r).getD i 0 := by
  simp [tensorSum, List.getD_eq_getElem?_getD, hi]

theorem tensorSum_congr {ranks : Finset ℕ} {tensors' : ℕ → List ℚ}
    (h : ∀ r ∈ ranks, ∀ i < len, (tensors r).getD i 0 = (tensors' r).getD i 0) :
    tensorSum len ranks tensors = tensorSum len ranks tensors' := by
  unfold tensorSum
  congr 1
  funext i
  exact sum_congr rfl fun r hr => h r hr i i.isLt

theorem localReduce_of_localSize_eq_one (h : w.localSize = 1) {node i : ℕ} (hi : i < len) :
    (localReduce w len tensors node).getD i 0 = (tensors node).getD i 0 := by
  have hmem : w.members node = {node} := by
    ext r
    rw [World.mem_members, h, Nat.div_one, mem_singleton]
  rw [localReduce, getD_tensorSum hi, hmem, sum_singleton]

theorem pushPull_eq (hne : rank ∈ group) (hg : ∀ r ∈ group, r < w.size) :
    pushPull w group.card group true len tensors rank =
      if w.localSize = 1 then some ((tensorSum len group tensors).map fun x => x / (w.size : ℚ))
      else none := by
  unfold pushPull
  by_cases h : w.localSize = 1
  · have hmem : w.members (rank / w.localSize) ⊆ group := by
      intro r hr
      rw [World.mem_members, h, Nat.div_one, Nat.div_one] at hr
      exact hr ▸ hne
    rw [if_pos h, if_pos ⟨hmem, (World.card_pushing_eq_iff ⟨rank, hne⟩ hg).mpr h⟩,
      World.pushing_of_localSize_eq_one h hg,
      tensorSum_congr fun r _ i hi => localReduce_of_localSize_eq_one h hi]
    rfl
  · rw [if_neg h, if_neg fun hc => h ((World.card_pushing_eq_iff ⟨rank, hne⟩ hg).mp hc.2)]

/-- The scaled sum over the group. -/
def averaged (cfg : DdpConfig) (g : Groups) (kind : ParamKind) (len : ℕ) (grads : ℕ → List ℚ) :
    List ℚ :=
  List.ofFn fun i : Fin len =>
    gradientScalingFactor cfg g kind * (∑ r ∈ g.group kind, (grads r).getD i 0) /
      (g.group kind).card

theorem getD_scaled (factor : ℚ) (data : List ℚ) (i : ℕ) :
    (if factor ≠ 1 then data.map (· * factor) else data).getD i 0 = factor * data.getD i 0 := by
  split_ifs with h
  · rw [List.getD_eq_getElem?_getD, List.getD_eq_getElem?_getD, List.getElem?_map]
    cases data[i]? with
    | none => simp
    | some x => exact mul_comm x factor
  · rw [not_not.mp h, one_mul]

theorem map_tensorSum_scaled (factor n : ℚ) :
    (tensorSum len group fun r => if factor ≠ 1 then (grads r).map (· * factor) else grads r).map
        (fun x => x / n) =
      List.ofFn fun i : Fin len => factor * (∑ r ∈ group, (grads r).getD i 0) / n := by
  unfold tensorSum
  rw [List.map_ofFn]
  congr 1
  funext i
  simp only [Function.comp_apply, getD_scaled, mul_sum]

theorem Groups.group_nonempty (g : Groups) : ∀ kind, (g.group kind).Nonempty
  | .dense => g.dpCp_nonempty
  | .expert => g.exptDp_nonempty

theorem Accepted.factor_ne_zero (h : Accepted cfg w g) (havg : cfg.averageInCollective = true)
    (kind : ParamKind) : gradientScalingFactor cfg g kind ≠ 0 := by
  intro h0
  have hper : cfg.calculatePerTokenLoss = false := by
    rw [← Bool.not_eq_true]
    intro hp
    rw [h.perToken hp] at havg
    cases havg
  have hf := h.factor kind hper
  rw [if_pos havg, h0, zero_div] at hf
  have hpos : (0 : ℚ) < g.dpCp.card := by exact_mod_cast g.dpCp_nonempty.card_pos
  exact absurd hf (by positivity)

theorem nccl_eq_averaged (havg : cfg.averageInCollective = true) (hdpu : cfg.useDpuReduce = false) :
    gradSync cfg w g kind len grads rank = some (averaged cfg g kind len grads) := by
  rw [gradSync_eq, collective, if_neg (by simp [hdpu]), allReduce, if_pos havg]
  exact congrArg some (map_tensorSum_scaled _ _)

def twoRanks (a b : ℕ) : Groups where
  dpCp := {a, b}
  exptDp := {a, b}
  dpCp_nonempty := ⟨a, by simp⟩
  exptDp_nonempty := ⟨a, by simp⟩

theorem accepted_twoRanks {w : World} {a b : ℕ} (hab : a ≠ b) (h : 2 ≤ w.size) :
    Accepted .byteps w (twoRanks a b) where
  perToken h := by cases h
  world _ _ := by
    rw [twoRanks, card_pair hab]
    exact h
  factor kind _ := by
    cases kind <;>
      norm_num [gradientScalingFactor, DdpConfig.byteps, twoRanks, Groups.group, card_pair hab]

end MegatronDPU.Ddp
