import MegatronDPU.Parallel.Groups

/-!
# Names of expert gradients

Expert layers have their own sizes and so their own groups of ranks, but the name of an expert
bucket is made from the tensor and pipeline ranks of the dense layers. The ranks that share such a
name are one expert-data-parallel group iff the dense tensor-parallel size is the number of ranks
that hold different experts or different parts of an expert: `expert_names_iff`.
-/

namespace MegatronDPU.Parallel

open Raise RankGenerator

/-- The generators for the decoder and for the experts. -/
structure RankGenerators where
  decoder : RankGenerator
  expert : RankGenerator

/-- The checks of `initialize_model_parallel`, with one optimizer instance. -/
def initializeModelParallel (worldSize tp pp cp ep : ℕ) (expertTp : Option ℕ) (order : String) :
    Except PyError RankGenerators := do
  let modelSize := tp * pp * cp
  require (worldSize % modelSize = 0) (.runtimeError ("world_size (" ++ toString worldSize ++
    ") is not divisible by " ++ toString modelSize))
  let dataParallelSize := worldSize / modelSize
  let decoder ← init tp 1 dataParallelSize pp cp order 0
  let etp := expertTp.getD tp
  let expertModelSize := etp * ep * pp
  let expertDataParallelSize := worldSize / expertModelSize
  require (worldSize % expertModelSize = 0) (.runtimeError ("world_size (" ++
    toString worldSize ++ ") is not divisible by expert_tensor_model_pipeline_parallel size (" ++
    toString expertModelSize ++ ")"))
  let expert ← init etp ep expertDataParallelSize pp 1 order 0
  require (['p', 'p'] <:+ order.toList ∨ pp = 1 ∨ expertDataParallelSize = dataParallelSize)
    (.assertionError ("When not using pp-last rank ordering, the data parallel size of the " ++
      "attention and moe layers must be the same"))
  let pipelines ← decoder.getRanks "pp"
  let expertPipelines ← expert.getRanks "pp"
  require (pipelines = expertPipelines) (.assertionError
    ("Pipeline parallel groups are expected to be the same for Non-Expert and Expert part,     " ++
      "but got " ++ toString pipelines ++ " and " ++ toString expertPipelines))
  return ⟨decoder, expert⟩

/-- The orders that training passes, without and with `use_tp_pp_dp_mapping`. -/
def trainingOrder (useTpPpDpMapping : Bool) : String :=
  if useTpPpDpMapping then "tp-cp-ep-pp-dp" else "tp-cp-ep-dp-pp"

/-- The workers announced for an expert bucket: the size of the expert-data-parallel group. -/
def expertExpectedWorkers (expert : RankGenerator) (rank : ℕ) : Except PyError ℕ := do
  let groups ← expert.getRanks "dp"
  let ranks ← ProcessGroups.getGroup (groupOf groups rank)
    "Expert data parallel group is not initialized"
  return ranks.length

/-! ## Coordinates -/

/-- The order of the axes, from the fastest. -/
def trainingAxes (useTpPpDpMapping : Bool) : List Axis :=
  if useTpPpDpMapping then [.tp, .cp, .ep, .pp, .dp] else [.tp, .cp, .ep, .dp, .pp]

section Coordinates

variable {tp ep dp pp cp : ℕ} {mapping : Bool} {gen : RankGenerator}

section

variable (h : init tp ep dp pp cp (trainingOrder mapping) 0 = .ok gen)
include h

theorem tokens_training : gen.tokens = trainingAxes mapping := by
  unfold tokens
  cases mapping
  all_goals
    rw [order_of_init h (by decide +kernel)]
    decide +kernel

theorem proper_training (htp : 0 < tp) (hep : 0 < ep) (hdp : 0 < dp) (hpp : 0 < pp)
    (hcp : 0 < cp) : gen.Proper := by
  refine proper_of_init h htp hep hdp hpp hcp fun a _ => ?_
  rw [tokens_training h]
  cases mapping <;> cases a <;> decide

theorem coord_training (hgen : gen.Proper) (r : ℕ) :
    hgen.grid.coord .tp r = r % tp ∧ hgen.grid.coord .ep r = r / (tp * cp) % ep ∧
      hgen.grid.coord .pp r =
        r / (if mapping then tp * cp * ep else tp * cp * ep * dp) % pp := by
  have hcoord : ∀ a, hgen.grid.coord a r = (MixedRadix.digits ((trainingAxes mapping).map
      (nameToSize tp ep dp pp cp)) r).getD ((trainingAxes mapping).idxOf a) 0 := by
    intro a
    rw [← tokens_training h, ← (init_spec h).1]
    rfl
  simp only [hcoord]
  cases mapping
  · refine ⟨rfl, ?_, ?_⟩
    · rw [← Nat.div_div_eq_div_mul]
      rfl
    · rw [if_neg (by decide), ← Nat.div_div_eq_div_mul, ← Nat.div_div_eq_div_mul,
        ← Nat.div_div_eq_div_mul]
      rfl
  · refine ⟨rfl, ?_, ?_⟩
    · rw [← Nat.div_div_eq_div_mul]
      rfl
    · rw [if_pos rfl, ← Nat.div_div_eq_div_mul, ← Nat.div_div_eq_div_mul]
      rfl

end

end Coordinates

/-! ## Stages and experts -/

section Accepted

variable {world tp pp cp ep etp : ℕ} {expertTp : Option ℕ} {mapping : Bool} {g : RankGenerators}

theorem initializeModelParallel_spec {order : String}
    (h : initializeModelParallel world tp pp cp ep expertTp order = .ok g) :
    ∃ dp edp, world = tp * pp * cp * dp ∧ world = expertTp.getD tp * ep * pp * edp ∧
      init tp 1 dp pp cp order 0 = .ok g.decoder ∧
      init (expertTp.getD tp) ep edp pp 1 order 0 = .ok g.expert ∧
      (['p', 'p'] <:+ order.toList ∨ pp = 1 ∨ edp = dp) := by
  unfold initializeModelParallel at h
  obtain ⟨hworld, h⟩ := require_bind_eq_ok.mp h
  obtain ⟨decoder, hdecoder, h⟩ := bind_eq_ok.mp h
  obtain ⟨hexpert, h⟩ := require_bind_eq_ok.mp h
  obtain ⟨expert, hinit, h⟩ := bind_eq_ok.mp h
  obtain ⟨horder, h⟩ := require_bind_eq_ok.mp h
  obtain ⟨pipelines, -, h⟩ := bind_eq_ok.mp h
  obtain ⟨expertPipelines, -, h⟩ := bind_eq_ok.mp h
  obtain ⟨-, ⟨⟩⟩ := require_bind_eq_ok.mp h
  exact ⟨_, _, (Nat.mul_div_cancel' (Nat.dvd_of_mod_eq_zero hworld)).symm,
    (Nat.mul_div_cancel' (Nat.dvd_of_mod_eq_zero hexpert)).symm, hdecoder, hinit, horder⟩

/-- An accepted configuration: `stage` consecutive ranks are in one pipeline stage, of the dense and
of the expert layers, and they hold whole tensor-parallel and whole expert-parallel groups. -/
structure Staged (g : RankGenerators) (world tp pp etp ep stage : ℕ) : Prop where
  decoder : g.decoder.Proper
  expert : g.expert.Proper
  decoder_world : g.decoder.worldSize = world
  expert_world : g.expert.worldSize = world
  expert_cp : g.expert.size .cp = 1
  pos : 0 < stage
  le : stage ≤ world
  tp_dvd : tp ∣ stage
  expert_dvd : etp * ep ∣ stage
  coord_tp : ∀ r, decoder.grid.coord .tp r = r % tp
  coord_pp : ∀ r, decoder.grid.coord .pp r = r / stage % pp
  coord_etp : ∀ r, expert.grid.coord .tp r = r % etp
  coord_ep : ∀ r, expert.grid.coord .ep r = r / etp % ep
  coord_epp : ∀ r, expert.grid.coord .pp r = r / stage % pp

theorem exists_staged (hworld : 0 < world) (htp : 0 < tp) (hpp : 0 < pp) (hcp : 0 < cp)
    (hep : 0 < ep) (hetp : 0 < expertTp.getD tp)
    (h : initializeModelParallel world tp pp cp ep expertTp (trainingOrder mapping) = .ok g) :
    ∃ stage, Staged g world tp pp (expertTp.getD tp) ep stage := by
  obtain ⟨dp, edp, hdense, hexpert, hdec, hexp, horder⟩ := initializeModelParallel_spec h
  generalize expertTp.getD tp = etp at *
  have hdp : 0 < dp := Nat.pos_of_mul_pos_left (hdense ▸ hworld)
  have hedp : 0 < edp := Nat.pos_of_mul_pos_left (hexpert ▸ hworld)
  have hd := proper_training hdec htp one_pos hdp hpp hcp
  have he := proper_training hexp hetp hep hedp hpp one_pos
  have hdw : g.decoder.worldSize = world := by
    rw [(init_spec hdec).2.2.1, hdense]
    ring
  have hew : g.expert.worldSize = world := by
    rw [(init_spec hexp).2.2.1, hexpert]
    ring
  have hecp : g.expert.size .cp = 1 := by rw [(init_spec hexp).1]; rfl
  have hcoord := coord_training hdec hd
  have hecoord := coord_training hexp he
  have hep' : ∀ r, he.grid.coord .ep r = r / etp % ep := by
    intro r
    rw [(hecoord r).2.1, mul_one]
  -- what is left of `Staged` once the size of a stage is chosen
  have hmk : ∀ stage, stage ∣ world → tp ∣ stage → etp * ep ∣ stage →
      (∀ r, hd.grid.coord .pp r = r / stage % pp) → (∀ r, he.grid.coord .pp r = r / stage % pp) →
      ∃ stage, Staged g world tp pp etp ep stage := fun stage hdvd ht hx hc hc' =>
    ⟨stage, hd, he, hdw, hew, hecp, Nat.pos_of_dvd_of_pos hdvd hworld, Nat.le_of_dvd hworld hdvd,
      ht, hx, fun r => (hcoord r).1, hc, fun r => (hecoord r).1, hep', hc'⟩
  cases mapping with
  | false =>
    have hstage : tp * cp * dp = etp * ep * edp := by
      have hmul : pp * (tp * cp * dp) = pp * (etp * ep * edp) := by
        calc pp * (tp * cp * dp) = world := by rw [hdense]; ring
          _ = pp * (etp * ep * edp) := by rw [hexpert]; ring
      exact Nat.eq_of_mul_eq_mul_left hpp hmul
    refine hmk (tp * cp * dp) ⟨pp, by rw [hdense]; ring⟩ ⟨cp * dp, by ring⟩ ⟨edp, hstage⟩ ?_ ?_
    · intro r
      rw [(hcoord r).2.2, if_neg (by decide), mul_one]
    · intro r
      rw [(hecoord r).2.2, if_neg (by decide), mul_one, hstage]
  | true =>
    -- this order does not end with the pipeline axis
    have hlast : ¬['p', 'p'] <:+ (trainingOrder true).toList := by decide +kernel
    rcases horder with horder | rfl | rfl
    · exact absurd horder hlast
    · refine hmk world dvd_rfl ⟨1 * cp * dp, by rw [hdense]; ring⟩
        ⟨1 * edp, by rw [hexpert]; ring⟩ ?_ ?_
      · intro r
        rw [(hcoord r).2.2, Nat.mod_one, Nat.mod_one]
      · intro r
        rw [(hecoord r).2.2, Nat.mod_one, Nat.mod_one]
    · have hstage : tp * cp = etp * ep := by
        have hmul : pp * edp * (tp * cp) = pp * edp * (etp * ep) := by
          calc pp * edp * (tp * cp) = world := by rw [hdense]; ring
            _ = pp * edp * (etp * ep) := by rw [hexpert]; ring
        exact Nat.eq_of_mul_eq_mul_left (by positivity) hmul
      refine hmk (tp * cp) ⟨pp * edp, by rw [hdense]; ring⟩ ⟨cp, rfl⟩
        ⟨1, by rw [hstage, mul_one]⟩ ?_ ?_
      · intro r
        rw [(hcoord r).2.2, if_pos rfl, mul_one]
      · intro r
        rw [(hecoord r).2.2, if_pos rfl, mul_one, hstage]

end Accepted

section Staged

variable {world tp pp etp ep stage : ℕ} {g : RankGenerators}
  (h : Staged g world tp pp etp ep stage) {l n : String} {r q : ℕ}

include h

theorem Staged.name_eq_iff (hr : r < world) (hq : q < world) (hl : l ≠ "")
    (hn : bytepsName g.decoder .dp l r = .ok n) :
    bytepsName g.decoder .dp l q = .ok n ↔
      q % tp = r % tp ∧ q / stage % pp = r / stage % pp := by
  rw [← h.decoder_world] at hr hq
  rw [sharing_iff (fun q hq n' hn' => bytepsName_dp_inj h.decoder hr hq hn hn')
    (fun q hq => exists_bytepsName_dp h.decoder hl hq) hq, h.coord_tp, h.coord_tp, h.coord_pp,
    h.coord_pp]

/-- Two ranks are in an expert-data-parallel group iff they hold the same part of the same experts of
the same stage. -/
theorem Staged.forall_not_mem_dp_iff :
    (∀ a ∉ [Axis.dp], h.expert.grid.coord a q = h.expert.grid.coord a r) ↔
      q % (etp * ep) = r % (etp * ep) ∧ q / stage % pp = r / stage % pp := by
  have hmod : q % (etp * ep) = r % (etp * ep) ↔ q % etp = r % etp ∧
      q / etp % ep = r / etp % ep := by
    constructor
    · intro heq
      have hetp : q % etp = r % etp := by
        rw [← Nat.mod_mul_right_mod q etp ep, heq, Nat.mod_mul_right_mod]
      refine ⟨hetp, ?_⟩
      rw [← Nat.mod_mul_right_div_self, heq, Nat.mod_mul_right_div_self]
    · rintro ⟨htp, hep⟩
      rw [Nat.mod_mul, Nat.mod_mul, htp, hep]
  rw [hmod, ← h.coord_etp, ← h.coord_etp, ← h.coord_ep, ← h.coord_ep, ← h.coord_epp, ← h.coord_epp]
  constructor
  · exact fun hall => ⟨⟨hall .tp (by decide), hall .ep (by decide)⟩, hall .pp (by decide)⟩
  · rintro ⟨⟨htp, hep⟩, hpp⟩ a ha
    cases a with
    | tp => exact htp
    | pp => exact hpp
    | ep => exact hep
    | dp => exact absurd ha (by decide)
    | cp => exact coord_eq_of_size_one h.expert h.expert_cp

theorem Staged.sameGroup_iff (hr : r < world) (hq : q < world) :
    SameGroup g.expert "dp" r q ↔
      q % (etp * ep) = r % (etp * ep) ∧ q / stage % pp = r / stage % pp := by
  rw [← h.expert_world] at hr hq
  rw [Parallel.sameGroup_iff h.expert [.dp] (by decide) hr hq, h.forall_not_mem_dp_iff]

theorem Staged.expertExpectedWorkers_eq (hr : r < world) :
    expertExpectedWorkers g.expert r = .ok (h.expert.grid.group [.dp] r).length := by
  rw [← h.expert_world] at hr
  unfold expertExpectedWorkers
  rw [getRanks_eq h.expert [.dp] (by decide)]
  show (ProcessGroups.getGroup (groupOf (h.expert.grid.groups [.dp]) r) _ >>= _) = _
  rw [groupOf_groups h.expert hr]
  rfl

omit h in
theorem dvd_of_classes {a b : ℕ} (ha : a ∣ stage) (hb : b ∣ stage) (hpos : 0 < stage)
    (hle : stage ≤ world)
    (hall : ∀ q < world, q % a = 0 ∧ q / stage % pp = 0 → q % b = 0) : b ∣ a := by
  rcases (Nat.le_of_dvd hpos ha).lt_or_eq with hlt | rfl
  · refine Nat.dvd_of_mod_eq_zero (hall a (hlt.trans_le hle) ⟨Nat.mod_self a, ?_⟩)
    rw [Nat.div_eq_of_lt hlt, Nat.zero_mod]
  · exact hb

end Staged

/-! ## Names and expert-data-parallel groups -/

/-- For all sizes that are accepted, in both orders of training: for every logical name, the ranks
that share a name are an expert-data-parallel group, as many as are announced, iff the dense
tensor-parallel size is the product of the expert-tensor- and the expert-parallel size. -/
theorem expert_names_iff {world tp pp cp ep : ℕ} {expertTp : Option ℕ} {mapping : Bool}
    {g : RankGenerators} (hworld : 0 < world) (htp : 0 < tp) (hpp : 0 < pp) (hcp : 0 < cp)
    (hep : 0 < ep) (hetp : 0 < expertTp.getD tp)
    (hg : initializeModelParallel world tp pp cp ep expertTp (trainingOrder mapping) = .ok g) :
    (∀ l ≠ "", ∀ r < world, ∃ n, bytepsName g.decoder .dp l r = .ok n ∧
      (∀ q < world, bytepsName g.decoder .dp l q = .ok n ↔ SameGroup g.expert "dp" r q) ∧
      expertExpectedWorkers g.expert r =
        .ok {q | q < world ∧ bytepsName g.decoder .dp l q = .ok n}.ncard) ↔
      tp = expertTp.getD tp * ep := by
  obtain ⟨stage, h⟩ := exists_staged hworld htp hpp hcp hep hetp hg
  generalize expertTp.getD tp = etp at *
  constructor
  · intro hall
    obtain ⟨n, hn, hgroup, -⟩ := hall "bucket_0" (by decide) 0 hworld
    -- rank 0 against the first rank after a whole group
    have hiff : ∀ q < world, (q % tp = 0 ∧ q / stage % pp = 0 ↔
        q % (etp * ep) = 0 ∧ q / stage % pp = 0) := by
      intro q hq
      have hq' := hgroup q hq
      rw [h.name_eq_iff hworld hq (by decide) hn, h.sameGroup_iff hworld hq] at hq'
      simpa only [Nat.zero_mod, Nat.zero_div] using hq'
    apply Nat.dvd_antisymm
    · exact dvd_of_classes h.expert_dvd h.tp_dvd h.pos h.le fun q hq he => ((hiff q hq).mpr he).1
    · exact dvd_of_classes h.tp_dvd h.expert_dvd h.pos h.le fun q hq ht => ((hiff q hq).mp ht).1
  · intro heq l hl r hr
    obtain ⟨n, hn⟩ := exists_bytepsName_dp h.decoder (r := r) hl (h.decoder_world ▸ hr)
    refine ⟨n, hn, ?_, ?_⟩
    · intro q hq
      rw [h.name_eq_iff hr hq hl hn, h.sameGroup_iff hr hq, ← heq]
    · have hshare : ∀ q < g.expert.worldSize, bytepsName g.decoder .dp l q = .ok n ↔
          ∀ a ∉ [Axis.dp], h.expert.grid.coord a q = h.expert.grid.coord a r := by
        intro q hq
        rw [h.expert_world] at hq
        rw [h.name_eq_iff hr hq hl hn, h.forall_not_mem_dp_iff, ← heq]
      rw [h.expertExpectedWorkers_eq hr, ← ncard_eq_length h.expert hshare, h.expert_world]

/-- Four ranks, two experts and no expert-tensor parallelism: the ranks `0` and `2` are a group. -/
theorem expert_names_iff_two_experts :
    ∃ g, initializeModelParallel 4 2 1 1 2 (some 1) (trainingOrder false) = .ok g ∧
      SameGroup g.expert "dp" 0 2 := by
  obtain ⟨g, hg, hname⟩ :
      ∃ g, initializeModelParallel 4 2 1 1 2 (some 1) (trainingOrder false) = .ok g ∧
        bytepsName g.decoder .dp "bucket_0" 0 = bytepsName g.decoder .dp "bucket_0" 2 := by decide
  obtain ⟨n, hn, hgroup, -⟩ := (expert_names_iff (by decide) (by decide) (by decide) (by decide)
    (by decide) (by decide) hg).mpr rfl "bucket_0" (by decide) 0 (by decide)
  rw [hn] at hname
  exact ⟨g, hg, (hgroup 2 (by decide)).mp hname.symm⟩

/-- Two experts on two ranks without tensor parallelism: both ranks give the name
`dp.tp0.pp0.bucket_0` to the gradients of different experts, and each announces one worker. -/
theorem experts_share_name :
    ∃ g, initializeModelParallel 2 1 1 1 2 none (trainingOrder false) = .ok g ∧
      bytepsName g.decoder .dp "bucket_0" 0 = .ok "dp.tp0.pp0.bucket_0" ∧
      bytepsName g.decoder .dp "bucket_0" 1 = .ok "dp.tp0.pp0.bucket_0" ∧
      g.expert.getRanks "dp" = .ok [[0], [1]] ∧ ¬SameGroup g.expert "dp" 0 1 ∧
      expertExpectedWorkers g.expert 0 = .ok 1 := by
  unfold SameGroup
  decide

end MegatronDPU.Parallel
