import MegatronDPU.Parallel.Names
import MegatronDPU.Parallel.RankGenerator

/-!
# Process groups and names

`initialize_model_parallel` puts each rank into a group of each kind; the ranks in these groups make
the BytePS names. If the order of the axes describes the world, the ranks that share a name are
those of one group, as many as are announced to the server: `names_eq_iff_sameGroup`.
-/

namespace MegatronDPU.Parallel

open Raise RankGenerator
open RankGenerator (getRanks_eq)

/-- The group of a rank: the loops over `get_ranks` keep the last one that holds the rank. -/
def groupOf (groups : List (List ℕ)) (rank : ℕ) : Option (List ℕ) :=
  groups.foldl (fun g ranks => if rank ∈ ranks then some ranks else g) none

/-- `group.rank()`; a process group orders its ranks. -/
def groupRank (ranks : List ℕ) (rank : ℕ) : ℕ := (ranks.insertionSort (· ≤ ·)).idxOf rank

/-- The groups of a rank; those not initialised are `none`. -/
structure ProcessGroups where
  dataParallelGroupWithCp : Option (List ℕ)
  dataParallelGroup : Option (List ℕ)
  contextParallelGroup : Option (List ℕ)
  tensorModelParallelGroup : Option (List ℕ)
  pipelineModelParallelGroup : Option (List ℕ)

namespace ProcessGroups

/-- The groups that `initialize_model_parallel` makes. -/
def init (gen : RankGenerator) (rank : ℕ) : Except PyError ProcessGroups := do
  let dpCp ← gen.getRanks "dp-cp"
  let dp ← gen.getRanks "dp"
  let cp ← gen.getRanks "cp"
  let tp ← gen.getRanks "tp"
  let pp ← gen.getRanks "pp"
  return ⟨groupOf dpCp rank, groupOf dp rank, groupOf cp rank, groupOf tp rank, groupOf pp rank⟩

/-- A getter raises if its group is not initialised. -/
def getGroup (group : Option (List ℕ)) (message : String) : Except PyError (List ℕ) :=
  match group with
  | none => .error (.assertionError message)
  | some ranks => .ok ranks

variable (g : ProcessGroups)

def getTensorModelParallelGroup : Except PyError (List ℕ) :=
  getGroup g.tensorModelParallelGroup "tensor model parallel group is not initialized"

def getPipelineModelParallelGroup : Except PyError (List ℕ) :=
  getGroup g.pipelineModelParallelGroup "pipeline_model parallel group is not initialized"

def getDataParallelGroup : Except PyError (List ℕ) :=
  getGroup g.dataParallelGroup "data parallel group is not initialized"

def getDataParallelGroupWithCp : Except PyError (List ℕ) :=
  getGroup g.dataParallelGroupWithCp
    "data parallel group with context parallel combined is not initialized"

def getContextParallelGroup : Except PyError (List ℕ) :=
  getGroup g.contextParallelGroup "context parallel group is not initialized"

/-- The ranks in the groups, as the getters return them. -/
def getters (rank : ℕ) : RankGetters where
  tensorModelParallelRank := do return groupRank (← g.getTensorModelParallelGroup) rank
  pipelineModelParallelRank := do return groupRank (← g.getPipelineModelParallelGroup) rank
  dataParallelRank := do return groupRank (← g.getDataParallelGroup) rank
  contextParallelRank := do return groupRank (← g.getContextParallelGroup) rank

end ProcessGroups

/-- The name under which a rank declares a tensor. -/
def bytepsName (gen : RankGenerator) (scope : Scope) (logicalName : String) (rank : ℕ) :
    Except PyError String := do
  let g ← ProcessGroups.init gen rank
  buildBytepsGroupName (g.getters rank) scope logicalName

/-- The workers that a rank announces: the size of the group it reduces over, which is the
data-parallel group with context parallelism or the tensor-parallel group. -/
def expectedWorkers (gen : RankGenerator) (scope : Scope) (rank : ℕ) : Except PyError ℕ := do
  let g ← ProcessGroups.init gen rank
  match scope with
  | .dp => return (← g.getDataParallelGroupWithCp).length
  | .tp => return (← g.getTensorModelParallelGroup).length
  | .other name => .error (.valueError ("Unsupported BytePS scope: " ++ name))

/-- The ranks are in one group of the token. -/
def SameGroup (gen : RankGenerator) (token : String) (r r' : ℕ) : Prop :=
  ∃ groups, gen.getRanks token = .ok groups ∧ ∃ ranks ∈ groups, r ∈ ranks ∧ r' ∈ ranks

/-! ## Groups of the grid -/

theorem groupOf_eq {groups : List (List ℕ)} {rank : ℕ} {ranks : List ℕ} (hmem : ranks ∈ groups)
    (hrank : rank ∈ ranks) (huniq : ∀ g ∈ groups, rank ∈ g → g = ranks) :
    groupOf groups rank = some ranks := by
  unfold groupOf
  induction groups using List.reverseRecOn with
  | nil => cases hmem
  | append_singleton groups g ih =>
    rw [List.foldl_append, List.foldl_cons, List.foldl_nil]
    split_ifs with hg
    · rw [huniq g (by simp) hg]
    · rcases List.mem_append.mp hmem with h | h
      · exact ih h fun g' hg' => huniq g' (List.mem_append_left _ hg')
      · exact absurd (List.mem_singleton.mp h ▸ hrank) hg

section Proper

variable {gen : RankGenerator} (h : gen.Proper) {r r' : ℕ} {want : List Axis}

include h

theorem groupOf_groups (hr : r < gen.worldSize) :
    groupOf (h.grid.groups want) r = some (h.grid.group want r) := by
  rw [← h.card_grid] at hr
  have hmem : h.grid.group want r ∈ h.grid.groups want ∧ r ∈ h.grid.group want r :=
    h.grid.mem_groups_iff.mpr ⟨hr, rfl⟩
  exact groupOf_eq hmem.1 hmem.2 fun g hg hrg => (h.grid.mem_groups_iff.mp ⟨hg, hrg⟩).2

theorem groupRank_group (a : Axis) (hr : r < gen.worldSize) :
    groupRank (h.grid.group [a] r) r = h.grid.coord a r := by
  rw [← h.card_grid] at hr
  have hsorted : (h.grid.group [a] r).Pairwise (· ≤ ·) := h.grid.sorted_group.imp le_of_lt
  rw [groupRank, hsorted.insertionSort_eq, h.grid.idxOf_group_single hr]

theorem init_eq (hr : r < gen.worldSize) : ProcessGroups.init gen r = .ok
    ⟨some (h.grid.group [.dp, .cp] r), some (h.grid.group [.dp] r), some (h.grid.group [.cp] r),
      some (h.grid.group [.tp] r), some (h.grid.group [.pp] r)⟩ := by
  unfold ProcessGroups.init
  rw [getRanks_eq h [.dp, .cp] (by decide),
    getRanks_eq h [.dp] (by decide),
    getRanks_eq h [.cp] (by decide),
    getRanks_eq h [.tp] (by decide),
    getRanks_eq h [.pp] (by decide)]
  show Except.ok _ = _
  simp only [groupOf_groups h hr]

theorem bytepsName_eq (scope : Scope) (l : String) (hr : r < gen.worldSize) :
    bytepsName gen scope l r = buildBytepsGroupName ⟨.ok (h.grid.coord .tp r),
      .ok (h.grid.coord .pp r), .ok (h.grid.coord .dp r), .ok (h.grid.coord .cp r)⟩ scope l := by
  unfold bytepsName
  rw [init_eq h hr]
  simp only [← groupRank_group h _ hr]
  rfl

theorem sameGroup_iff (want : List Axis) {token : String}
    (ht : token.toList.splitOn '-' = want.map Axis.name) (hr : r < gen.worldSize)
    (hr' : r' < gen.worldSize) :
    SameGroup gen token r r' ↔ ∀ a ∉ want, h.grid.coord a r' = h.grid.coord a r := by
  rw [← h.card_grid] at hr hr'
  unfold SameGroup
  rw [getRanks_eq h want ht]
  constructor
  · rintro ⟨groups, ⟨⟩, ranks, hranks, hmem, hmem'⟩
    obtain ⟨-, rfl⟩ := h.grid.mem_groups_iff.mp ⟨hranks, hmem⟩
    exact (h.grid.mem_group.mp hmem').2
  · intro hall
    obtain ⟨hranks, hmem⟩ := h.grid.mem_groups_iff.mpr ⟨hr, rfl⟩
    exact ⟨_, rfl, _, hranks, hmem, h.grid.mem_group.mpr ⟨hr', hall⟩⟩

theorem coord_eq_of_size_one {a : Axis} (ha : gen.size a = 1) :
    h.grid.coord a r' = h.grid.coord a r := by
  have hlt := h.grid.coord_lt a r
  have hlt' := h.grid.coord_lt a r'
  rw [show h.grid.size a = 1 from ha] at hlt hlt'
  omega

theorem ncard_eq_length {P : ℕ → Prop}
    (hP : ∀ q < gen.worldSize, P q ↔ ∀ a ∉ want, h.grid.coord a q = h.grid.coord a r) :
    {q | q < gen.worldSize ∧ P q}.ncard = (h.grid.group want r).length := by
  have hset : {q | q < gen.worldSize ∧ P q} = ((h.grid.group want r).toFinset : Set ℕ) := by
    ext q
    rw [Set.mem_ofPred_eq, Finset.mem_coe, List.mem_toFinset, h.grid.mem_group, h.card_grid]
    exact and_congr_right fun hq => hP q hq
  rw [hset, Set.ncard_coe_finset, List.toFinset_card_of_nodup (h.grid.sorted_group.imp ne_of_lt)]

end Proper

/-! ## Names and groups -/

section Names

variable {gen : RankGenerator} {l n n' : String} {r r' : ℕ}

theorem sharing_iff {scope : Scope} {P : ℕ → Prop}
    (hinj : ∀ q < gen.worldSize, ∀ n', bytepsName gen scope l q = .ok n' → (n = n' ↔ P q))
    (hex : ∀ q < gen.worldSize, ∃ n', bytepsName gen scope l q = .ok n') {q : ℕ}
    (hq : q < gen.worldSize) : bytepsName gen scope l q = .ok n ↔ P q := by
  obtain ⟨n', hn'⟩ := hex q hq
  rw [hn', Except.ok.injEq, eq_comm, hinj q hq n' hn']

variable (h : gen.Proper)

include h

theorem exists_bytepsName_dp (hl : l ≠ "") (hr : r < gen.worldSize) :
    ∃ n, bytepsName gen .dp l r = .ok n := by
  rw [bytepsName_eq h .dp l hr]
  exact ⟨_, dp_name_eq_ok_iff.mpr ⟨hl, _, rfl, _, rfl, rfl⟩⟩

theorem exists_bytepsName_tp (hl : l ≠ "") (hr : r < gen.worldSize) :
    ∃ n, bytepsName gen .tp l r = .ok n := by
  rw [bytepsName_eq h .tp l hr]
  exact ⟨_, tp_name_eq_ok_iff.mpr ⟨hl, _, rfl, _, rfl, _, rfl, rfl⟩⟩

theorem bytepsName_dp_inj (hr : r < gen.worldSize) (hr' : r' < gen.worldSize)
    (hn : bytepsName gen .dp l r = .ok n) (hn' : bytepsName gen .dp l r' = .ok n') :
    n = n' ↔ h.grid.coord .tp r' = h.grid.coord .tp r ∧
      h.grid.coord .pp r' = h.grid.coord .pp r := by
  rw [bytepsName_eq h .dp l hr] at hn
  rw [bytepsName_eq h .dp l hr'] at hn'
  simp only [dp_name_inj hn hn', Except.ok.injEq, and_true, @eq_comm _ (h.grid.coord _ r)]

theorem bytepsName_tp_inj (hr : r < gen.worldSize) (hr' : r' < gen.worldSize)
    (hn : bytepsName gen .tp l r = .ok n) (hn' : bytepsName gen .tp l r' = .ok n') :
    n = n' ↔ h.grid.coord .dp r' = h.grid.coord .dp r ∧
      h.grid.coord .pp r' = h.grid.coord .pp r ∧ h.grid.coord .cp r' = h.grid.coord .cp r := by
  rw [bytepsName_eq h .tp l hr] at hn
  rw [bytepsName_eq h .tp l hr'] at hn'
  simp only [tp_name_inj hn hn', Except.ok.injEq, and_true, @eq_comm _ (h.grid.coord _ r)]

theorem forall_not_mem_dpCp_iff (hep : gen.size .ep = 1) :
    (∀ a ∉ [Axis.dp, .cp], h.grid.coord a r' = h.grid.coord a r) ↔
      h.grid.coord .tp r' = h.grid.coord .tp r ∧ h.grid.coord .pp r' = h.grid.coord .pp r := by
  constructor
  · exact fun hall => ⟨hall .tp (by decide), hall .pp (by decide)⟩
  · rintro ⟨htp, hpp⟩ a ha
    cases a with
    | tp => exact htp
    | pp => exact hpp
    | ep => exact coord_eq_of_size_one h hep
    | dp | cp => exact absurd ha (by decide)

theorem forall_not_mem_tp_iff (hep : gen.size .ep = 1) :
    (∀ a ∉ [Axis.tp], h.grid.coord a r' = h.grid.coord a r) ↔
      h.grid.coord .dp r' = h.grid.coord .dp r ∧ h.grid.coord .pp r' = h.grid.coord .pp r ∧
        h.grid.coord .cp r' = h.grid.coord .cp r := by
  constructor
  · exact fun hall => ⟨hall .dp (by decide), hall .pp (by decide), hall .cp (by decide)⟩
  · rintro ⟨hdp, hpp, hcp⟩ a ha
    cases a with
    | tp => exact absurd ha (by decide)
    | pp => exact hpp
    | ep => exact coord_eq_of_size_one h hep
    | dp => exact hdp
    | cp => exact hcp

end Names

/-- For all sizes and every accepted order that names no axis of more than one rank twice, and for
any two ranks and a non-empty logical name: names of scope `dp` agree iff the ranks are in one
`dp-cp` group, names of scope `tp` iff they are in one `tp` group, names of different scopes are
different, and as many ranks share a name as each of them announces. -/
theorem names_eq_iff_sameGroup {tp cp dp pp : ℕ} (htp : 0 < tp) (hcp : 0 < cp) (hdp : 0 < dp)
    (hpp : 0 < pp) {order : String} {gen : RankGenerator}
    (hgen : init tp 1 dp pp cp order 0 = .ok gen) (honce : gen.AxesOnce)
    (l : String) (hl : l ≠ "") (r r' : ℕ) (hr : r < gen.worldSize) (hr' : r' < gen.worldSize) :
    ∃ n n' t t', bytepsName gen .dp l r = .ok n ∧ bytepsName gen .dp l r' = .ok n' ∧
      bytepsName gen .tp l r = .ok t ∧ bytepsName gen .tp l r' = .ok t' ∧
      (n = n' ↔ SameGroup gen "dp-cp" r r') ∧ (t = t' ↔ SameGroup gen "tp" r r') ∧ n ≠ t' ∧
      expectedWorkers gen .dp r =
        .ok {q | q < gen.worldSize ∧ bytepsName gen .dp l q = .ok n}.ncard ∧
      expectedWorkers gen .tp r =
        .ok {q | q < gen.worldSize ∧ bytepsName gen .tp l q = .ok t}.ncard := by
  have h := proper_of_init hgen htp one_pos hdp hpp hcp honce
  have hep : gen.size .ep = 1 := by rw [(init_spec hgen).1]; rfl
  obtain ⟨n, hn⟩ := exists_bytepsName_dp h hl hr
  obtain ⟨n', hn'⟩ := exists_bytepsName_dp h hl hr'
  obtain ⟨t, ht⟩ := exists_bytepsName_tp h hl hr
  obtain ⟨t', ht'⟩ := exists_bytepsName_tp h hl hr'
  refine ⟨n, n', t, t', hn, hn', ht, ht', ?_, ?_, ?_, ?_, ?_⟩
  · rw [bytepsName_dp_inj h hr hr' hn hn',
      sameGroup_iff h [.dp, .cp] (by decide) hr hr', forall_not_mem_dpCp_iff h hep]
  · rw [bytepsName_tp_inj h hr hr' ht ht',
      sameGroup_iff h [.tp] (by decide) hr hr', forall_not_mem_tp_iff h hep]
  · rw [bytepsName_eq h .dp l hr] at hn
    rw [bytepsName_eq h .tp l hr'] at ht'
    exact dp_name_ne_tp_name hn ht'
  · have hshare : ∀ q < gen.worldSize, bytepsName gen .dp l q = .ok n ↔
        ∀ a ∉ [Axis.dp, .cp], h.grid.coord a q = h.grid.coord a r := by
      intro q hq
      rw [forall_not_mem_dpCp_iff h hep]
      exact sharing_iff (fun q hq n' hn' => bytepsName_dp_inj h hr hq hn hn')
        (fun q hq => exists_bytepsName_dp h hl hq) hq
    rw [ncard_eq_length h hshare, expectedWorkers, init_eq h hr]
    rfl
  · have hshare : ∀ q < gen.worldSize, bytepsName gen .tp l q = .ok t ↔
        ∀ a ∉ [Axis.tp], h.grid.coord a q = h.grid.coord a r := by
      intro q hq
      rw [forall_not_mem_tp_iff h hep]
      exact sharing_iff (fun q hq n' hn' => bytepsName_tp_inj h hr hq ht hn')
        (fun q hq => exists_bytepsName_tp h hl hq) hq
    rw [ncard_eq_length h hshare, expectedWorkers, init_eq h hr]
    rfl

/-- Two by two ranks in the default order: `0` and `2` reduce their gradients together. -/
theorem names_eq_iff_sameGroup_default :
    ∃ gen, init 2 1 2 1 1 "tp-cp-ep-dp-pp" 0 = .ok gen ∧ gen.worldSize = 4 ∧
      ∃ n, bytepsName gen .dp "bucket_0" 0 = .ok n ∧ bytepsName gen .dp "bucket_0" 2 = .ok n ∧
        SameGroup gen "dp-cp" 0 2 := by
  obtain ⟨gen, hgen, honce, hworld, hname⟩ :
      ∃ gen, init 2 1 2 1 1 "tp-cp-ep-dp-pp" 0 = .ok gen ∧ gen.AxesOnce ∧ gen.worldSize = 4 ∧
        bytepsName gen .dp "bucket_0" 0 = bytepsName gen .dp "bucket_0" 2 := by decide +kernel
  obtain ⟨n, n', -, -, hn, hn', -, -, hdp, -⟩ := names_eq_iff_sameGroup (by decide) (by decide)
    (by decide) (by decide) hgen honce "bucket_0" (by decide)
    0 2 (by rw [hworld]; decide) (by rw [hworld]; decide)
  rw [hn, hn'] at hname
  obtain rfl := Except.ok.inj hname
  exact ⟨gen, hgen, hworld, n, hn, hn', hdp.mp rfl⟩

/-- An order that names the tensor axis twice is accepted. Then `0` and `2` share a name, but no
data-parallel group holds both. -/
theorem repeated_axis_shares_name :
    ∃ gen, init 2 1 2 1 1 "tp-tp-cp-dp-pp" 0 = .ok gen ∧ gen.worldSize = 4 ∧
      bytepsName gen .dp "bucket_0" 0 = .ok "dp.tp0.pp0.bucket_0" ∧
      bytepsName gen .dp "bucket_0" 2 = .ok "dp.tp0.pp0.bucket_0" ∧
      gen.getRanks "dp-cp" = .ok [[0, 4], [1, 5]] ∧ ¬SameGroup gen "dp-cp" 0 2 := by
  unfold SameGroup
  decide

end MegatronDPU.Parallel
