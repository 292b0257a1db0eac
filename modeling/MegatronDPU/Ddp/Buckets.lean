import MegatronDPU.Ddp.GradSync
import MegatronDPU.Ddp.Tiling
import MegatronDPU.Parallel.Names

/-!
# Buckets and their BytePS names

`DistributedDataParallel` makes one buffer for each kind of parameter (dense or expert) and pair of
types, for each chunk of the model. Each buffer numbers its buckets from `0`, and the BytePS name of
a bucket is made of that number and the ranks of the process only. So two buffers share names:
`bucket_names_distinct_iff`.
-/

namespace MegatronDPU.Ddp

open Lts Raise Parallel List Option

/-! ## `partition_buckets` -/

/-- `_ParamAndGradBucketGroup`; of its process group only the size is used. -/
structure BucketGroup where
  buckets : List Bucket
  groupSize : ℕ

/-- `dtype_to_buffer_map`. -/
def dtypeToBufferMap (m : Dict Dtype ParamAndGradBuffer) :
    List ParamAndGradBuffer → Except PyError (Dict Dtype ParamAndGradBuffer)
  | [] => .ok m
  | buffer :: buffers => do
    require (m.get? buffer.paramDtype = none) (.assertionError)
    dtypeToBufferMap (m.set buffer.paramDtype buffer) buffers

/-- `partition_buckets`. -/
def partitionBuckets (buffers : List ParamAndGradBuffer) (forceSingleBucketGroup : Bool) :
    Except PyError (List BucketGroup) :=
  match buffers with
  | [] => .ok []
  | first :: rest => do
    let dtypes ← dtypeToBufferMap .empty (first :: rest)
    if forceSingleBucketGroup then do
      require (∀ buffer ∈ first :: rest,
        first.dataParallelWorldSize = buffer.dataParallelWorldSize) (.assertionError)
      return [⟨(first :: rest).flatMap (·.buckets), first.dataParallelWorldSize⟩]
    else match dtypes.get? .uint8 with
      | none => return (first :: rest).flatMap fun buffer =>
          buffer.buckets.map fun bucket => ⟨[bucket], buffer.dataParallelWorldSize⟩
      | some fp8Buffer =>
        let nonFp8Buckets :=
          ((first :: rest).filter (·.paramDtype ≠ .uint8)).flatMap (·.buckets)
        -- the group is that of the last buffer of the loop before
        let buffer := (first :: rest).getLast (cons_ne_nil first rest)
        return fp8Buffer.buckets.mapIdx fun i bucket =>
          ⟨if i + 1 = fp8Buffer.buckets.length then bucket :: nonFp8Buckets else [bucket],
            buffer.dataParallelWorldSize⟩

/-! ## `DistributedDataParallel` -/

/-- The types that parameters are grouped by. -/
def paramAndGradDtype (cfg : DdpConfig) (p : Param) : Dtype × Dtype :=
  (if p.isFloat8tensor then .uint8 else p.dtype, if cfg.gradReduceInFp32 then .float32 else p.dtype)

/-- `param_and_grad_dtype_to_params`. -/
def paramAndGradDtypeToParams (cfg : DdpConfig) (params : List Param) :
    Dict (Dtype × Dtype) (List Param) :=
  params.foldl (fun d p =>
    d.set (paramAndGradDtype cfg p) ((d.get? (paramAndGradDtype cfg p)).getD [] ++ [p])) .empty

instance (cfg : DdpConfig) (g : Groups) (kind : ParamKind) : Decidable (FactorChecked cfg g kind) :=
  inferInstanceAs (Decidable (cfg.calculatePerTokenLoss = false →
    if cfg.averageInCollective then
      gradientScalingFactor cfg g kind / (g.group kind).card = 1 / g.dpCp.card
    else gradientScalingFactor cfg g kind = 1 / g.dpCp.card))

/-- `_allocate_buffers_for_parameters`, for one distributed optimizer instance. -/
def allocateBuffersForParameters (cfg : DdpConfig) (g : Groups) (bucketSize : Option ℕ)
    (disableBucketing : Bool) (kind : ParamKind) (inputParams : List Param) :
    Except PyError (List ParamAndGradBuffer × List BucketGroup) := do
  require (∀ p ∈ inputParams, p.requiresGrad = true) (.assertionError)
  require (FactorChecked cfg g kind) (.assertionError)
  let buffers ← (paramAndGradDtypeToParams cfg inputParams).entries.mapM fun (dtypes, params) =>
    ParamAndGradBuffer.init cfg dtypes.1 dtypes.2 params (g.group kind).card bucketSize
      (gradientScalingFactor cfg g kind)
  let bucketGroups ← partitionBuckets buffers disableBucketing
  return (buffers, bucketGroups)

/-- A chunk of the model: its parameters, in the order of `named_parameters`. -/
structure ModelChunk where
  params : List Param
  disableBucketing : Bool := false

def paramKind (p : Param) : ParamKind := if p.allreduce then .dense else .expert

/-- The parameters of a kind that are trained. -/
def ModelChunk.paramsOf (chunk : ModelChunk) (kind : ParamKind) : List Param :=
  chunk.params.filter fun p => p.requiresGrad && decide (paramKind p = kind)

/-- `self.bucket_size`. -/
def bucketSizeOf (cfg : DdpConfig) (dpWorldSize ppRank : ℕ) (disableBucketing : Bool) : Option ℕ :=
  if cfg.overlapGradReduce = false then none
  else if disableBucketing = true ∨ 0 < ppRank then none
  else some (cfg.bucketSize.getD (max 40000000 (1000000 * dpWorldSize)))

/-- What the constructor leaves of buffers and bucket groups. -/
structure DistributedDataParallel where
  buffers : List ParamAndGradBuffer
  bucketGroups : List BucketGroup
  expertParallelBuffers : List ParamAndGradBuffer
  expertParallelBucketGroups : List BucketGroup

/-- `DistributedDataParallel.__init__`. -/
def DistributedDataParallel.init (cfg : DdpConfig) (w : World) (g : Groups)
    (dpWorldSize ppRank : ℕ) (chunk : ModelChunk) : Except PyError DistributedDataParallel := do
  let bucketSize := bucketSizeOf cfg dpWorldSize ppRank chunk.disableBucketing
  require (cfg.calculatePerTokenLoss = true → cfg.averageInCollective = false)
    (.assertionError "Cannot average in collective when calculating per-token loss!")
  require (cfg.useDpuReduce = true → cfg.useDistributedOptimizer = false → g.dpCp.card ≤ w.size)
    (.runtimeError ("BytePS world size is smaller than Megatron data-parallel size: " ++
      "byteps.size()=" ++ toString w.size ++ " vs dp_size=" ++ toString g.dpCp.card ++ "."))
  let (buffers, bucketGroups) ← allocateBuffersForParameters cfg g bucketSize
    chunk.disableBucketing .dense (chunk.paramsOf .dense)
  let (expertParallelBuffers, expertParallelBucketGroups) ← allocateBuffersForParameters cfg g
    bucketSize chunk.disableBucketing .expert (chunk.paramsOf .expert)
  return { buffers, bucketGroups, expertParallelBuffers, expertParallelBucketGroups }

def DistributedDataParallel.groupsOf (ddp : DistributedDataParallel) : ParamKind → List BucketGroup
  | .dense => ddp.bucketGroups
  | .expert => ddp.expertParallelBucketGroups

/-! ## Synchronising the bucket groups of a process -/

/-- The coordinates of a rank. -/
structure Coords where
  tpRank : ℕ
  ppRank : ℕ
  dpRank : ℕ
  cpRank : ℕ

def Coords.getters (c : Coords) : RankGetters := ⟨.ok c.tpRank, .ok c.ppRank, .ok c.dpRank,
  .ok c.cpRank⟩

/-- The declared names, the tensors handed to `push_pull` with their names, and the exception that
ended the process. -/
structure SyncState where
  declared : Dict String ℕ := .empty
  pushed : List (Bucket × String) := []
  raised : Option PyError := none

def logicalName (b : Bucket) : String := "bucket_" ++ toString b.bucketId

/-- The loop over the buckets of a group in the BytePS branch of `start_grad_sync`. -/
def bytepsAllreduceBuckets (c : Coords) (groupSize : ℕ) : List Bucket → SyncState → SyncState
  | [], s => s
  | b :: buckets, s =>
    match declareGroupAndGetName c.getters s.declared (some groupSize) .dp (logicalName b) with
    | .error e => { s with raised := some e }
    | .ok (name, declared) =>
      bytepsAllreduceBuckets c groupSize buckets
        { s with declared := declared, pushed := s.pushed ++ [(b, name)] }

/-- `start_grad_sync`. The other branch does not use BytePS. -/
def BucketGroup.startGradSync (cfg : DdpConfig) (c : Coords) (group : BucketGroup)
    (s : SyncState) : SyncState :=
  if cfg.useDistributedOptimizer = false ∧ cfg.useDpuReduce = true then
    bytepsAllreduceBuckets c group.groupSize group.buckets s
  else s

/-- All bucket groups of a rank. -/
def rankBucketGroups (ddps : List DistributedDataParallel) : List BucketGroup :=
  ddps.flatMap fun ddp => ddp.bucketGroups ++ ddp.expertParallelBucketGroups

/-- A process synchronises its bucket groups in any order, again and again. -/
def gradSyncs (cfg : DdpConfig) (c : Coords) (groups : List BucketGroup) : System SyncState ℕ where
  init s := s = {}
  step s i :=
    if s.raised.isSome then none
    else groups[i]?.map fun group => group.startGradSync cfg c s


/-! ## What `partition_buckets` keeps -/

variable {buffer : ParamAndGradBuffer} {buffers : List ParamAndGradBuffer}
  {dpWorldSize ppRank : ℕ} {p : Param}

section

variable {m m' : Dict Dtype ParamAndGradBuffer} (h : dtypeToBufferMap m buffers = .ok m')
include h

theorem mem_of_get?_dtypeToBufferMap {dtype : Dtype} (hb : m'.get? dtype = some buffer) :
    m.get? dtype = some buffer ∨ buffer ∈ buffers ∧ buffer.paramDtype = dtype := by
  induction buffers generalizing m with
  | nil =>
    cases h
    exact .inl hb
  | cons first buffers ih =>
    rw [dtypeToBufferMap, require_bind_eq_ok] at h
    rcases ih h.2 with hm | ⟨hmem, hd⟩
    · rw [Dict.get?_set] at hm
      split_ifs at hm with hd
      · cases hm
        exact .inr ⟨mem_cons_self, hd.symm⟩
      · exact .inl hm
    · exact .inr ⟨mem_cons_of_mem first hmem, hd⟩

theorem nodup_dtypes :
    (buffers.map (·.paramDtype)).Nodup ∧ ∀ buffer ∈ buffers, m.get? buffer.paramDtype = none := by
  induction buffers generalizing m with
  | nil => exact ⟨nodup_nil, nofun⟩
  | cons first rest ih =>
    rw [dtypeToBufferMap, require_bind_eq_ok] at h
    obtain ⟨hnd, hnew⟩ := ih h.2
    have hne : ∀ buffer ∈ rest, buffer.paramDtype ≠ first.paramDtype := by
      intro buffer hb heq
      have hnone := hnew buffer hb
      rw [heq, Dict.get?_set_self] at hnone
      cases hnone
    refine ⟨nodup_cons.mpr ⟨fun hmem => ?_, hnd⟩, fun buffer hb => ?_⟩
    · obtain ⟨buffer, hb, heq⟩ := mem_map.mp hmem
      exact hne buffer hb heq
    · rcases mem_cons.mp hb with rfl | hb
      · exact h.1
      · have hnone := hnew buffer hb
        rwa [Dict.get?_set_of_ne (hne buffer hb)] at hnone

end

theorem flatMap_fp8Groups {buckets others : List Bucket} {size : ℕ} (hne : buckets ≠ []) :
    (buckets.mapIdx fun i bucket => (⟨if i + 1 = buckets.length then bucket :: others else [bucket],
      size⟩ : BucketGroup)).flatMap (·.buckets) = buckets ++ others := by
  obtain ⟨first, last, rfl⟩ := (eq_nil_or_concat' buckets).resolve_left hne
  have hfirst : (first.mapIdx fun i bucket =>
      (⟨if i + 1 = (first ++ [last]).length then bucket :: others else [bucket], size⟩ :
        BucketGroup)) = first.map fun bucket => ⟨[bucket], size⟩ := by
    refine ext_getElem (by simp) fun i hi _ => ?_
    rw [getElem_mapIdx, getElem_map, if_neg]
    rw [length_mapIdx] at hi
    rw [length_append, length_singleton]
    omega
  rw [mapIdx_append, flatMap_append, hfirst, flatMap_map, flatMap_singleton',
    mapIdx_cons, mapIdx_nil, flatMap_singleton,
    if_pos (by rw [length_append, length_singleton, zero_add, add_comm]),
    append_assoc]
  rfl

theorem perm_key_filter {fp8Buffer : ParamAndGradBuffer}
    (hnd : (buffers.map (·.paramDtype)).Nodup) (hmem : fp8Buffer ∈ buffers)
    (hdtype : fp8Buffer.paramDtype = .uint8) :
    (fp8Buffer :: buffers.filter (·.paramDtype ≠ .uint8)).Perm buffers := by
  induction buffers with
  | nil => cases hmem
  | cons first rest ih =>
    rw [map_cons, nodup_cons] at hnd
    rcases mem_cons.mp hmem with rfl | hrest
    · have hall : rest.filter (·.paramDtype ≠ .uint8) = rest := by
        refine filter_eq_self.mpr fun buffer hb => decide_eq_true fun heq => ?_
        exact hnd.1 (mem_map.mpr ⟨buffer, hb, heq.trans hdtype.symm⟩)
      rw [filter_cons_of_neg (by simp [hdtype]), hall]
    · have hne : first.paramDtype ≠ .uint8 := fun heq =>
        hnd.1 (mem_map.mpr ⟨fp8Buffer, hrest, hdtype.trans heq.symm⟩)
      rw [filter_cons_of_pos (by simpa using hne)]
      exact (List.Perm.swap _ _ _).trans ((ih hnd.2 hrest).cons first)

section

variable {force : Bool} {groups : List BucketGroup}
  (h : partitionBuckets buffers force = .ok groups)
include h

theorem partitionBuckets_cases :
    (buffers.map (·.paramDtype)).Nodup ∧
      ((∃ buffer ∈ buffers,
          groups = [⟨buffers.flatMap (·.buckets), buffer.dataParallelWorldSize⟩]) ∨
        (groups = buffers.flatMap fun buffer =>
          buffer.buckets.map fun bucket => ⟨[bucket], buffer.dataParallelWorldSize⟩) ∨
        ∃ fp8Buffer ∈ buffers, ∃ buffer ∈ buffers, fp8Buffer.paramDtype = .uint8 ∧
          groups = fp8Buffer.buckets.mapIdx fun i bucket =>
            ⟨if i + 1 = fp8Buffer.buckets.length then
                bucket :: (buffers.filter (·.paramDtype ≠ .uint8)).flatMap (·.buckets)
              else [bucket], buffer.dataParallelWorldSize⟩) := by
  cases buffers with
  | nil =>
    cases h
    exact ⟨nodup_nil, .inr (.inl rfl)⟩
  | cons first rest =>
    rw [partitionBuckets, bind_eq_ok] at h
    obtain ⟨dtypes, hdtypes, h⟩ := h
    refine ⟨(nodup_dtypes hdtypes).1, ?_⟩
    split_ifs at h
    · obtain ⟨-, ⟨⟩⟩ := require_bind_eq_ok.mp h
      exact .inl ⟨first, mem_cons_self, rfl⟩
    · cases hfp8 : dtypes.get? .uint8 with
      | none =>
        rw [hfp8] at h
        cases h
        exact .inr (.inl rfl)
      | some fp8Buffer =>
        rw [hfp8] at h
        cases h
        rcases mem_of_get?_dtypeToBufferMap hdtypes hfp8 with hnone | ⟨hmem, hdtype⟩
        · rw [Dict.get?_empty] at hnone
          cases hnone
        · exact .inr (.inr ⟨fp8Buffer, hmem, _, getLast_mem _, hdtype, rfl⟩)

/-- In all three cases the groups hold the buckets of the buffers, each one once. -/
theorem partitionBuckets_perm (hne : ∀ buffer ∈ buffers, buffer.buckets ≠ []) :
    (groups.flatMap (·.buckets)).Perm (buffers.flatMap (·.buckets)) := by
  obtain ⟨hnd, ⟨_, -, rfl⟩ | rfl | ⟨fp8Buffer, hmem, _, -, hdtype, rfl⟩⟩ := partitionBuckets_cases h
  · rw [flatMap_singleton]
  · rw [flatMap_assoc]
    simp only [flatMap_map, flatMap_singleton']
    exact .refl _
  · have hperm := (perm_key_filter hnd hmem hdtype).flatMap_right (·.buckets)
    rwa [flatMap_cons, ← flatMap_fp8Groups (hne _ hmem)] at hperm

theorem partitionBuckets_spec {n : ℕ} (hsize : ∀ buffer ∈ buffers, buffer.dataParallelWorldSize = n)
    (hne : ∀ buffer ∈ buffers, buffer.buckets ≠ []) :
    (∀ group ∈ groups, group.groupSize = n) ∧
      ∀ b, (∃ group ∈ groups, b ∈ group.buckets) ↔ ∃ buffer ∈ buffers, b ∈ buffer.buckets := by
  refine ⟨fun group hg => ?_, fun b => ?_⟩
  · obtain ⟨-, ⟨buffer, hb, rfl⟩ | rfl | ⟨_, -, buffer, hb, -, rfl⟩⟩ := partitionBuckets_cases h
    · rw [mem_singleton.mp hg]
      exact hsize buffer hb
    · obtain ⟨buffer, hb, hg⟩ := mem_flatMap.mp hg
      obtain ⟨_, -, rfl⟩ := mem_map.mp hg
      exact hsize buffer hb
    · obtain ⟨_, _, rfl⟩ := mem_mapIdx.mp hg
      exact hsize buffer hb
  · simpa only [mem_flatMap] using (partitionBuckets_perm h hne).mem_iff (a := b)

end

/-! ## The buckets of a kind of parameters -/

section Allocation

variable {cfg : DdpConfig} {w : World} {g : Groups} {kind : ParamKind} {params : List Param}
  {groups : List BucketGroup} {chunk : ModelChunk} {ddp : DistributedDataParallel}

theorem get?_paramAndGradDtypeToParams (dtypes : Dtype × Dtype) {ps : List Param} :
    (paramAndGradDtypeToParams cfg params).get? dtypes = some ps ↔
      ps ≠ [] ∧ params.filter (paramAndGradDtype cfg · = dtypes) = ps := by
  induction params using List.reverseRecOn generalizing ps with
  | nil => simp [paramAndGradDtypeToParams]
  | append_singleton params p ih =>
    rw [paramAndGradDtypeToParams, foldl_append, foldl_cons, foldl_nil,
      ← paramAndGradDtypeToParams, filter_append, filter_singleton, Dict.get?_set]
    split_ifs with hd
    · subst hd
      have hget : ((paramAndGradDtypeToParams cfg params).get? (paramAndGradDtype cfg p)).getD [] =
          params.filter (paramAndGradDtype cfg · = paramAndGradDtype cfg p) := by
        cases hg : (paramAndGradDtypeToParams cfg params).get? (paramAndGradDtype cfg p) with
        | none =>
          by_contra hne
          have := ih.mpr ⟨Ne.symm hne, rfl⟩
          rw [hg] at this
          cases this
        | some ps => exact (ih.mp hg).2.symm
      rw [hget, Option.some.injEq, decide_eq_true rfl, cond_true]
      exact ⟨fun h => ⟨h ▸ append_ne_nil_of_right_ne_nil _ (cons_ne_nil p []), h⟩,
        And.right⟩
    · rw [decide_eq_false (Ne.symm hd), cond_false, append_nil]
      exact ih

/-- The groups hold `params`, with one bucket at most for a pair of types and an id. -/
structure Allocated (cfg : DdpConfig) (params : List Param) (size : ℕ) (groups : List BucketGroup) :
    Prop where
  size_eq : ∀ group ∈ groups, group.groupSize = size
  nonempty : ∀ group ∈ groups, ∀ b ∈ group.buckets, b.params ≠ []
  mem : ∀ group ∈ groups, ∀ b ∈ group.buckets, ∀ p ∈ b.params, p ∈ params
  first : ∀ p ∈ params, ∃ group ∈ groups, ∃ b ∈ group.buckets, b.bucketId = 0 ∧
    ∀ q ∈ b.params, paramAndGradDtype cfg q = paramAndGradDtype cfg p
  unique : ∀ group ∈ groups, ∀ b ∈ group.buckets, ∀ group' ∈ groups, ∀ b' ∈ group'.buckets,
    ∀ p ∈ b.params, ∀ p' ∈ b'.params, paramAndGradDtype cfg p = paramAndGradDtype cfg p' →
    b.bucketId = b'.bucketId → b = b'

theorem ParamAndGradBuffer.Valid.mem_params (h : buffer.Valid) {b : Bucket}
    (hb : b ∈ buffer.buckets) (hp : p ∈ b.params) : p ∈ buffer.params := by
  rw [← mem_reverse, ← h.params]
  exact mem_flatMap.mpr ⟨b, hb, hp⟩

theorem ParamAndGradBuffer.Valid.exists_first (h : buffer.Valid) (hne : buffer.params ≠ []) :
    ∃ b ∈ buffer.buckets, b.bucketId = 0 := by
  have hlen : 0 < buffer.buckets.length := by
    rw [length_pos_iff]
    intro hnil
    have := h.params
    rw [hnil] at this
    exact hne (reverse_eq_nil_iff.mp this.symm)
  have hmem : 0 ∈ buffer.buckets.map (·.bucketId) := h.ids ▸ mem_range.mpr hlen
  exact mem_map.mp hmem

/-- The buffer of the parameters of two types. -/
structure BufferOf (cfg : DdpConfig) (params : List Param) (size : ℕ) (dtypes : Dtype × Dtype)
    (buffer : ParamAndGradBuffer) : Prop where
  size_eq : buffer.dataParallelWorldSize = size
  valid : buffer.Valid
  first : ∃ b ∈ buffer.buckets, b.bucketId = 0
  mem : ∀ b ∈ buffer.buckets, ∀ p ∈ b.params, p ∈ params ∧ paramAndGradDtype cfg p = dtypes

theorem exists_bufferOf (hnd : params.Nodup) (cfg : DdpConfig) (dtypes : Dtype × Dtype)
    (hne : params.filter (paramAndGradDtype cfg · = dtypes) ≠ []) {size : ℕ} (hsize : 0 < size)
    (bucketSize : Option ℕ) (factor : ℚ) :
    ∃ buffer, ParamAndGradBuffer.init cfg dtypes.1 dtypes.2
        (params.filter (paramAndGradDtype cfg · = dtypes)) size bucketSize factor = .ok buffer ∧
      BufferOf cfg params size dtypes buffer := by
  obtain ⟨buffer, hinit, hparams, -, hsize, hvalid, -⟩ := ParamAndGradBuffer.init_eq_ok cfg
    dtypes.1 dtypes.2 hne (hnd.filter _) hsize bucketSize factor
  refine ⟨buffer, hinit, hsize, hvalid, hvalid.exists_first (hparams ▸ hne), fun b hb p hp => ?_⟩
  obtain ⟨hp, hd⟩ := mem_filter.mp (hparams ▸ hvalid.mem_params hb hp)
  exact ⟨hp, of_decide_eq_true hd⟩

theorem allocated_of_ok (hnd : params.Nodup) {bucketSize : Option ℕ} {disableBucketing : Bool}
    (h : allocateBuffersForParameters cfg g bucketSize disableBucketing kind params =
      .ok (buffers, groups)) :
    Allocated cfg params (g.group kind).card groups := by
  unfold allocateBuffersForParameters at h
  rw [require_bind_eq_ok, require_bind_eq_ok, bind_eq_ok] at h
  obtain ⟨-, -, buffers', hbuffers, h⟩ := h
  obtain ⟨groups', hgroups, ⟨⟩⟩ := bind_eq_ok.mp h
  have hnew := fun dtypes hne => exists_bufferOf hnd cfg dtypes hne
    (g.group_nonempty kind).card_pos bucketSize (gradientScalingFactor cfg g kind)
  -- a buffer is known by the types of its parameters
  have hbuffer : ∀ {buffer}, buffer ∈ buffers → ∃ dtypes,
      ParamAndGradBuffer.init cfg dtypes.1 dtypes.2
        (params.filter (paramAndGradDtype cfg · = dtypes)) (g.group kind).card bucketSize
        (gradientScalingFactor cfg g kind) = .ok buffer ∧
      BufferOf cfg params (g.group kind).card dtypes buffer := by
    intro buffer hb
    obtain ⟨⟨dtypes, ps⟩, he, hinit⟩ := (mem_of_mapM hbuffers).mp hb
    obtain ⟨hne, rfl⟩ := (get?_paramAndGradDtypeToParams dtypes).mp (Dict.mem_entries_iff.mp he)
    obtain ⟨buffer', hinit', hof⟩ := hnew dtypes hne
    obtain rfl := Except.ok.inj (hinit.symm.trans hinit')
    exact ⟨dtypes, hinit, hof⟩
  obtain ⟨hsize, hbuckets⟩ := partitionBuckets_spec hgroups
    (fun buffer hb => (hbuffer hb).elim fun _ hof => hof.2.size_eq)
    (fun buffer hb => by
      obtain ⟨dtypes, -, hof⟩ := hbuffer hb
      obtain ⟨b, hb, -⟩ := hof.first
      exact ne_nil_of_mem hb)
  have hbucket := fun {group b} (hgroup : group ∈ groups) (hb : b ∈ group.buckets) =>
    ((hbuckets b).mp ⟨group, hgroup, hb⟩).imp fun _ h => And.intro h.2 (hbuffer h.1)
  refine ⟨hsize, ?_, ?_, ?_, ?_⟩
  · intro group hgroup b hb
    obtain ⟨buffer, hb, dtypes, -, hof⟩ := hbucket hgroup hb
    exact hof.valid.nonempty b hb
  · intro group hgroup b hb p hp
    obtain ⟨buffer, hb, dtypes, -, hof⟩ := hbucket hgroup hb
    exact (hof.mem b hb p hp).1
  · intro p hp
    have hne : params.filter (paramAndGradDtype cfg · = paramAndGradDtype cfg p) ≠ [] :=
      ne_nil_of_mem (mem_filter.mpr ⟨hp, decide_eq_true rfl⟩)
    obtain ⟨buffer, hinit, hof⟩ := hnew _ hne
    have hps := Dict.mem_entries_iff.mpr ((get?_paramAndGradDtypeToParams _).mpr ⟨hne, rfl⟩)
    obtain ⟨b, hb, hid⟩ := hof.first
    obtain ⟨group, hgroup, hbg⟩ := (hbuckets b).mpr
      ⟨buffer, (mem_of_mapM hbuffers).mpr ⟨_, hps, hinit⟩, hb⟩
    exact ⟨group, hgroup, b, hbg, hid, fun q hq => (hof.mem b hb q hq).2⟩
  · intro group hgroup b hb group' hgroup' b' hb' p hp p' hp' hdt hid
    obtain ⟨buffer, hb, dtypes, hinit, hof⟩ := hbucket hgroup hb
    obtain ⟨buffer', hb', dtypes', hinit', hof'⟩ := hbucket hgroup' hb'
    obtain rfl : dtypes = dtypes' :=
      (hof.mem b hb p hp).2.symm.trans (hdt.trans (hof'.mem b' hb' p' hp').2)
    obtain rfl := Except.ok.inj (hinit.symm.trans hinit')
    exact inj_on_of_nodup_map (hof.valid.ids ▸ nodup_range) hb hb' hid

theorem DistributedDataParallel.allocated (hnd : chunk.params.Nodup)
    (h : init cfg w g dpWorldSize ppRank chunk = .ok ddp) (kind : ParamKind) :
    Allocated cfg (chunk.paramsOf kind) (g.group kind).card (ddp.groupsOf kind) := by
  unfold init at h
  rw [require_bind_eq_ok, require_bind_eq_ok, bind_eq_ok] at h
  obtain ⟨-, -, ⟨buffers, groups⟩, hdense, h⟩ := h
  obtain ⟨⟨buffers', groups'⟩, hexpert, ⟨⟩⟩ := bind_eq_ok.mp h
  cases kind with
  | dense => exact allocated_of_ok (hnd.filter _) hdense
  | expert => exact allocated_of_ok (hnd.filter _) hexpert

end Allocation


/-! ## Names of pushed buckets -/

section Names

variable {cfg : DdpConfig} {w : World} {g : Groups} {c : Coords} {d d' : Dict String ℕ} {n : ℕ}
  {name : String} {b b' : Bucket} {groups : List BucketGroup} {chunks : List ModelChunk}
  {ddps : List DistributedDataParallel}

theorem logicalName_inj : logicalName b = logicalName b' ↔ b.bucketId = b'.bucketId := by
  unfold logicalName
  rw [String.append_right_inj, Decimal.toString_inj]

theorem logicalName_ne_empty (b : Bucket) : logicalName b ≠ "" := by
  intro h
  have hlist := congrArg String.toList h
  simp [logicalName] at hlist

theorem declareGroupAndGetName_spec
    (h : declareGroupAndGetName c.getters d (some n) .dp (logicalName b) = .ok (name, d')) :
    buildBytepsGroupName c.getters .dp (logicalName b) = .ok name ∧ d'.get? name = some n ∧
      ∀ k v, d.get? k = some v → d'.get? k = some v := by
  unfold declareGroupAndGetName at h
  obtain ⟨name', hname, h⟩ := bind_eq_ok.mp h
  obtain ⟨d'', hd, ⟨⟩⟩ := bind_eq_ok.mp h
  refine ⟨hname, ?_⟩
  unfold declareAndCacheBytepsGroup at hd
  cases hget : d.get? name with
  | none =>
    rw [hget] at hd
    cases hd
    refine ⟨Dict.get?_set_self, fun k v hk => ?_⟩
    rw [Dict.get?_set_of_ne, hk]
    rintro rfl
    rw [hget] at hk
    cases hk
  | some cached =>
    rw [hget] at hd
    rw [require_bind_eq_ok] at hd
    obtain ⟨rfl, ⟨⟩⟩ := hd
    exact ⟨hget, fun _ _ hk => hk⟩

/-- Every pushed bucket belongs to a group, and its name is declared for that group. -/
def Declared (c : Coords) (groups : List BucketGroup) (s : SyncState) : Prop :=
  ∀ x ∈ s.pushed, ∃ group ∈ groups, x.1 ∈ group.buckets ∧
    buildBytepsGroupName c.getters .dp (logicalName x.1) = .ok x.2 ∧
    s.declared.get? x.2 = some group.groupSize

variable {group : BucketGroup} {s : SyncState}

theorem Declared.bytepsAllreduceBuckets (hgroup : group ∈ groups) (buckets : List Bucket)
    (hsub : ∀ b ∈ buckets, b ∈ group.buckets) (h : Declared c groups s) :
    Declared c groups (bytepsAllreduceBuckets c group.groupSize buckets s) := by
  induction buckets generalizing s with
  | nil => exact h
  | cons b buckets ih =>
    unfold Ddp.bytepsAllreduceBuckets
    cases hd : declareGroupAndGetName c.getters s.declared (some group.groupSize)
      .dp (logicalName b) with
    | error e => exact h
    | ok r =>
      obtain ⟨name, d'⟩ := r
      obtain ⟨hname, hself, hkeep⟩ := declareGroupAndGetName_spec hd
      apply ih fun b hb => hsub b (mem_cons_of_mem _ hb)
      intro x hx
      rcases mem_append.mp hx with hx | hx
      · obtain ⟨group', hgroup', hb, hn, hget⟩ := h x hx
        exact ⟨group', hgroup', hb, hn, hkeep _ _ hget⟩
      · rw [mem_singleton.mp hx]
        exact ⟨group, hgroup, hsub b mem_cons_self, hname, hself⟩

theorem declared_of_reach (hs : Reach (gradSyncs cfg c groups) Free s) : Declared c groups s := by
  refine hs.invariant ?_ ?_
  · rintro s rfl
    exact nofun
  · intro s i t h _ ht
    unfold gradSyncs at ht
    dsimp only at ht
    split_ifs at ht
    obtain ⟨group, hgroup, rfl⟩ := Option.map_eq_some_iff.mp ht
    unfold BucketGroup.startGradSync
    split_ifs
    · exact h.bytepsAllreduceBuckets (mem_of_getElem? hgroup) _ fun _ hb => hb
    · exact h

theorem bytepsAllreduceBuckets_of_size (buckets : List Bucket) (hraised : s.raised = none)
    (hd : ∀ k v, s.declared.get? k = some v → v = n) :
    (bytepsAllreduceBuckets c n buckets s).raised = none ∧
      (∀ k v, (bytepsAllreduceBuckets c n buckets s).declared.get? k = some v → v = n) ∧
      (∀ x ∈ s.pushed, x ∈ (bytepsAllreduceBuckets c n buckets s).pushed) ∧
      ∀ b ∈ buckets, ∃ name, (b, name) ∈ (bytepsAllreduceBuckets c n buckets s).pushed := by
  induction buckets generalizing s with
  | nil => exact ⟨hraised, hd, fun _ hx => hx, nofun⟩
  | cons b buckets ih =>
    obtain ⟨name, hname⟩ : ∃ name, buildBytepsGroupName c.getters .dp (logicalName b) = .ok name :=
      ⟨_, dp_name_eq_ok_iff.mpr ⟨logicalName_ne_empty b, _, rfl, _, rfl, rfl⟩⟩
    obtain ⟨d', hcache, hd'⟩ : ∃ d', declareAndCacheBytepsGroup s.declared name n = .ok d' ∧
        ∀ k v, d'.get? k = some v → v = n := by
      unfold declareAndCacheBytepsGroup
      cases hget : s.declared.get? name with
      | none =>
        refine ⟨_, rfl, fun k v hk => ?_⟩
        rw [Dict.get?_set] at hk
        split_ifs at hk
        · exact (some.inj hk).symm
        · exact hd k v hk
      | some cached =>
        dsimp only
        rw [require_bind (hd _ _ hget)]
        exact ⟨_, rfl, hd⟩
    have hdeclare : declareGroupAndGetName c.getters s.declared (some n) .dp (logicalName b) =
        .ok (name, d') := by
      unfold declareGroupAndGetName
      exact bind_eq_ok.mpr ⟨name, hname, bind_eq_ok.mpr ⟨d', hcache, rfl⟩⟩
    unfold bytepsAllreduceBuckets
    rw [hdeclare]
    obtain ⟨h₁, h₂, h₃, h₄⟩ := ih (s := { s with
      declared := d', pushed := s.pushed ++ [(b, name)] }) hraised hd'
    refine ⟨h₁, h₂, fun x hx => h₃ x (mem_append_left _ hx), fun b' hb' => ?_⟩
    rcases mem_cons.mp hb' with rfl | hb'
    · exact ⟨name, h₃ _ (mem_append_right _ (mem_singleton_self _))⟩
    · exact h₄ b' hb'

theorem step_gradSyncs (hbyteps : cfg.useDistributedOptimizer = false ∧ cfg.useDpuReduce = true)
    {i : ℕ} (hi : groups[i]? = some group) (hn : group.groupSize = n) (hraised : s.raised = none) :
    (gradSyncs cfg c groups).step s i =
      some (bytepsAllreduceBuckets c n group.buckets s) := by
  unfold gradSyncs
  dsimp only
  rw [if_neg (by simp [hraised]), hi, map_some, BucketGroup.startGradSync, if_pos hbyteps,
    hn]

theorem exists_reach_pair
    (hbyteps : cfg.useDistributedOptimizer = false ∧ cfg.useDpuReduce = true)
    {group' : BucketGroup} (hgroup : group ∈ groups) (hgroup' : group' ∈ groups)
    (hsize : group.groupSize = group'.groupSize) (hb : b ∈ group.buckets)
    (hb' : b' ∈ group'.buckets) :
    ∃ s, Reach (gradSyncs cfg c groups) Free s ∧ (∃ name, (b, name) ∈ s.pushed) ∧
      ∃ name, (b', name) ∈ s.pushed := by
  obtain ⟨i, hi⟩ := mem_iff_getElem?.mp hgroup
  obtain ⟨j, hj⟩ := mem_iff_getElem?.mp hgroup'
  obtain ⟨hraised, hdeclared, -, hpushed⟩ := bytepsAllreduceBuckets_of_size (c := c)
    (n := group.groupSize) group.buckets (s := {}) rfl (by simp)
  obtain ⟨-, -, hkeep, hpushed'⟩ := bytepsAllreduceBuckets_of_size (c := c) group'.buckets hraised
    hdeclared
  obtain ⟨name, hname⟩ := hpushed b hb
  exact ⟨_, ((Reach.init rfl).step trivial (step_gradSyncs hbyteps hi rfl rfl)).step trivial
    (step_gradSyncs hbyteps hj hsize.symm hraised), ⟨name, hkeep _ hname⟩, hpushed' b' hb'⟩

/-! ## One buffer for each size of group -/

theorem mem_rankBucketGroups : group ∈ rankBucketGroups ddps ↔
      ∃ (i : ℕ) (ddp : DistributedDataParallel) (kind : ParamKind),
        ddps[i]? = some ddp ∧ group ∈ ddp.groupsOf kind := by
  unfold rankBucketGroups
  rw [mem_flatMap]
  constructor
  · rintro ⟨ddp, hddp, hgroup⟩
    obtain ⟨i, hi⟩ := mem_iff_getElem?.mp hddp
    rcases mem_append.mp hgroup with h | h
    · exact ⟨i, ddp, .dense, hi, h⟩
    · exact ⟨i, ddp, .expert, hi, h⟩
  · rintro ⟨i, ddp, kind, hi, h⟩
    refine ⟨ddp, mem_of_getElem? hi, mem_append.mpr ?_⟩
    cases kind with
    | dense => exact .inl h
    | expert => exact .inr h

theorem mem_paramsOf {chunk : ModelChunk} {kind : ParamKind} (h : p ∈ chunk.paramsOf kind) :
    p ∈ chunk.params ∧ paramKind p = kind := by
  obtain ⟨hp, hk⟩ := mem_filter.mp h
  rw [Bool.and_eq_true, decide_eq_true_eq] at hk
  exact ⟨hp, hk.2⟩

theorem index_unique {α β : Type} {f : α → List β} {l : List α} (hnd : (l.flatMap f).Nodup)
    {i j : ℕ} {a a' : α} (hi : l[i]? = some a) (hj : l[j]? = some a') {x : β} (hx : x ∈ f a)
    (hx' : x ∈ f a') : i = j := by
  have hpair := (nodup_flatMap.mp hnd).2
  rw [pairwise_iff_getElem] at hpair
  obtain ⟨hi', rfl⟩ := List.getElem?_eq_some_iff.mp hi
  obtain ⟨hj', rfl⟩ := List.getElem?_eq_some_iff.mp hj
  rcases lt_trichotomy i j with hij | hij | hij
  · exact absurd hx' (hpair i j hi' hj' hij hx)
  · exact hij
  · exact absurd hx (hpair j i hj' hi' hij hx')

theorem exists_ddp
    (hddps : chunks.mapM (DistributedDataParallel.init cfg w g dpWorldSize ppRank) = .ok ddps)
    {i : ℕ} {chunk : ModelChunk} (hi : chunks[i]? = some chunk) : ∃ ddp, ddps[i]? = some ddp := by
  have hlen := (mapM_eq_ok_iff.mp hddps).length_eq
  obtain ⟨hlt, -⟩ := List.getElem?_eq_some_iff.mp hi
  exact ⟨_, getElem?_eq_getElem (hlen ▸ hlt)⟩

/-- Trained parameters that are reduced by equally many processes share one buffer: they are in the
same chunk, of the same kind and of the same types. -/
def OneBuffer (cfg : DdpConfig) (g : Groups) (chunks : List ModelChunk) : Prop :=
  ∀ (i j : ℕ) (chunk chunk' : ModelChunk), chunks[i]? = some chunk → chunks[j]? = some chunk' →
    ∀ kind kind', ∀ p ∈ chunk.paramsOf kind, ∀ q ∈ chunk'.paramsOf kind',
      (g.group kind).card = (g.group kind').card →
      i = j ∧ kind = kind' ∧ paramAndGradDtype cfg p = paramAndGradDtype cfg q

end Names

/-- A model of two parameters, in one chunk or in two as of the interleaved pipeline schedule. -/
def oneChunk : List ModelChunk := [{ params := [{ id := 0, numel := 5 }, { id := 1, numel := 6 }] }]

/-- Two chunks, the second in one bucket. -/
def twoChunks : List ModelChunk :=
  [{ params := [{ id := 0, numel := 5 }] },
    { params := [{ id := 1, numel := 6 }], disableBucketing := true }]

theorem oneBuffer_oneChunk (cfg : DdpConfig) (g : Groups) : OneBuffer cfg g oneChunk := by
  intro i j chunk chunk' hi hj kind kind' p hp q hq _
  unfold oneChunk at hi hj
  rw [getElem?_singleton] at hi hj
  split_ifs at hi hj with hi0 hj0
  obtain rfl := some.inj hi
  obtain rfl := some.inj hj
  obtain ⟨hp', rfl⟩ := mem_paramsOf hp
  obtain ⟨hq', rfl⟩ := mem_paramsOf hq
  refine ⟨hi0.trans hj0.symm, ?_⟩
  rcases mem_pair.mp hp' with rfl | rfl <;> rcases mem_pair.mp hq' with rfl | rfl <;>
    exact ⟨rfl, rfl⟩

end MegatronDPU.Ddp
