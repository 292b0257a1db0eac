import MegatronDPU.Ddp.Handles

/-!
# Bucket groups and the gradients of an iteration

`partition_buckets` regroups the buckets of the buffers of a model. The groups hold every bucket
once (`partitionBuckets_perm`), so every parameter has one group, and the hook of a parameter
registers its gradient there. During the last microbatch the gradients arrive in any order; the one
that completes its group starts the reduction (`Registered.step`).
-/

namespace MegatronDPU.Ddp

open Raise Lts List Option

/-! ## What `partition_buckets` is given -/

/-- Each buffer is what the constructor made of some parameters. -/
def Built (cfg : DdpConfig) (buffers : List ParamAndGradBuffer) : Prop :=
  ∀ buffer ∈ buffers, ∃ (gradDtype : Dtype) (params : List Param) (dpSize : ℕ)
    (bucketSize : Option ℕ) (factor : ℚ), 0 < dpSize ∧
      ParamAndGradBuffer.init cfg buffer.paramDtype gradDtype params dpSize bucketSize factor =
        .ok buffer ∧
      ∀ p ∈ params, (paramAndGradDtype cfg p).1 = buffer.paramDtype

section Partition

variable {cfg : DdpConfig} {buffers : List ParamAndGradBuffer} {force : Bool}
  {groups : List BucketGroup} {buffer : ParamAndGradBuffer}

theorem Built.valid (h : Built cfg buffers) (hmem : buffer ∈ buffers) :
    buffer.Valid ∧ buffer.params.Nodup ∧ buffer.params ≠ [] ∧
      ∀ p ∈ buffer.params, (paramAndGradDtype cfg p).1 = buffer.paramDtype := by
  obtain ⟨gradDtype, params, dpSize, bucketSize, factor, hdp, hinit, hdtype⟩ := h buffer hmem
  obtain ⟨hv, -, hnd⟩ := ParamAndGradBuffer.init_params hdp hinit
  have hne : params ≠ [] := by
    rintro rfl
    cases hinit
  obtain ⟨buf, hbuf, hparams, -⟩ := ParamAndGradBuffer.init_eq_ok cfg buffer.paramDtype gradDtype hne
    (require_bind_eq_ok.mp hinit).1 hdp bucketSize factor
  obtain rfl := Except.ok.inj (hinit.symm.trans hbuf)
  exact ⟨hv, hnd, hparams ▸ hne, hparams ▸ hdtype⟩

theorem ParamAndGradBuffer.Valid.buckets_ne_nil (hv : buffer.Valid) (hne : buffer.params ≠ []) :
    buffer.buckets ≠ [] := by
  intro hnil
  have hall := hv.params
  rw [hnil] at hall
  exact hne (reverse_eq_nil_iff.mp hall.symm)

theorem partitionBuckets_ne_nil (h : partitionBuckets buffers force = .ok groups)
    (hne : ∀ buffer ∈ buffers, buffer.buckets ≠ []) : ∀ group ∈ groups, group.buckets ≠ [] := by
  intro group hg
  obtain ⟨-, ⟨buffer, hb, rfl⟩ | rfl | ⟨_, -, _, -, -, rfl⟩⟩ := partitionBuckets_cases h
  · obtain ⟨b, hmem⟩ := exists_mem_of_ne_nil _ (hne buffer hb)
    rw [mem_singleton.mp hg]
    exact ne_nil_of_mem (mem_flatMap.mpr ⟨buffer, hb, hmem⟩)
  · obtain ⟨buffer, -, hg⟩ := mem_flatMap.mp hg
    obtain ⟨b, -, rfl⟩ := mem_map.mp hg
    exact cons_ne_nil b []
  · obtain ⟨i, hi, rfl⟩ := mem_mapIdx.mp hg
    split_ifs <;> exact cons_ne_nil _ _

theorem Built.nodup_params (h : Built cfg buffers) (hnd : (buffers.map (·.paramDtype)).Nodup) :
    (buffers.flatMap (·.params)).Nodup := by
  refine nodup_flatMap.mpr ⟨fun buffer hb => (h.valid hb).2.1, ?_⟩
  refine (pairwise_map.mp hnd).imp_of_mem fun {a b} ha hb hne p hp hp' => hne ?_
  rw [← (h.valid ha).2.2.2 p hp, ← (h.valid hb).2.2.2 p hp']

theorem Built.perm_params (h : Built cfg buffers) :
    ((buffers.flatMap (·.buckets)).flatMap (·.params)).Perm (buffers.flatMap (·.params)) := by
  rw [flatMap_assoc]
  refine List.Perm.flatMap_left buffers fun buffer hb => ?_
  rw [(h.valid hb).1.params]
  exact reverse_perm _

end Partition

/-! ## Entries of a list of lists without repetition -/

section Once

variable {α β : Type} {f : α → List β} {l : List α}

theorem existsUnique_of_nodup_flatMap (hnd : (l.flatMap f).Nodup) {b : β} (hb : b ∈ l.flatMap f) :
    ∃! i : ℕ, ∃ a, l[i]? = some a ∧ b ∈ f a := by
  obtain ⟨a, ha, hba⟩ := mem_flatMap.mp hb
  obtain ⟨i, hi⟩ := mem_iff_getElem?.mp ha
  refine ⟨i, ⟨a, hi, hba⟩, ?_⟩
  rintro j ⟨a', hj, hba'⟩
  exact index_unique hnd hj hi hba' hba

theorem nodup_of_nodup_flatMap (hnd : (l.flatMap f).Nodup) (hne : ∀ a ∈ l, f a ≠ []) : l.Nodup := by
  refine (nodup_flatMap.mp hnd).2.imp_of_mem fun {a b} ha _ hdisj heq => ?_
  obtain ⟨x, hx⟩ := exists_mem_of_ne_nil _ (hne a ha)
  exact hdisj hx (heq ▸ hx)

end Once

/-! ## An iteration -/

namespace Handles

variable (cfg : Config) (groups : List BucketGroup)

/-- `param_to_bucket_group`: the number of the group of a parameter. -/
def paramToBucketGroup : Dict Param ℕ :=
  Dict.ofList (groups.zipIdx.flatMap fun (group, i) =>
    (group.buckets.flatMap (·.params)).map fun p => (p, i))

/-- The hook of a parameter, on the states of all bucket groups. -/
def gradReady (states : List State) (p : Param) : Except PyError (List State) :=
  match (paramToBucketGroup groups).get? p with
  | none => .ok states
  | some i =>
    match groups[i]?, states[i]? with
    | some group, some s => do
      let t ← registerGradReady cfg group p s
      return states.set i t
    | _, _ => .error .indexError

/-- The groups at the start of the last microbatch: each one in a state that training reaches, with
no gradient registered. -/
def Fresh (states : List State) : Prop :=
  states.length = groups.length ∧ ∀ (i : ℕ) group s, groups[i]? = some group → states[i]? = some s →
    Reach (training cfg group) Free s ∧ s.paramsWithGrad = ∅ ∧ s.isLastMicrobatch = true

variable {cfg : Config} {groups : List BucketGroup} {group : BucketGroup} {s : State} {p : Param}
  {seen : List Param} {start states : List State}

/-- A new gradient of the last microbatch is registered, and `start_grad_sync` is called if there
are now as many gradients as parameters. -/
theorem registerGradReady_spec
    (hcfg : 1 < cfg.numDistributedOptimizerInstances → cfg.useDistributedOptimizer = true)
    (hi : Inv cfg group s) (hlap : cfg.overlapGradReduce = true)
    (hlast : s.isLastMicrobatch = true) (hp : p ∈ params group) (hnew : p ∉ s.paramsWithGrad) :
    ∃ t, registerGradReady cfg group p s = .ok t ∧ Inv cfg group t ∧
      t.isLastMicrobatch = true ∧ t.paramsWithGrad = insert p s.paramsWithGrad ∧
      t.startCalls = s.startCalls +
        if (insert p s.paramsWithGrad).card = (params group).card then 1 else 0 := by
  have heq : registerGradReady cfg group p s =
      if (insert p s.paramsWithGrad).card = (params group).card then
        startGradSync cfg group { s with paramsWithGrad := insert p s.paramsWithGrad }
      else .ok { s with paramsWithGrad := insert p s.paramsWithGrad } := by
    unfold registerGradReady
    rw [require_bind hlap, if_pos hlast, require_bind hp, require_bind hnew]
    rfl
  split_ifs at heq with hcard
  · obtain ⟨t, ht, -, -, hparams, hmicro, hcalls⟩ := start_spec group
      (hi.books.update _ _ (insert p s.paramsWithGrad) _) hcfg (hi.handle_none hp hnew)
    have hreg := heq.trans ht
    rw [if_pos hcard]
    exact ⟨t, hreg, hi.register hcfg hreg, hmicro.trans hlast, hparams, hcalls⟩
  · rw [if_neg hcard]
    exact ⟨_, heq, hi.register hcfg heq, hlast, rfl, rfl⟩

/-- No parameter is in two groups. -/
def Separate (groups : List BucketGroup) : Prop :=
  (groups.flatMap fun group => group.buckets.flatMap (·.params)).Nodup

theorem mem_params : p ∈ params group ↔ p ∈ group.buckets.flatMap (·.params) := mem_toFinset

theorem get?_paramToBucketGroup (hsep : Separate groups) {i : ℕ} (hi : groups[i]? = some group)
    (hp : p ∈ params group) : (paramToBucketGroup groups).get? p = some i := by
  have hmem : (p, i) ∈ groups.zipIdx.flatMap fun (group, i) =>
      (group.buckets.flatMap (·.params)).map fun p => (p, i) :=
    mem_flatMap.mpr ⟨(group, i), mem_zipIdx_iff_getElem?.mpr hi,
      mem_map_of_mem (mem_params.mp hp)⟩
  obtain ⟨j, hj⟩ := Dict.exists_get?_ofList hmem
  obtain ⟨⟨group', j'⟩, hgroup', hpj⟩ := mem_flatMap.mp (Dict.mem_of_get?_ofList hj)
  obtain ⟨q, hq, heq⟩ := mem_map.mp hpj
  obtain ⟨rfl, rfl⟩ := Prod.mk.inj heq
  have huniq := existsUnique_of_nodup_flatMap hsep
    (mem_flatMap.mpr ⟨group, mem_of_getElem? hi, mem_params.mp hp⟩)
  rw [paramToBucketGroup, hj]
  exact congrArg some (huniq.unique ⟨group', mem_zipIdx_iff_getElem?.mp hgroup', hq⟩
    ⟨group, hi, mem_params.mp hp⟩)

/-- The groups after the gradients `seen` have arrived: each one has its own of them, and
`start_grad_sync` was called once more than at the start if these are all, and else not. -/
def Registered (cfg : Config) (groups : List BucketGroup) (start : List State) (seen : List Param)
    (states : List State) : Prop :=
  ∀ (i : ℕ) group, groups[i]? = some group → ∃ s₀ s, start[i]? = some s₀ ∧ states[i]? = some s ∧
    Inv cfg group s ∧ s.isLastMicrobatch = true ∧
    (∀ q, q ∈ s.paramsWithGrad ↔ q ∈ params group ∧ q ∈ seen) ∧
    s.startCalls = s₀.startCalls + if ∀ q ∈ params group, q ∈ seen then 1 else 0

theorem card_insert_eq_iff (hp : p ∈ params group)
    (hmem : ∀ q, q ∈ s.paramsWithGrad ↔ q ∈ params group ∧ q ∈ seen) :
    (insert p s.paramsWithGrad).card = (params group).card ↔
      ∀ q ∈ params group, q ∈ seen ++ [p] := by
  have hsub : insert p s.paramsWithGrad ⊆ params group :=
    Finset.insert_subset hp fun q hq => ((hmem q).mp hq).1
  constructor
  · intro hcard q hq
    rw [← Finset.eq_of_subset_of_card_le hsub hcard.ge, Finset.mem_insert, hmem] at hq
    rw [mem_append, mem_singleton]
    exact hq.symm.imp_left And.right
  · intro hall
    refine congrArg Finset.card (hsub.antisymm fun q hq => ?_)
    rw [Finset.mem_insert, hmem]
    have hq' := hall q hq
    rw [mem_append, mem_singleton] at hq'
    exact hq'.symm.imp_right fun h => ⟨hq, h⟩

/-- A gradient that arrives is registered in its own group, and completes it if it is the last. -/
theorem Registered.step
    (hcfg : 1 < cfg.numDistributedOptimizerInstances → cfg.useDistributedOptimizer = true)
    (hlap : cfg.overlapGradReduce = true) (hsep : Separate groups)
    (h : Registered cfg groups start seen states) {i : ℕ} (hi : groups[i]? = some group)
    (hp : p ∈ params group) (hnew : p ∉ seen) :
    ∃ states', gradReady cfg groups states p = .ok states' ∧
      Registered cfg groups start (seen ++ [p]) states' := by
  obtain ⟨s₀, s, hs₀, hs, hinv, hlast, hmem, hcalls⟩ := h i group hi
  obtain ⟨t, ht, hinv', hlast', hparams, hcalls'⟩ := registerGradReady_spec hcfg hinv hlap hlast hp
    fun hq => hnew ((hmem p).mp hq).2
  -- the other groups do not have the parameter
  have hother : ∀ j group', groups[j]? = some group' → j ≠ i →
      ∀ q ∈ params group', (q ∈ seen ++ [p] ↔ q ∈ seen) := by
    intro j group' hj hne q hq
    have hqp : q ≠ p := by
      rintro rfl
      exact hne ((existsUnique_of_nodup_flatMap hsep
        (mem_flatMap.mpr ⟨group, mem_of_getElem? hi, mem_params.mp hp⟩)).unique
          ⟨group', hj, mem_params.mp hq⟩ ⟨group, hi, mem_params.mp hp⟩)
    rw [mem_append, mem_singleton, or_iff_left hqp]
  refine ⟨states.set i t, ?_, fun j group' hj => ?_⟩
  · unfold gradReady
    rw [get?_paramToBucketGroup hsep hi hp]
    dsimp only
    rw [hi, hs]
    dsimp only
    rw [ht]
    rfl
  by_cases hji : j = i
  · subst hji
    obtain rfl := some.inj (hi.symm.trans hj)
    refine ⟨s₀, t, hs₀, getElem?_set_self (List.getElem?_eq_some_iff.mp hs).1, hinv', hlast',
      fun q => ?_, ?_⟩
    · rw [hparams, Finset.mem_insert, hmem, mem_append, mem_singleton]
      constructor
      · rintro (rfl | hq)
        · exact ⟨hp, .inr rfl⟩
        · exact ⟨hq.1, .inl hq.2⟩
      · rintro ⟨hq, hq' | rfl⟩
        · exact .inr ⟨hq, hq'⟩
        · exact .inl rfl
    · rw [if_neg fun hall => hnew (hall p hp), add_zero] at hcalls
      rw [hcalls', hcalls]
      simp only [card_insert_eq_iff hp hmem]
  · obtain ⟨u₀, u, hu₀, hu, huinv, hulast, humem, hucalls⟩ := h j group' hj
    refine ⟨u₀, u, hu₀, ?_, huinv, hulast, fun q => ?_, ?_⟩
    · rw [getElem?_set_ne (Ne.symm hji), hu]
    · rw [humem]
      exact and_congr_right fun hq => (hother j group' hj hji q hq).symm
    · rw [hucalls]
      simp only [forall₂_congr (hother j group' hj hji)]

section Iteration

variable {buffers : List ParamAndGradBuffer} {force : Bool} {states : List State}

theorem groups_spec (hbuilt : Built cfg.toDdpConfig buffers)
    (h : partitionBuckets buffers force = .ok groups) :
    (groups.flatMap (·.buckets)).Perm (buffers.flatMap (·.buckets)) ∧
      (groups.flatMap (·.buckets)).Nodup ∧ Separate groups ∧
      (∀ group ∈ groups, (params group).Nonempty) ∧
      ∀ p, (∃ group ∈ groups, p ∈ params group) ↔ p ∈ buffers.flatMap (·.params) := by
  have hne : ∀ buffer ∈ buffers, buffer.buckets ≠ [] := fun buffer hb =>
    (hbuilt.valid hb).1.buckets_ne_nil (hbuilt.valid hb).2.2.1
  have hperm := partitionBuckets_perm h hne
  have hall : ((groups.flatMap (·.buckets)).flatMap (·.params)).Perm
      (buffers.flatMap (·.params)) := (hperm.flatMap_right (·.params)).trans hbuilt.perm_params
  have hsep : ((groups.flatMap (·.buckets)).flatMap (·.params)).Nodup :=
    hall.nodup_iff.mpr (hbuilt.nodup_params (partitionBuckets_cases h).1)
  have hfull : ∀ b ∈ groups.flatMap (·.buckets), b.params ≠ [] := by
    intro b hb
    obtain ⟨buffer, hbuffer, hb⟩ := mem_flatMap.mp (hperm.mem_iff.mp hb)
    exact (hbuilt.valid hbuffer).1.nonempty b hb
  refine ⟨hperm, nodup_of_nodup_flatMap hsep hfull, ?_, fun group hg => ?_, fun p => ?_⟩
  · rwa [flatMap_assoc] at hsep
  · obtain ⟨b, hb⟩ := exists_mem_of_ne_nil _ (partitionBuckets_ne_nil h hne group hg)
    obtain ⟨p, hp⟩ := exists_mem_of_ne_nil _ (hfull b (mem_flatMap.mpr ⟨group, hg, hb⟩))
    exact ⟨p, mem_params.mpr (mem_flatMap.mpr ⟨b, hb, hp⟩)⟩
  · rw [← hall.mem_iff, flatMap_assoc, mem_flatMap]
    simp only [mem_params]

theorem registered_init (hfresh : Fresh cfg groups states)
    (hne : ∀ group ∈ groups, (params group).Nonempty) : Registered cfg groups states [] states := by
  intro i group hi
  have hlt : i < states.length := hfresh.1 ▸ (List.getElem?_eq_some_iff.mp hi).1
  have hs : states[i]? = some states[i] := getElem?_eq_getElem hlt
  obtain ⟨hreach, hempty, hlast⟩ := hfresh.2 i group _ hi hs
  refine ⟨states[i], states[i], hs, hs, (inv_of_reach hreach).2, hlast, fun q => ?_, ?_⟩
  · rw [hempty]
    simp
  · obtain ⟨p, hp⟩ := hne group (mem_of_getElem? hi)
    rw [if_neg fun hall => not_mem_nil (hall p hp), add_zero]

/-- Every bucket is in one group and every parameter has one group; and when the gradients of all
parameters arrive in any order during the last microbatch, then after each of them
`start_grad_sync` has been called once for the groups whose parameters have all arrived, and not for
the others. -/
theorem start_grad_sync_once (hbuilt : Built cfg.toDdpConfig buffers)
    (h : partitionBuckets buffers force = .ok groups) :
    (∀ buffer ∈ buffers, ∀ b ∈ buffer.buckets,
      ∃! i : ℕ, ∃ group, groups[i]? = some group ∧ b ∈ group.buckets) ∧
    (∀ buffer ∈ buffers, ∀ p ∈ buffer.params,
      ∃! i : ℕ, ∃ group, groups[i]? = some group ∧ p ∈ params group) ∧
    ∀ (states : List State) (order : List Param), cfg.overlapGradReduce = true →
      Fresh cfg groups states → order.Perm (buffers.flatMap (·.params)) →
      ∀ seen rest, order = seen ++ rest →
        ∃ states', seen.foldlM (gradReady cfg groups) states = .ok states' ∧
          ∀ (i : ℕ) group s, groups[i]? = some group → states[i]? = some s →
            ∃ t, states'[i]? = some t ∧ t.startCalls =
              s.startCalls + if ∀ p ∈ params group, p ∈ seen then 1 else 0 := by
  obtain ⟨hperm, hbuckets, hsep, hne, hparams⟩ := groups_spec hbuilt h
  refine ⟨fun buffer hb b hbb => ?_, fun buffer hb p hp => ?_, ?_⟩
  · exact existsUnique_of_nodup_flatMap hbuckets
      (hperm.mem_iff.mpr (mem_flatMap.mpr ⟨buffer, hb, hbb⟩))
  · obtain ⟨group, hg, hpg⟩ := (hparams p).mpr (mem_flatMap.mpr ⟨buffer, hb, hp⟩)
    have huniq := existsUnique_of_nodup_flatMap hsep
      (mem_flatMap.mpr ⟨group, hg, mem_params.mp hpg⟩)
    simpa only [mem_params] using huniq
  · rintro states order hlap hfresh horder seen rest rfl
    have hnd : (seen ++ rest).Nodup :=
      horder.nodup_iff.mpr (hbuilt.nodup_params (partitionBuckets_cases h).1)
    suffices hrun : ∃ states', seen.foldlM (gradReady cfg groups) states = .ok states' ∧
        Registered cfg groups states seen states' by
      obtain ⟨states', hrun, hreg⟩ := hrun
      refine ⟨states', hrun, fun i group s hi hs => ?_⟩
      obtain ⟨s₀, t, hs₀, ht, -, -, -, hcalls⟩ := hreg i group hi
      obtain rfl := some.inj (hs.symm.trans hs₀)
      exact ⟨t, ht, hcalls⟩
    refine foldlM_of_step (fun seen states' => Registered cfg groups states seen states')
      (registered_init hfresh hne) ?_
    rintro seen p rest' states' rfl hreg
    have hp : p ∈ buffers.flatMap (·.params) := horder.mem_iff.mp (by simp)
    obtain ⟨group, hg, hpg⟩ := (hparams p).mpr hp
    obtain ⟨i, hi⟩ := mem_iff_getElem?.mp hg
    have hlt : i < states.length := hfresh.1 ▸ (List.getElem?_eq_some_iff.mp hi).1
    have hreach := (hfresh.2 i group _ hi (getElem?_eq_getElem hlt)).1
    refine hreg.step (inv_of_reach hreach).1 hlap hsep hi hpg ?_
    rw [append_assoc, nodup_append] at hnd
    exact fun hmem => hnd.2.2 p hmem p mem_cons_self rfl

/-- Two parameters in one group: after the first one `start_grad_sync` has not been called, after
both it has been called once. -/
theorem start_grad_sync_once_two :
    ∃ (buffer : ParamAndGradBuffer) (groups : List BucketGroup),
      partitionBuckets [buffer] true = .ok groups ∧
      (∃ states s, [⟨0, 5, .bfloat16, false, true, true, false⟩].foldlM
          (gradReady { overlapGradReduce := true } groups) [{}] = .ok states ∧
        states[0]? = some s ∧ s.startCalls = 0) ∧
      ∃ states s, [⟨0, 5, .bfloat16, false, true, true, false⟩,
          ⟨1, 3, .bfloat16, false, true, true, false⟩].foldlM
          (gradReady { overlapGradReduce := true } groups) [{}] = .ok states ∧
        states[0]? = some s ∧ s.startCalls = 1 := by
  obtain ⟨buffer, hinit, hdtype, hparams, groups, hgroups, hlen, hall⟩ :
      ∃ buffer, ParamAndGradBuffer.init { overlapGradReduce := true } .bfloat16 .bfloat16
          [⟨0, 5, .bfloat16, false, true, true, false⟩, ⟨1, 3, .bfloat16, false, true, true, false⟩]
          1 none 1 = .ok buffer ∧ buffer.paramDtype = .bfloat16 ∧
        buffer.params = [⟨0, 5, .bfloat16, false, true, true, false⟩,
          ⟨1, 3, .bfloat16, false, true, true, false⟩] ∧
        ∃ groups, partitionBuckets [buffer] true = .ok groups ∧ groups.length = 1 ∧
          ∀ group ∈ groups, params group = buffer.params.toFinset := by decide
  have hbuilt : Built ({ overlapGradReduce := true } : Config).toDdpConfig [buffer] := by
    intro b hb
    rw [mem_singleton.mp hb, hdtype]
    exact ⟨.bfloat16, _, 1, none, 1, by decide, hinit, by decide⟩
  have hfresh : Fresh { overlapGradReduce := true } groups [{}] := by
    refine ⟨hlen.symm, fun i group s _ hs => ?_⟩
    obtain rfl := mem_singleton.mp (mem_of_getElem? hs)
    exact ⟨.init rfl, rfl, rfl⟩
  obtain ⟨group, rfl⟩ := length_eq_one_iff.mp hlen
  have hgroup := hall group (mem_singleton_self _)
  rw [hparams] at hgroup
  have hrun := (start_grad_sync_once hbuilt hgroups).2.2 [{}] buffer.params rfl hfresh
    (by rw [flatMap_singleton])
  rw [hparams] at hrun
  refine ⟨buffer, _, hgroups, ?_, ?_⟩
  · obtain ⟨states, hstates, hcalls⟩ := hrun [_] [_] rfl
    obtain ⟨s, hs, hcount⟩ := hcalls 0 group {} rfl rfl
    rw [hgroup] at hcount
    exact ⟨states, s, hstates, hs, hcount⟩
  · obtain ⟨states, hstates, hcalls⟩ := hrun [_, _] [] rfl
    obtain ⟨s, hs, hcount⟩ := hcalls 0 group {} rfl rfl
    rw [hgroup] at hcount
    exact ⟨states, s, hstates, hs, hcount⟩

end Iteration

end Handles

end MegatronDPU.Ddp
