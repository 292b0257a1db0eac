import MegatronDPU.Ddp.Buffer
import MegatronDPU.Lib.Tiles

/-!
# Where the parameters of a buffer are

The buckets of a buffer tile it, and inside a bucket the parameters follow each other, each one
starting at the next aligned position (`Packed`). A parameter in both passes keeps this
(`mapStep_spec`), so for every list of different parameters the assertions hold and the buckets are
numbered from `0` in order (`init_eq_ok`).
-/

namespace MegatronDPU.Ddp

open Raise List Option

/-- The range of a bucket in the buffer. -/
def Bucket.range (b : Bucket) : ℕ × ℕ := (b.offset, b.offset + b.numel)

/-- Parameters that follow each other in bucket `id` from `offset` on, the last one up to `e`. -/
inductive Packed (cfg : DdpConfig) (map : Dict Param Slot) (id offset : ℕ) : List Param → ℕ → Prop
  | nil : Packed cfg map id offset [] offset
  | snoc {ps : List Param} {e : ℕ} {p : Param} : Packed cfg map id offset ps e →
      map.get? p = some ⟨padStartOfParamIfNeeded cfg e, padStartOfParamIfNeeded cfg e + p.numel, id⟩ →
      Packed cfg map id offset (ps ++ [p]) (padStartOfParamIfNeeded cfg e + p.numel)

section Packed

variable {cfg : DdpConfig} {map : Dict Param Slot} {id offset e : ℕ} {ps : List Param}

section

variable (h : Packed cfg map id offset ps e)
include h

theorem Packed.le : offset ≤ e := by
  induction h with
  | nil => exact le_rfl
  | snoc _ _ ih => exact ih.trans ((le_padStart _).trans (Nat.le_add_right _ _))

theorem Packed.slot {p : Param} (hp : p ∈ ps) :
    ∃ slot, map.get? p = some slot ∧ slot.bucketId = id ∧
      slot.paramEndIndex = slot.paramStartIndex + p.numel ∧ offset ≤ slot.paramStartIndex ∧
      slot.paramEndIndex ≤ e := by
  induction h with
  | nil => cases hp
  | @snoc ps e q hps hq ih =>
    have hle : e ≤ padStartOfParamIfNeeded cfg e := le_padStart e
    rcases mem_append.mp hp with hp | hp
    · obtain ⟨slot, hslot, hid, hend, hstart, hlast⟩ := ih hp
      exact ⟨slot, hslot, hid, hend, hstart, by omega⟩
    · rw [mem_singleton.mp hp]
      exact ⟨_, hq, rfl, rfl, hps.le.trans hle, le_rfl⟩

theorem Packed.disjoint {p q : Param} (hp : p ∈ ps) (hq : q ∈ ps) (hne : p ≠ q) {a b : Slot}
    (ha : map.get? p = some a) (hb : map.get? q = some b) :
    a.paramEndIndex ≤ b.paramStartIndex ∨ b.paramEndIndex ≤ a.paramStartIndex := by
  induction h with
  | nil => cases hp
  | @snoc ps e r hps hr ih =>
    have hle : e ≤ padStartOfParamIfNeeded cfg e := le_padStart e
    -- one of them may be the last
    have hlast : ∀ {x : Param} {c : Slot}, x ∈ ps → map.get? x = some c →
        c.paramEndIndex ≤ padStartOfParamIfNeeded cfg e := by
      intro x c hx hc
      obtain ⟨slot, hslot, -, -, -, hend⟩ := hps.slot hx
      rw [some.inj (hc.symm.trans hslot)]
      exact hend.trans hle
    rw [mem_append, mem_singleton] at hp hq
    rcases hp with hp | rfl
    · rcases hq with hq | rfl
      · exact ih hp hq
      · rw [some.inj (hb.symm.trans hr)]
        exact .inl (hlast hp ha)
    · rcases hq with hq | rfl
      · rw [some.inj (ha.symm.trans hr)]
        exact .inr (hlast hq hb)
      · exact absurd rfl hne

end

end Packed

/-! ## The second pass follows the first -/

section Passes

variable {cfg : DdpConfig} {dpSize : ℕ} {bucketSize : Option ℕ} {s t : Layout} {m : Mapping}
  {st : Storage} {p : Param} {seen : List Param}

/-- The buckets made so far and the parameters of the current one. -/
structure Mapping.Valid (cfg : DdpConfig) (dpSize : ℕ) (seen : List Param) (m : Mapping) :
    Prop where
  ids : m.buckets.map (·.bucketId) = range m.curBucketId
  params : m.buckets.flatMap (·.params) ++ m.bucketParams = seen
  nonempty : ∀ b ∈ m.buckets, b.params ≠ []
  mapped : ∀ p, m.paramToBucket.get? p ≠ none → p ∈ m.buckets.flatMap (·.params)
  aligned : padEndOfBucketIfNeeded cfg dpSize m.bucketStartIndex = m.bucketStartIndex

/-- The second loop is in the bucket where the first loop was. -/
structure SameBucket (s : Layout) (m : Mapping) : Prop where
  id_eq : s.bucketId = m.curBucketId
  start_eq : s.bucketStartIndex = m.bucketStartIndex
  params_eq : s.bucketParams = m.bucketParams

/-- The first loop has closed the bucket that the second one still collects. -/
structure Ahead (s : Layout) (m : Mapping) : Prop where
  id_eq : s.bucketId = m.curBucketId + 1
  params_eq : s.bucketParams = []
  nonempty : m.bucketParams ≠ []
  indices : s.bucketIndices[m.curBucketId]? = some (m.bucketStartIndex, s.bucketStartIndex)
  start_le : m.bucketStartIndex ≤ s.bucketStartIndex

/-- A bucket has the range and the parameters of the layout. -/
structure Bucket.Filled (st : Storage) (b : Bucket) : Prop where
  indices : st.bucketIndices[b.bucketId]? = some b.range
  packed : ∃ e, Packed st.cfg st.paramIndexMap b.bucketId b.offset b.params e ∧
    e ≤ b.offset + b.numel
  sharded : st.cfg.useDistributedOptimizer = true → st.dpSize ∣ b.numel
  aligned : padEndOfBucketIfNeeded st.cfg st.dpSize b.offset = b.offset

/-- What the second pass has made, next to the state of the first. -/
structure Placed (st : Storage) (s : Layout) (m : Mapping) : Prop where
  filled : ∀ b ∈ m.buckets, b.Filled st
  tiles : Tiles 0 (m.buckets.map Bucket.range) m.bucketStartIndex
  mapped : ∀ b ∈ m.buckets, ∀ p ∈ b.params, m.paramToBucket.get? p = some b
  current : ∃ e, Packed st.cfg st.paramIndexMap m.curBucketId m.bucketStartIndex m.bucketParams e ∧
    e ≤ s.paramStartIndex ∧ (s.bucketId = m.curBucketId → e = s.paramStartIndex)

/-- Closing a bucket puts the first loop ahead of the second. -/
theorem SameBucket.update (hdp : 0 < dpSize) (h : SameBucket s m) (hv : s.Valid cfg dpSize)
    (hne : s.bucketParams ≠ []) {x : ℕ} (hx : s.bucketStartIndex ≤ x) :
    Ahead (updateBucketMetadata cfg dpSize s x) m where
  id_eq := congrArg (· + 1) h.id_eq
  params_eq := rfl
  nonempty := h.params_eq ▸ hne
  indices := by
    have hlen : m.curBucketId = s.bucketIndices.length := by rw [hv.length_indices, h.id_eq]
    rw [hlen, updateBucketMetadata, getElem?_concat_length, h.start_eq]
  start_le := h.start_eq ▸ hx.trans (le_padEnd hdp x)

/-- At the start of a parameter the passes are in the same bucket, or the parameter is the first of
the next one. -/
theorem startParam_phase (hdp : 0 < dpSize) (h : s.Settled cfg dpSize)
    (hphase : SameBucket s m ∨ Ahead s m) (ht : t = startParam cfg dpSize s p) :
    SameBucket t m ∧ s.bucketId = m.curBucketId ∧
        t.paramStartIndex = padStartOfParamIfNeeded cfg s.paramStartIndex ∨
      Ahead t m ∧ padEndOfBucketIfNeeded cfg dpSize t.paramStartIndex = t.bucketStartIndex ∧
        t.paramStartIndex = padStartOfParamIfNeeded cfg t.bucketStartIndex := by
  have hle : s.paramStartIndex ≤ padStartOfParamIfNeeded cfg s.paramStartIndex := le_padStart _
  subst ht
  unfold startParam
  dsimp only
  rcases hphase with hsame | hahead
  · split_ifs with hc
    · -- the parameter needs its own bucket, so the first pass closes the common one
      have hu := hsame.update hdp h.toValid (ne_nil_of_length_pos hc.2)
        (h.start_le.trans hle)
      exact .inr ⟨{ hu with }, padEnd_padEnd hdp _, (padStart_padEnd _).symm⟩
    · exact .inl ⟨{ hsame with }, hsame.id_eq, rfl⟩
  · rw [if_neg (by simp [hahead.params_eq])]
    refine .inr ⟨{ hahead with }, ?_,
      congrArg (padStartOfParamIfNeeded cfg) (h.closed_start hahead.params_eq)⟩
    rw [h.closed_start hahead.params_eq, ← h.aligned, padStart_padEnd, padEnd_padEnd hdp]

theorem endParam_phase (bucketSize : Option ℕ) (hdp : 0 < dpSize) (hv : s.Valid cfg dpSize)
    (hle : s.bucketStartIndex ≤ s.paramEndIndex) (hne : s.bucketParams ≠ [])
    (h : SameBucket s m) (p : Param) :
    SameBucket (endParam cfg dpSize bucketSize s p) m ∧
        s.paramEndIndex = (endParam cfg dpSize bucketSize s p).paramStartIndex ∨
      Ahead (endParam cfg dpSize bucketSize s p) m := by
  unfold endParam
  split_ifs
  · have hu := h.update hdp hv hne hle
    exact .inr { hu with }
  · exact .inl ⟨{ h with }, rfl⟩

theorem mapParams_eq_ok (b : Bucket) {ps : List Param} (hnd : ps.Nodup) {d : Dict Param Bucket}
    (hd : ∀ p ∈ ps, d.get? p = none) :
    ∃ d', mapParams b d ps = .ok d' ∧ ∀ q, d'.get? q = if q ∈ ps then some b else d.get? q := by
  induction ps generalizing d with
  | nil => exact ⟨d, rfl, fun q => by rw [if_neg not_mem_nil]⟩
  | cons p ps ih =>
    rw [nodup_cons] at hnd
    have hset : ∀ q ∈ ps, (d.set p b).get? q = none := by
      intro q hq
      rw [Dict.get?_set_of_ne fun h : q = p => hnd.1 (h ▸ hq)]
      exact hd q (mem_cons_of_mem p hq)
    obtain ⟨d', hd', hget⟩ := ih hnd.2 hset
    refine ⟨d', ?_, fun q => ?_⟩
    · rw [mapParams, require_bind (hd p mem_cons_self), hd']
    · rw [hget, Dict.get?_set, if_congr (mem_cons.trans or_comm) rfl rfl, ite_or]

theorem mod_eq_zero_of_aligned {i : ℕ} (hi : padEndOfBucketIfNeeded cfg dpSize i = i)
    (hopt : cfg.useDistributedOptimizer = true) : i % dpSize = 0 := by
  rw [← hi]
  exact Nat.mod_eq_zero_of_dvd (dvd_padEnd i hopt
    ((Nat.dvd_lcm_left _ _).trans lcm_dvd_bucketSizeDivisor))

/-- The second pass makes its bucket where the first closed it; it holds the parameters packed so
far. -/
theorem addBucket_eq_ok (hm : m.Valid st.cfg st.dpSize seen) (h : Placed st s m) (hnd : seen.Nodup)
    (hne : m.bucketParams ≠ []) {x e : ℕ}
    (hpacked : Packed st.cfg st.paramIndexMap m.curBucketId m.bucketStartIndex m.bucketParams e)
    (he : e ≤ x) (hx : x ≤ st.numel)
    (hindices : st.bucketIndices[m.curBucketId]? = some (m.bucketStartIndex, x))
    (hnumel : m.curBucketId < st.perBucketNumelUnpadded.length)
    (haligned : padEndOfBucketIfNeeded st.cfg st.dpSize x = x) :
    ∃ m', addBucket st m x = .ok m' ∧ m'.curBucketId = m.curBucketId ∧ m'.bucketStartIndex = x ∧
      m'.bucketParams = [] ∧
      { m' with curBucketId := m.curBucketId + 1 }.Valid st.cfg st.dpSize seen ∧
      (∀ b ∈ m'.buckets, b.Filled st) ∧ Tiles 0 (m'.buckets.map Bucket.range) x ∧
      ∀ b ∈ m'.buckets, ∀ p ∈ b.params, m'.paramToBucket.get? p = some b := by
  have hfirst := mod_eq_zero_of_aligned hm.aligned
  have hlast := mod_eq_zero_of_aligned haligned
  have hle : m.bucketStartIndex ≤ x := hpacked.le.trans he
  have hnd' := hm.params ▸ hnd
  rw [nodup_append] at hnd'
  obtain ⟨-, hparams, hdisj⟩ := hnd'
  have hnone : ∀ p ∈ m.bucketParams, m.paramToBucket.get? p = none := by
    intro p hp
    by_contra hsome
    exact hdisj p (hm.mapped p hsome) p hp rfl
  let b : Bucket :=
    { params := m.bucketParams
      offset := m.bucketStartIndex
      numel := x - m.bucketStartIndex
      numelUnpadded := st.perBucketNumelUnpadded[m.curBucketId]
      gradientScalingFactor := st.gradientScalingFactor
      bucketId := m.curBucketId }
  have hend : b.offset + b.numel = x := Nat.add_sub_cancel' hle
  have hrange : b.range = (m.bucketStartIndex, x) := congrArg (m.bucketStartIndex, ·) hend
  obtain ⟨d, hd, hget⟩ := mapParams_eq_ok b hparams hnone
  have hnew : newBucket st m x = .ok (b, d) := by
    unfold newBucket getView
    rw [getElem?_eq_getElem hnumel, hindices]
    dsimp only
    rw [require_bind hfirst, require_bind hlast, require_bind rfl,
      require_bind (hend.trans_le hx), require_bind hparams, hd]
    rfl
  refine ⟨{ m with
    buckets := m.buckets ++ [b]
    paramToBucket := d
    bucketStartIndex := x
    bucketParams := [] }, ?_, rfl, rfl, rfl, ⟨?_, ?_, ?_, fun p hp => ?_, haligned⟩, ?_, ?_,
    fun c hc p hp => ?_⟩
  · rw [addBucket, hnew]
    rfl
  · rw [map_append, hm.ids, range_succ]
    rfl
  · rw [flatMap_append, append_nil, ← hm.params]
    simp [b]
  · exact forall_mem_append.mpr ⟨hm.nonempty, forall_mem_singleton.mpr hne⟩
  · rw [flatMap_append, mem_append]
    by_cases hmem : p ∈ m.bucketParams
    · exact .inr (by simpa [b] using hmem)
    · have hold : d.get? p ≠ none := hp
      rw [hget, if_neg hmem] at hold
      exact .inl (hm.mapped p hold)
  · refine forall_mem_append.mpr ⟨h.filled, forall_mem_singleton.mpr ?_⟩
    exact ⟨hindices.trans (congrArg some hrange.symm), ⟨e, hpacked, he.trans hend.ge⟩,
      fun hopt => Nat.dvd_sub (Nat.dvd_of_mod_eq_zero (hlast hopt))
        (Nat.dvd_of_mod_eq_zero (hfirst hopt)), hm.aligned⟩
  · rw [map_append, map_singleton, hrange]
    exact h.tiles.concat (r := (m.bucketStartIndex, x)) hle
  · rw [hget]
    rcases mem_append.mp hc with hc | hc
    · have hsome := h.mapped c hc p hp
      rw [if_neg fun hmem => some_ne_none c (hsome.symm.trans (hnone p hmem)), hsome]
    · rw [mem_singleton.mp hc] at hp ⊢
      rw [if_pos hp]

section

variable (hdp : 0 < st.dpSize) (hs : s.Settled st.cfg st.dpSize)
  (hm : m.Valid st.cfg st.dpSize seen) (h : Placed st s m) (hnd : seen.Nodup)
  (hphase : SameBucket s m ∨ Ahead s m)
include hdp hs hm h hnd hphase

theorem nextBucket_spec (ht : t = startParam st.cfg st.dpSize s p)
    (hindices : t.bucketIndices <+: st.bucketIndices)
    (hnumel : t.perBucketNumelUnpadded <+: st.perBucketNumelUnpadded)
    (hle : t.bucketStartIndex ≤ st.numel) (x : ℕ) :
    ∃ m', nextBucket st m ⟨t.paramStartIndex, x, t.bucketId⟩ = .ok m' ∧
      m'.Valid st.cfg st.dpSize seen ∧ SameBucket t m' ∧ (∀ b ∈ m'.buckets, b.Filled st) ∧
      Tiles 0 (m'.buckets.map Bucket.range) m'.bucketStartIndex ∧
      (∀ b ∈ m'.buckets, ∀ p ∈ b.params, m'.paramToBucket.get? p = some b) ∧
      ∃ e, Packed st.cfg st.paramIndexMap m'.curBucketId m'.bucketStartIndex m'.bucketParams e ∧
        padStartOfParamIfNeeded st.cfg e = t.paramStartIndex := by
  obtain ⟨hv, hext, -⟩ := startParam_spec hdp hs p
  obtain ⟨e, hpacked, hpos, hopen⟩ := h.current
  rw [← ht] at hv hext
  unfold nextBucket
  rcases startParam_phase hdp hs hphase ht with ⟨hsame, hid, hstart⟩ | ⟨hahead, hpad, hstart⟩
  · rw [if_neg (by simpa using hsame.id_eq)]
    refine ⟨m, rfl, hm, hsame, h.filled, h.tiles, h.mapped, e, hpacked, ?_⟩
    rw [hopen hid, hstart]
  · rw [if_pos (by simp [hahead.id_eq])]
    have hlt : m.curBucketId < st.perBucketNumelUnpadded.length := by
      have := hnumel.length_le
      rw [hv.length_numel, hahead.id_eq] at this
      omega
    have hat : st.bucketIndices[m.curBucketId]? =
        some (m.bucketStartIndex, t.bucketStartIndex) := by
      obtain ⟨rest, hrest⟩ := hindices
      have hlt := (List.getElem?_eq_some_iff.mp hahead.indices).1
      rw [← hrest, getElem?_append_left hlt, hahead.indices]
    have hend : e ≤ t.bucketStartIndex :=
      hpos.trans (hext.start_le.trans ((le_padEnd hdp _).trans hpad.le))
    obtain ⟨m', hadd, hcur, hbucket, hnil, hv', hfilled, htiles, hmapped⟩ :=
      addBucket_eq_ok hm h hnd hahead.nonempty hpacked hend hle hat hlt hv.aligned
    have hlen : m'.curBucketId + 1 = m'.buckets.length := by
      have := congrArg length hv'.ids
      rw [length_map, length_range] at this
      rw [hcur]
      exact this.symm
    rw [hpad, hadd]
    refine ⟨{ m' with curBucketId := t.bucketId }, ?_, ?_, ⟨rfl, hbucket.symm, ?_⟩, hfilled,
      hbucket ▸ htiles, hmapped, m'.bucketStartIndex, ?_, ?_⟩
    · show (require (m'.curBucketId + 1 = m'.buckets.length) _ >>= fun _ => _) = _
      rw [require_bind hlen, require_bind (by rw [hcur, hahead.id_eq])]
      rfl
    · rw [hahead.id_eq]
      exact hv'
    · exact hahead.params_eq.trans hnil.symm
    · rw [hnil]
      exact .nil
    · rw [hbucket, hstart]

theorem mapStep_spec {s' : Layout} (hs' : s' = layoutStep st.cfg st.dpSize bucketSize s p)
    (hext : s'.Extends t) (hindices : t.bucketIndices <+: st.bucketIndices)
    (hnumel : t.perBucketNumelUnpadded <+: st.perBucketNumelUnpadded)
    (hle : t.paramStartIndex ≤ st.numel)
    (hslot : st.paramIndexMap.get? p = s'.paramIndexMap.get? p) :
    ∃ m', mapStep st m p = .ok m' ∧ m'.Valid st.cfg st.dpSize (seen ++ [p]) ∧
      m'.paramEndIndex = s'.paramEndIndex ∧ m'.bucketParams ≠ [] ∧
      (SameBucket s' m' ∨ Ahead s' m') ∧ Placed st s' m' := by
  subst hs'
  obtain ⟨hv₁, -, hstart₁⟩ := startParam_spec hdp hs p
  obtain ⟨-, hext₁, hend⟩ := layoutStep_spec bucketSize hdp hs p
  have hext' := hext₁.trans hext
  have hnumel' := hend.trans (hext.start_le.trans hle)
  obtain ⟨m₁, hnext, hv, hsame, hfilled, htiles, hmapped, e, hpacked, hpad⟩ :=
    nextBucket_spec hdp hs hm h hnd hphase rfl (hext'.indices.trans hindices)
      (hext'.numel.trans hnumel) (hstart₁.trans ((Nat.le_add_right _ _).trans hnumel'))
      ((startParam st.cfg st.dpSize s p).paramStartIndex + p.numel)
  rw [paramIndexMap_layoutStep, Dict.get?_set_self] at hslot
  let m₂ : Mapping := { m₁ with
    paramEndIndex := (startParam st.cfg st.dpSize s p).paramStartIndex + p.numel
    bucketParams := m₁.bucketParams ++ [p] }
  -- the parameter joins the common bucket, which the first pass may then close
  have hsame₂ : SameBucket (placeParam (startParam st.cfg st.dpSize s p) p) m₂ :=
    ⟨hsame.id_eq, hsame.start_eq, congrArg (· ++ [p]) hsame.params_eq⟩
  have hphase₂ := endParam_phase bucketSize hdp
    (s := placeParam (startParam st.cfg st.dpSize s p) p) { hv₁ with }
    (hstart₁.trans (Nat.le_add_right _ _))
    (append_ne_nil_of_right_ne_nil _ (cons_ne_nil p [])) hsame₂ p
  have hpacked₂ := hpacked.snoc (p := p) (by rw [hslot, hpad, hsame.id_eq])
  rw [hpad] at hpacked₂
  refine ⟨m₂, ?_, { hv with params := ?_ }, ?_,
    append_ne_nil_of_right_ne_nil _ (cons_ne_nil p []), hphase₂.imp_left And.left,
    hfilled, htiles, hmapped, _, hpacked₂, hend, fun hid => ?_⟩
  · rw [mapStep, hslot]
    dsimp only
    rw [getView, require_bind hnumel', hnext]
    rfl
  · rw [← hv.params, append_assoc]
  · unfold layoutStep endParam
    split_ifs <;> rfl
  · rcases hphase₂ with ⟨-, heq⟩ | hahead
    · exact heq
    · exact absurd (hahead.id_eq.symm.trans hid) (Nat.succ_ne_self _)

end

theorem closeRemaining_ahead (hdp : 0 < dpSize) (hs : s.Settled cfg dpSize)
    (hne : m.bucketParams ≠ []) (hphase : SameBucket s m ∨ Ahead s m) :
    Ahead (closeRemaining cfg dpSize s) m := by
  unfold closeRemaining
  rcases hphase with hsame | hahead
  · have hs_ne : s.bucketParams ≠ [] := hsame.params_eq ▸ hne
    have hu := hsame.update hdp hs.toValid hs_ne (hs.start_le.trans (hs.open_start hs_ne).le)
    rw [if_pos (length_pos_iff.mpr hs_ne)]
    exact { hu with }
  · rw [if_neg (by simp [hahead.params_eq])]
    exact hahead

theorem mapping_foldlM (st : Storage) (hdp : 0 < st.dpSize) {l : List Param} (hnd : l.Nodup)
    (ht : t = l.foldl (layoutStep st.cfg st.dpSize bucketSize) {})
    (hindices : t.bucketIndices <+: st.bucketIndices)
    (hnumel : t.perBucketNumelUnpadded <+: st.perBucketNumelUnpadded)
    (hle : t.paramStartIndex ≤ st.numel) (hmap : st.paramIndexMap = t.paramIndexMap) :
    ∃ m, l.foldlM (mapStep st) {} = .ok m ∧ m.Valid st.cfg st.dpSize l ∧
      m.paramEndIndex = t.paramEndIndex ∧ (m.bucketParams = [] → l = []) ∧
      (SameBucket t m ∨ Ahead t m) ∧ Placed st t m := by
  subst ht
  refine foldlM_of_step (fun seen m =>
    let s := seen.foldl (layoutStep st.cfg st.dpSize bucketSize) {}
    m.Valid st.cfg st.dpSize seen ∧ m.paramEndIndex = s.paramEndIndex ∧
      (m.bucketParams = [] → seen = []) ∧ (SameBucket s m ∨ Ahead s m) ∧ Placed st s m) ?_ ?_
  · exact ⟨⟨rfl, rfl, nofun, fun p hp => absurd rfl hp, (settled_init _ _).aligned⟩, rfl, fun _ => rfl,
      .inl ⟨rfl, rfl, rfl⟩, nofun, rfl, nofun, 0, .nil, le_rfl, fun _ => rfl⟩
  · rintro seen p rest m rfl ⟨hm, -, -, hphase, hplaced⟩
    obtain ⟨hs, -⟩ := layout_foldl bucketSize hdp seen (settled_init st.cfg st.dpSize)
    rw [nodup_append, nodup_cons] at hnd
    rw [foldl_append, foldl_cons] at hindices hnumel hle hmap
    obtain ⟨hs', -, -⟩ := layoutStep_spec bucketSize hdp hs p
    obtain ⟨m', hstep, hm', hend, hne, hrest⟩ := mapStep_spec hdp hs hm hplaced hnd.1 hphase
      rfl (layout_foldl bucketSize hdp rest hs').2 hindices hnumel hle
      (by rw [hmap, get?_paramIndexMap_foldl hnd.2.1.1])
    rw [foldl_append]
    exact ⟨m', hstep, hm', hend, fun h => absurd h hne, hrest⟩

end Passes

/-! ## The buffer -/

namespace ParamAndGradBuffer

variable {cfg : DdpConfig} {paramDtype gradDtype : Dtype} {params : List Param} {dpSize : ℕ}
  {bucketSize : Option ℕ} {factor : ℚ} {buf : ParamAndGradBuffer}

/-- The buckets of a buffer, with the positions of the first pass. -/
structure LaidOut (cfg : DdpConfig) (buf : ParamAndGradBuffer) : Prop where
  tiles : Tiles 0 (buf.buckets.map Bucket.range) buf.numel
  indices : ∀ b ∈ buf.buckets, buf.bucketIndices[b.bucketId]? = some b.range
  length_indices : buf.bucketIndices.length = buf.buckets.length
  packed : ∀ b ∈ buf.buckets, ∃ e, Packed cfg buf.paramIndexMap b.bucketId b.offset b.params e ∧
    e ≤ b.offset + b.numel
  sharded : cfg.useDistributedOptimizer = true →
    ∀ b ∈ buf.buckets, buf.dataParallelWorldSize ∣ b.numel
  aligned : ∀ b ∈ buf.buckets,
    padEndOfBucketIfNeeded cfg buf.dataParallelWorldSize b.offset = b.offset
  mapped : ∀ b ∈ buf.buckets, ∀ p ∈ b.params, buf.paramToBucket.get? p = some b

theorem init_eq_ok (cfg : DdpConfig) (paramDtype gradDtype : Dtype) (hne : params ≠ [])
    (hnd : params.Nodup) (hdp : 0 < dpSize) (bucketSize : Option ℕ) (factor : ℚ) :
    ∃ buf, init cfg paramDtype gradDtype params dpSize bucketSize factor = .ok buf ∧
      buf.params = params ∧ buf.paramDtype = paramDtype ∧ buf.dataParallelWorldSize = dpSize ∧
      buf.Valid ∧ buf.LaidOut cfg := by
  obtain ⟨hs, -⟩ := layout_foldl bucketSize hdp params.reverse
    (settled_init cfg dpSize)
  have hopen : (params.reverse.foldl (layoutStep cfg dpSize bucketSize) {}).bucketParams ≠ [] ∨
      0 < (params.reverse.foldl (layoutStep cfg dpSize bucketSize) {}).bucketId := by
    obtain ⟨p, ps, rfl⟩ := exists_cons_of_ne_nil hne
    rw [reverse_cons, foldl_append]
    exact bucketId_pos_or_bucketParams p
  obtain ⟨hv, hend, hstart, hle, hext⟩ := closeRemaining_spec hdp hs hopen
  generalize ht : params.reverse.foldl (layoutStep cfg dpSize bucketSize) {} = t at *
  have hmap : (closeRemaining cfg dpSize t).paramIndexMap = t.paramIndexMap := by
    unfold closeRemaining
    split_ifs <;> rfl
  have hsum := hv.sum_le
  have hnumel : if cfg.useDistributedOptimizer then
      padEndOfBucketIfNeeded cfg dpSize t.paramEndIndex % dpSize = 0
      else padEndOfBucketIfNeeded cfg dpSize t.paramEndIndex =
        (closeRemaining cfg dpSize t).perBucketNumelUnpadded.sum := by
    split_ifs with hopt
    · exact mod_eq_zero_of_aligned (padEnd_padEnd hdp _) hopt
    · rw [hv.sum_eq (Bool.eq_false_iff.mpr hopt), hstart]
  let st : Storage :=
    { cfg, dpSize
      gradientScalingFactor := factor
      numel := padEndOfBucketIfNeeded cfg dpSize t.paramEndIndex
      bucketIndices := (closeRemaining cfg dpSize t).bucketIndices
      perBucketNumelUnpadded := (closeRemaining cfg dpSize t).perBucketNumelUnpadded
      paramIndexMap := (closeRemaining cfg dpSize t).paramIndexMap }
  obtain ⟨m, hm, hvm, hmend, hmne, hphase, hplaced⟩ := mapping_foldlM st hdp
    (nodup_reverse.mpr hnd) ht.symm hext.indices hext.numel hle hmap
  have hmne' : m.bucketParams ≠ [] := fun h => hne (reverse_eq_nil_iff.mp (hmne h))
  have hahead := closeRemaining_ahead hdp hs hmne' hphase
  have hlast := hahead.indices
  rw [hstart] at hlast
  obtain ⟨e, hpacked, he, -⟩ := hplaced.current
  obtain ⟨m', hadd, -, -, hparams, hvm', hfilled, htiles, hmapped⟩ := addBucket_eq_ok hvm hplaced
    (nodup_reverse.mpr hnd) hmne' hpacked (he.trans hle) le_rfl hlast
    (by rw [hv.length_numel, hahead.id_eq]; exact Nat.lt_succ_self _) (padEnd_padEnd hdp _)
  have hlen := congrArg length hvm'.ids
  rw [length_map, length_range] at hlen
  refine ⟨{ paramDtype, gradDtype, params
            dataParallelWorldSize := dpSize
            numel := st.numel
            numelUnpadded := st.perBucketNumelUnpadded.sum
            bucketIndices := st.bucketIndices
            buckets := m'.buckets
            paramIndexMap := st.paramIndexMap
            paramToBucket := m'.paramToBucket }, ?_, rfl, rfl, rfl, ⟨?_, ?_, hvm'.nonempty⟩,
    htiles, fun b hb => (hfilled b hb).indices, ?_, fun b hb => (hfilled b hb).packed,
    fun hopt b hb => (hfilled b hb).sharded hopt, fun b hb => (hfilled b hb).aligned, hmapped⟩
  · unfold init layout
    rw [require_bind hnd, ht]
    dsimp only
    rw [hend]
    dsimp only
    rw [require_bind (hstart ▸ hsum), require_bind hnumel, hm]
    show (addRemaining st m >>= _) = _
    rw [addRemaining, if_pos (length_pos_iff.mpr hmne'), hmend]
    exact bind_eq_ok.mpr ⟨m', hadd, rfl⟩
  · rw [hlen]
    exact hvm'.ids
  · have hall : m'.buckets.flatMap (·.params) ++ m'.bucketParams = params.reverse := hvm'.params
    rwa [hparams, append_nil] at hall
  · exact (hv.length_indices.trans hahead.id_eq).trans hlen.symm

theorem Valid.bucketId_eq (h : buf.Valid) {i : ℕ} {b : Bucket} (hi : buf.buckets[i]? = some b) :
    b.bucketId = i := by
  have hid : (buf.buckets.map (·.bucketId))[i]? = some b.bucketId := by
    rw [getElem?_map, hi]
    rfl
  rw [h.ids, getElem?_range (List.getElem?_eq_some_iff.mp hi).1] at hid
  exact (some.inj hid).symm

theorem Valid.getElem?_bucket (h : buf.Valid) {b : Bucket} (hb : b ∈ buf.buckets) :
    buf.buckets[b.bucketId]? = some b := by
  obtain ⟨i, hi⟩ := mem_iff_getElem?.mp hb
  rw [h.bucketId_eq hi, hi]

theorem Valid.exists_bucket (h : buf.Valid) {p : Param} (hp : p ∈ buf.params) :
    ∃ b ∈ buf.buckets, p ∈ b.params := by
  have hmem : p ∈ buf.buckets.flatMap (·.params) := by rwa [h.params, mem_reverse]
  exact mem_flatMap.mp hmem

section

variable (h : buf.LaidOut cfg) (hv : buf.Valid)
include h hv

theorem LaidOut.indices_eq : buf.buckets.map Bucket.range = buf.bucketIndices := by
  refine ext_getElem? fun i => ?_
  by_cases hi : i < buf.buckets.length
  · have hat : buf.buckets[i]? = some buf.buckets[i] := getElem?_eq_getElem hi
    have hindex := h.indices _ (getElem_mem hi)
    rw [hv.bucketId_eq hat] at hindex
    rw [getElem?_map, hat, hindex]
    rfl
  · rw [getElem?_eq_none (by rw [length_map]; omega),
      getElem?_eq_none (by rw [h.length_indices]; omega)]

/-- Parameters of a buffer do not overlap. -/
theorem LaidOut.disjoint {p q : Param} (hp : p ∈ buf.params) (hq : q ∈ buf.params) (hne : p ≠ q)
    {a b : Slot} (ha : buf.paramIndexMap.get? p = some a)
    (hb : buf.paramIndexMap.get? q = some b) :
    a.paramEndIndex ≤ b.paramStartIndex ∨ b.paramEndIndex ≤ a.paramStartIndex := by
  obtain ⟨c, hc, hpc⟩ := hv.exists_bucket hp
  obtain ⟨d, hd, hqd⟩ := hv.exists_bucket hq
  obtain ⟨e, hpacked, he⟩ := h.packed c hc
  obtain ⟨e', hpacked', he'⟩ := h.packed d hd
  obtain ⟨a', ha', -, -, hstart, hend⟩ := hpacked.slot hpc
  obtain ⟨b', hb', -, -, hstart', hend'⟩ := hpacked'.slot hqd
  obtain rfl := some.inj (ha.symm.trans ha')
  obtain rfl := some.inj (hb.symm.trans hb')
  have hrange : ∀ {x : Bucket}, x ∈ buf.buckets →
      (buf.buckets.map Bucket.range)[x.bucketId]? = some x.range := by
    intro x hx
    rw [getElem?_map, hv.getElem?_bucket hx]
    rfl
  rcases lt_trichotomy c.bucketId d.bucketId with hlt | heq | hgt
  · have hle : c.offset + c.numel ≤ d.offset := h.tiles.le_of_lt (hrange hc) (hrange hd) hlt
    omega
  · have hsame : c = d :=
      some.inj ((hv.getElem?_bucket hc).symm.trans (heq ▸ hv.getElem?_bucket hd))
    subst hsame
    exact hpacked.disjoint hpc hqd hne ha hb
  · have hle : d.offset + d.numel ≤ c.offset := h.tiles.le_of_lt (hrange hd) (hrange hc) hgt
    omega

/-- The buckets tile the buffer where the first pass has measured them; every parameter has its
own range inside the bucket that is recorded for it; with the distributed optimizer the buckets can
be cut into shards. -/
structure WellLaid (cfg : DdpConfig) (buf : ParamAndGradBuffer) : Prop where
  tiles : Tiles 0 (buf.buckets.map Bucket.range) buf.numel
  measured : buf.buckets.map Bucket.range = buf.bucketIndices
  inside : ∀ p ∈ buf.params, ∃ slot b, buf.paramIndexMap.get? p = some slot ∧
    buf.paramToBucket.get? p = some b ∧ buf.buckets[slot.bucketId]? = some b ∧ p ∈ b.params ∧
    slot.paramEndIndex = slot.paramStartIndex + p.numel ∧ b.offset ≤ slot.paramStartIndex ∧
    slot.paramEndIndex ≤ b.offset + b.numel
  disjoint : ∀ p ∈ buf.params, ∀ q ∈ buf.params, p ≠ q → ∀ a b,
    buf.paramIndexMap.get? p = some a → buf.paramIndexMap.get? q = some b →
      a.paramEndIndex ≤ b.paramStartIndex ∨ b.paramEndIndex ≤ a.paramStartIndex
  sharded : cfg.useDistributedOptimizer = true →
    ∀ b ∈ buf.buckets, buf.dataParallelWorldSize ∣ b.numel

theorem LaidOut.wellLaid : buf.WellLaid cfg where
  tiles := h.tiles
  measured := h.indices_eq hv
  inside p hp := by
    obtain ⟨b, hb, hpb⟩ := hv.exists_bucket hp
    obtain ⟨e, hpacked, he⟩ := h.packed b hb
    obtain ⟨slot, hslot, hid, hend, hstart, hlast⟩ := hpacked.slot hpb
    exact ⟨slot, b, hslot, h.mapped b hb p hpb, hid ▸ hv.getElem?_bucket hb, hpb, hend, hstart,
      hlast.trans he⟩
  disjoint p hp q hq hne a b ha hb := h.disjoint hv hp hq hne ha hb
  sharded := h.sharded

end

/-- Both passes agree for every list of parameters, and no assertion of theirs fires. Without
parameters there is no buffer: the end of the last bucket is not bound. -/
theorem init_wellLaid (cfg : DdpConfig) (paramDtype gradDtype : Dtype) (params : List Param)
    (hnd : params.Nodup) (dpSize : ℕ) (hdp : 0 < dpSize) (bucketSize : Option ℕ) (factor : ℚ) :
    params = [] ∧ init cfg paramDtype gradDtype params dpSize bucketSize factor =
        .error (.unboundLocalError "bucket_end_index") ∨
      ∃ buf, init cfg paramDtype gradDtype params dpSize bucketSize factor = .ok buf ∧
        buf.params = params ∧ buf.dataParallelWorldSize = dpSize ∧ buf.WellLaid cfg := by
  by_cases hne : params = []
  · subst hne
    exact .inl ⟨rfl, rfl⟩
  · obtain ⟨buf, hinit, hparams, -, hsize, hv, hlaid⟩ :=
      init_eq_ok cfg paramDtype gradDtype hne hnd hdp bucketSize factor
    exact .inr ⟨buf, hinit, hparams, hsize, hlaid.wellLaid hv⟩

/-- Three parameters of which the middle one needs its own bucket, on three ranks. -/
theorem init_wellLaid_three : ∃ buf, init { useDistributedOptimizer := true } .bfloat16 .float32
        [⟨0, 100, .bfloat16, false, true, true, false⟩, ⟨1, 7, .bfloat16, false, true, true, true⟩,
          ⟨2, 65, .bfloat16, false, true, true, false⟩] 3 (some 50) 1 = .ok buf ∧
      buf.WellLaid { useDistributedOptimizer := true } := by
  refine ((init_wellLaid _ _ _ _ (by decide) _ (by decide) _ _).resolve_left ?_).imp
    fun buf h => ⟨h.1, h.2.2.2⟩
  exact fun h => cons_ne_nil _ _ h.1

end ParamAndGradBuffer

/-! ## The index ranges of a bucket -/

/-- One parameter of the loop that fills `param_to_index`. -/
def indexParam (s : Dict Param (ℕ × ℕ) × ℕ) (p : Param) : Dict Param (ℕ × ℕ) × ℕ :=
  (s.1.set p (s.2, s.2 + p.numel), s.2 + p.numel)

/-- The loop that fills `param_to_index`. -/
def indexParams (ps : List Param) : Dict Param (ℕ × ℕ) × ℕ := ps.foldl indexParam (.empty, 0)

/-- `bucket.param_to_index`. -/
def Bucket.paramToIndex (b : Bucket) : Dict Param (ℕ × ℕ) := (indexParams b.params).1

/-- `x[start:end]`. -/
def slice {α : Type} (x : List α) (start stop : ℕ) : List α := (x.drop start).take (stop - start)

/-- `bucket.param_data`, the view of the bucket into the data of the buffer. -/
def Bucket.paramData {α : Type} (b : Bucket) (data : List α) : List α :=
  slice data b.offset (b.offset + b.numel)

/-- What `finish_param_sync` copies to a parameter of the bucket after the gather. -/
def Bucket.copyBack {α : Type} (b : Bucket) (data : List α) (p : Param) : Option (List α) :=
  (b.paramToIndex.get? p).map fun (paramStart, paramEnd) =>
    slice (b.paramData data) paramStart paramEnd

section Agreement

variable {cfg : DdpConfig} {dpSize : ℕ} {map : Dict Param Slot} {id offset e : ℕ} {ps : List Param}
  {p : Param}

theorem indexParams_concat (ps : List Param) (p : Param) :
    indexParams (ps ++ [p]) = indexParam (indexParams ps) p := foldl_concat ..

/-- The ranges that a bucket and the buffer have for a parameter are the same. -/
def Agrees (map : Dict Param Slot) (index : Dict Param (ℕ × ℕ)) (offset : ℕ) (p : Param) : Prop :=
  ∃ r slot, index.get? p = some r ∧ map.get? p = some slot ∧
    offset + r.1 = slot.paramStartIndex ∧ offset + r.2 = slot.paramEndIndex

section

variable (hp : map.get? p =
  some ⟨padStartOfParamIfNeeded cfg e, padStartOfParamIfNeeded cfg e + p.numel, id⟩)
include hp

theorem agrees_last :
    Agrees map (indexParams (ps ++ [p])).1 offset p ↔
      offset + (indexParams ps).2 = padStartOfParamIfNeeded cfg e := by
  rw [indexParams_concat]
  constructor
  · rintro ⟨r, slot, hr, hslot, hstart, -⟩
    rw [indexParam, Dict.get?_set_self] at hr
    rw [← some.inj hr, ← some.inj (hp.symm.trans hslot)] at hstart
    exact hstart
  · intro heq
    refine ⟨_, _, Dict.get?_set_self, hp, heq, ?_⟩
    dsimp only
    omega

theorem agrees_concat (hnd : (ps ++ [p]).Nodup) :
    (∀ q ∈ ps ++ [p], Agrees map (indexParams (ps ++ [p])).1 offset q) ↔
      (∀ q ∈ ps, Agrees map (indexParams ps).1 offset q) ∧
        offset + (indexParams ps).2 = padStartOfParamIfNeeded cfg e := by
  rw [forall_mem_append, forall_mem_singleton, agrees_last hp]
  refine and_congr_left' (forall₂_congr fun q hq => ?_)
  unfold Agrees
  rw [indexParams_concat, indexParam,
    Dict.get?_set_of_ne ((nodup_append.mp hnd).2.2 q hq p (mem_singleton_self p))]

end

theorem Packed.end_eq (h : Packed cfg map id offset ps e)
    (hall : ∀ p ∈ ps, Agrees map (indexParams ps).1 offset p) : e = offset + (indexParams ps).2 := by
  cases h with
  | nil => rfl
  | @snoc ps e p _ hp =>
    have hlast := (agrees_last hp).mp (hall p (mem_append_right _ (mem_singleton_self p)))
    rw [indexParams_concat, indexParam, ← hlast]
    omega

theorem dvd_indexParams {d : ℕ} (h : ∀ p ∈ ps, d ∣ p.numel) : d ∣ (indexParams ps).2 := by
  induction ps using reverseRecOn with
  | nil => exact dvd_zero d
  | append_singleton ps p ih =>
    rw [indexParams_concat]
    exact (ih fun q hq => h q (mem_append_left _ hq)).add
      (h p (mem_append_right _ (mem_singleton_self p)))

theorem dvd_indexParams_iff {d : ℕ} (h : ∀ p ∈ ps.dropLast, d ∣ p.numel) :
    d ∣ (indexParams ps).2 ↔ ∀ p ∈ ps, d ∣ p.numel := by
  refine ⟨fun hd p hp => ?_, dvd_indexParams⟩
  obtain rfl | ⟨ps, q, rfl⟩ := ps.eq_nil_or_concat'
  · cases hp
  rw [dropLast_concat] at h
  rcases mem_append.mp hp with hp | hp
  · exact h p hp
  · rw [indexParams_concat] at hd
    rw [mem_singleton.mp hp]
    exact (Nat.dvd_add_right (dvd_indexParams h)).mp hd

/-- With the distributed optimizer a parameter that is not the last must fill its alignment. -/
theorem Packed.agrees_iff (hopt : cfg.useDistributedOptimizer = true)
    (h : Packed cfg map id offset ps e) (hnd : ps.Nodup) (hoffset : 64 ∣ offset) :
    (∀ p ∈ ps, Agrees map (indexParams ps).1 offset p) ↔ ∀ p ∈ ps.dropLast, 64 ∣ p.numel := by
  induction h with
  | nil => simp
  | @snoc ps e q hps hq ih =>
    have ih := ih (nodup_append.mp hnd).1
    have hpad : padStartOfParamIfNeeded cfg e = pad e 64 := by
      rw [padStartOfParamIfNeeded, if_pos hopt]
    rw [agrees_concat hq hnd, dropLast_concat]
    constructor
    · rintro ⟨hall, heq⟩
      refine (dvd_indexParams_iff (ih.mp hall)).mp ?_
      rw [← Nat.dvd_add_right hoffset, heq, hpad]
      exact dvd_pad e 64
    · intro hdvd
      have hall := ih.mpr fun p hp => hdvd p (mem_of_mem_dropLast hp)
      have he := hps.end_eq hall
      refine ⟨hall, ?_⟩
      rw [hpad, pad_of_dvd (by decide) (he ▸ hoffset.add (dvd_indexParams hdvd)), he]

theorem Packed.agrees (hopt : cfg.useDistributedOptimizer = false)
    (h : Packed cfg map id offset ps e) (hnd : ps.Nodup) :
    ∀ p ∈ ps, Agrees map (indexParams ps).1 offset p := by
  induction h with
  | nil => nofun
  | @snoc ps e q hps hq ih =>
    have hall := ih (nodup_append.mp hnd).1
    refine (agrees_concat hq hnd).mpr ⟨hall, ?_⟩
    rw [padStartOfParamIfNeeded, if_neg (by rw [hopt]; decide), hps.end_eq hall]

theorem dvd_offset (hopt : cfg.useDistributedOptimizer = true)
    (h : padEndOfBucketIfNeeded cfg dpSize offset = offset) : 64 ∣ offset := by
  rw [← h]
  exact dvd_padEnd offset hopt ((show 64 ∣ 128 by decide).trans
    ((Nat.dvd_lcm_right dpSize 128).trans lcm_dvd_bucketSizeDivisor))

theorem slice_slice {α : Type} (data : List α) {offset numel a b : ℕ} (h : b ≤ numel) :
    slice (slice data offset (offset + numel)) a b = slice data (offset + a) (offset + b) := by
  unfold slice
  rw [Nat.add_sub_cancel_left, drop_take, drop_drop, take_take]
  congr 1
  omega

end Agreement

namespace ParamAndGradBuffer

variable {cfg : DdpConfig} {paramDtype gradDtype : Dtype} {params : List Param} {dpSize : ℕ}
  {bucketSize : Option ℕ} {factor : ℚ} {buf : ParamAndGradBuffer}

theorem init_params (hdp : 0 < dpSize)
    (hinit : init cfg paramDtype gradDtype params dpSize bucketSize factor = .ok buf) :
    buf.Valid ∧ buf.LaidOut cfg ∧ buf.params.Nodup := by
  have hnd : params.Nodup := (require_bind_eq_ok.mp hinit).1
  have hne : params ≠ [] := by
    rintro rfl
    cases hinit
  obtain ⟨buf', hinit', hparams, -, -, hv, hlaid⟩ :=
    init_eq_ok cfg paramDtype gradDtype hne hnd hdp bucketSize factor
  obtain rfl := Except.ok.inj (hinit.symm.trans hinit')
  exact ⟨hv, hlaid, hparams ▸ hnd⟩

theorem Valid.nodup_params (hv : buf.Valid) (hnd : buf.params.Nodup) {b : Bucket}
    (hb : b ∈ buf.buckets) : b.params.Nodup := by
  have hall : (buf.buckets.flatMap (·.params)).Nodup := hv.params ▸ nodup_reverse.mpr hnd
  exact (nodup_flatMap.mp hall).1 b hb

/-- `param_to_index` and `param_index_map` have the same ranges, and `finish_param_sync` copies the
slice of every parameter, iff nothing is aligned inside a bucket: there is no distributed optimizer,
or all parameters but the last of a bucket have a multiple of 64 elements. -/
theorem paramToIndex_agrees_iff (hdp : 0 < dpSize)
    (hinit : init cfg paramDtype gradDtype params dpSize bucketSize factor = .ok buf) :
    (∀ b ∈ buf.buckets, ∀ p ∈ b.params, ∃ r slot, b.paramToIndex.get? p = some r ∧
      buf.paramIndexMap.get? p = some slot ∧ b.offset + r.1 = slot.paramStartIndex ∧
      b.offset + r.2 = slot.paramEndIndex ∧
      ∀ data : List ℤ, data.length = buf.numel →
        b.copyBack data p = some (slice data slot.paramStartIndex slot.paramEndIndex)) ↔
    cfg.useDistributedOptimizer = false ∨
      ∀ b ∈ buf.buckets, ∀ p ∈ b.params.dropLast, 64 ∣ p.numel := by
  obtain ⟨hv, hlaid, hnd⟩ := init_params hdp hinit
  have hagrees : (∀ b ∈ buf.buckets, ∀ p ∈ b.params,
      Agrees buf.paramIndexMap b.paramToIndex b.offset p) ↔
      cfg.useDistributedOptimizer = false ∨
        ∀ b ∈ buf.buckets, ∀ p ∈ b.params.dropLast, 64 ∣ p.numel := by
    cases hopt : cfg.useDistributedOptimizer with
    | false =>
      refine iff_of_true (fun b hb => ?_) (.inl rfl)
      obtain ⟨e, hpacked, -⟩ := hlaid.packed b hb
      exact hpacked.agrees hopt (hv.nodup_params hnd hb)
    | true =>
      rw [or_iff_right (by decide)]
      refine forall₂_congr fun b hb => ?_
      obtain ⟨e, hpacked, -⟩ := hlaid.packed b hb
      exact hpacked.agrees_iff hopt (hv.nodup_params hnd hb)
        (dvd_offset hopt (hlaid.aligned b hb))
  rw [← hagrees]
  refine forall₂_congr fun b hb => forall₂_congr fun p hp => ?_
  constructor
  · rintro ⟨r, slot, hr, hslot, hstart, hend, -⟩
    exact ⟨r, slot, hr, hslot, hstart, hend⟩
  · rintro ⟨⟨first, last⟩, slot, hr, hslot, hstart, hend⟩
    refine ⟨(first, last), slot, hr, hslot, hstart, hend, fun data _ => ?_⟩
    obtain ⟨e, hpacked, he⟩ := hlaid.packed b hb
    obtain ⟨slot', hslot', -, -, -, hlast⟩ := hpacked.slot hp
    obtain rfl := some.inj (hslot.symm.trans hslot')
    have hinside : last ≤ b.numel := by
      omega
    rw [Bucket.copyBack, hr, map_some, Bucket.paramData]
    dsimp only at hstart hend ⊢
    rw [slice_slice data hinside, hstart, hend]

/-- A parameter of 64 elements and one of 7 in one bucket. -/
theorem paramToIndex_agrees_iff_aligned :
    ∃ buf, init { useDistributedOptimizer := true } .bfloat16 .float32 [⟨0, 7, .bfloat16, false,
        true, true, false⟩, ⟨1, 64, .bfloat16, false, true, true, false⟩] 2 none 1 = .ok buf ∧
      ∀ b ∈ buf.buckets, ∀ p ∈ b.params, ∃ r slot, b.paramToIndex.get? p = some r ∧
        buf.paramIndexMap.get? p = some slot ∧ b.offset + r.1 = slot.paramStartIndex ∧
        b.offset + r.2 = slot.paramEndIndex ∧
        ∀ data : List ℤ, data.length = buf.numel →
          b.copyBack data p = some (slice data slot.paramStartIndex slot.paramEndIndex) := by
  obtain ⟨buf, hbuf, hdvd⟩ : ∃ buf, init { useDistributedOptimizer := true } .bfloat16 .float32
        [⟨0, 7, .bfloat16, false, true, true, false⟩, ⟨1, 64, .bfloat16, false, true, true, false⟩]
        2 none 1 = .ok buf ∧
      ∀ b ∈ buf.buckets, ∀ p ∈ b.params.dropLast, 64 ∣ p.numel := by decide
  exact ⟨buf, hbuf, (paramToIndex_agrees_iff (by decide) hbuf).mpr (.inr hdvd)⟩

/-- Two parameters of 100 elements: the second one starts at 128 in the buffer, and its bucket
looks for it at 100. -/
theorem paramToIndex_misses_alignment :
    (init { useDistributedOptimizer := true } .bfloat16 .float32 [⟨0, 100, .bfloat16, false, true,
        true, false⟩, ⟨1, 100, .bfloat16, false, true, true, false⟩] 1 none 1).toOption.map
      (fun buf => buf.buckets.map fun b => b.params.map fun p => (b.offset, b.paramToIndex.get? p,
        (buf.paramIndexMap.get? p).map fun slot => (slot.paramStartIndex, slot.paramEndIndex))) =
      some [[(0, some (0, 100), some (0, 100)), (0, some (100, 200), some (128, 228))]] := rfl

end ParamAndGradBuffer

end MegatronDPU.Ddp
