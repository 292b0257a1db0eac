import MegatronDPU.Lib.Tiles
import MegatronDPU.Worker.Encode
import MegatronDPU.Worker.Context

/-!
# Widths of offsets and lengths

The loops over the partitions of a tensor, with the types of the source: sizes are `size_t`, the
partition bound is a `uint32_t`, `offset` and `len` of a `TensorTableEntry` are `unsigned int`, and
`len` in the second loop of `InitTensor` is an `int`. An offset from 4 GiB on is cut off, and a
length from 2 GiB on is negative in `InitTensor`.
-/

namespace MegatronDPU.Worker.Widths

open Chunks List Option
open Server (Key)

/-! ## Loops -/

/-- The length of the next partition, a `size_t`. -/
def nextLen (bound : UInt32) (size accumulated : UInt64) : UInt64 :=
  if size - accumulated > bound.toUInt64 then bound.toUInt64 else size - accumulated

/-- `offset` and `len` of a `TensorTableEntry`. -/
structure Entry where
  offset : UInt32
  len : UInt32
  deriving DecidableEq

def Entry.range (e : Entry) : ℕ × ℕ := (e.offset.toNat, e.offset.toNat + e.len.toNat)

/-- Variables of the loop of `PartitionTensor`. -/
structure PartitionLoop where
  accumulated : UInt64
  partitions : List Entry

def partitionTensor (bound : UInt32) (size : UInt64) : Option (List Entry) :=
  (Loop.run (fun s : PartitionLoop => s.accumulated < size)
    (fun s =>
      let e : Entry :=
        ⟨s.accumulated.toUInt32, (nextLen bound size s.accumulated).toUInt32⟩
      some ⟨s.accumulated + e.len.toUInt64, s.partitions ++ [e]⟩)
    size.toNat ⟨0, []⟩).map (·.partitions)

/-- Variables of the second loop of `InitTensor`. -/
structure PushLoop where
  accumulated : UInt64
  i : ℕ
  pushes : List (Key × ℤ)

/-- The second loop of `InitTensor` and the checks after it: keys with the `int` lengths that are
pushed for them. -/
def initPushes (bound : UInt32) (size : UInt64) (keyList : List Key) : Option (List (Key × ℤ)) := do
  let s ← Loop.run (fun s : PushLoop => s.accumulated < size)
    (fun s => do
      let key ← keyList[s.i]?
      let len := toInt (nextLen bound size s.accumulated).toNat
      -- the `int` is added to a `size_t`
      some ⟨s.accumulated + .ofInt len, s.i + 1, s.pushes ++ [(key, len)]⟩)
    keyList.length ⟨0, 0, []⟩
  if s.accumulated = size ∧ s.i = keyList.length then some s.pushes else none

/-- `InitTensor`: the keys, and what is pushed for them. The first loop has no narrow variables. -/
def initTensor (bound : UInt32) (size : UInt64) (startKey : Key) :
    Option (List Key × List (Key × ℤ)) :=
  if 0 < size then do
    let keyList ← buildKeys bound.toNat size.toNat startKey []
    if 0 < keyList.length ∧
        keyList.length = (size.toNat + bound.toNat - 1) % 2 ^ 64 / bound.toNat then do
      let pushes ← initPushes bound size keyList
      some (keyList, pushes)
    else none
  else none

/-- The partitions tile the tensor, there are as many as keys, and each has the length that was
pushed for its key. -/
def Agree (bound : UInt32) (size : UInt64) (startKey : Key) : Prop :=
  ∃ (partitions : List Entry) (keyList : List Key) (pushes : List (Key × ℤ)),
    partitionTensor bound size = some partitions ∧
    initTensor bound size startKey = some (keyList, pushes) ∧
    Tiles 0 (partitions.map Entry.range) size.toNat ∧
    partitions.length = keyList.length ∧
    ∀ i : ℕ, ∀ e ∈ partitions[i]?, ∃ key, keyList[i]? = some key ∧
      pushes[i]? = some (key, (e.len.toNat : ℤ))

/-! ## Partitions -/

variable {bound : UInt32} {size : UInt64} {startKey : Key} {k n : ℕ}

theorem toNat_ofNat_of_le (h : n ≤ size.toNat) : (UInt64.ofNat n).toNat = n := by
  rw [UInt64.toNat_ofNat', Nat.mod_eq_of_lt (h.trans_lt size.toNat_lt)]

/-- The position after `k` partitions. -/
def position (bound : UInt32) (size : UInt64) (k : ℕ) : UInt64 :=
  .ofNat (offset bound.toNat size.toNat k)

theorem toNat_position : (position bound size k).toNat = offset bound.toNat size.toNat k :=
  toNat_ofNat_of_le offset_le

theorem position_lt_iff (hb : 0 < bound.toNat) :
    position bound size k < size ↔ k < count bound.toNat size.toNat := by
  rw [UInt64.lt_iff_toNat_lt, toNat_position, offset_lt_iff hb]

theorem position_count (hb : 0 < bound.toNat) :
    position bound size (count bound.toNat size.toNat) = size := by
  rw [← UInt64.toNat_inj, toNat_position, offset_count hb]

theorem toNat_nextLen (hb : 0 < bound.toNat) (hk : k < count bound.toNat size.toNat) :
    (nextLen bound size (position bound size k)).toNat = len bound.toNat size.toNat k := by
  have hle : position bound size k ≤ size := by
    rw [UInt64.le_iff_toNat_le, toNat_position]
    exact offset_le
  have hsub : (size - position bound size k).toNat =
      size.toNat - offset bound.toNat size.toNat k := by
    rw [UInt64.toNat_sub_of_le _ _ hle, toNat_position]
  have hgt : size - position bound size k > bound.toUInt64 ↔
      size.toNat - offset bound.toNat size.toNat k > bound.toNat := by
    rw [gt_iff_lt, UInt64.lt_iff_toNat_lt, hsub, UInt32.toNat_toUInt64]
  rw [← len_eq_ite hb hk]
  unfold nextLen
  split_ifs with h h' h'
  · exact UInt32.toNat_toUInt64 bound
  · exact absurd (hgt.mp h) h'
  · exact absurd (hgt.mpr h') h
  · exact hsub

theorem len_lt : len bound.toNat size.toNat k < 2 ^ 32 :=
  (min_le_left _ _).trans_lt bound.toNat_lt

theorem position_add {x : UInt64} (hx : x.toNat = len bound.toNat size.toNat k) :
    position bound size k + x = position bound size (k + 1) := by
  rw [← UInt64.toNat_inj, UInt64.toNat_add, toNat_position, toNat_position, hx, offset_add_len,
    Nat.mod_eq_of_lt (offset_le.trans_lt size.toNat_lt)]

/-- Partition `k`: its offset is cut to 32 bits. -/
def entry (bound : UInt32) (size : UInt64) (k : ℕ) : Entry :=
  ⟨(position bound size k).toUInt32, .ofNat (len bound.toNat size.toNat k)⟩

theorem entry_len : (entry bound size k).len.toNat = len bound.toNat size.toNat k := by
  show (UInt32.ofNat _).toNat = _
  rw [UInt32.toNat_ofNat', Nat.mod_eq_of_lt len_lt]

theorem entry_offset :
    (entry bound size k).offset.toNat = offset bound.toNat size.toNat k % 2 ^ 32 := by
  show (position bound size k).toUInt32.toNat = _
  rw [UInt64.toNat_toUInt32, toNat_position]

def entries (bound : UInt32) (size : UInt64) (n : ℕ) : List Entry :=
  (range n).map (entry bound size)

theorem partitionTensor_eq (hb : 0 < bound.toNat) :
    partitionTensor bound size = some (entries bound size (count bound.toNat size.toNat)) := by
  let f : ℕ → PartitionLoop := fun k => ⟨position bound size k, entries bound size k⟩
  have hstart : f 0 = ⟨0, []⟩ := by simp [f, position, entries]
  unfold partitionTensor
  rw [Loop.run_eq_of_sequence f hstart (count_le hb)]
  · rfl
  · intro k hk
    exact decide_eq_true ((position_lt_iff hb).mpr hk)
  · intro k hk
    have hlen : (nextLen bound size (position bound size k)).toUInt32 = (entry bound size k).len := by
      rw [← UInt32.toNat_inj, entry_len, UInt64.toNat_toUInt32, toNat_nextLen hb hk,
        Nat.mod_eq_of_lt len_lt]
    have hnext : position bound size k + (entry bound size k).len.toUInt64 =
        position bound size (k + 1) :=
      position_add (by rw [UInt32.toNat_toUInt64, entry_len])
    simp only [f, hlen, hnext, entries, range_succ, map_append, map_singleton]
    rfl
  · simp [f, position_count hb]

theorem partitionTensor_zero (hs : 0 < size) : partitionTensor 0 size = none := by
  unfold partitionTensor
  rw [Loop.run_eq_none fun s => s.accumulated = 0]
  · rfl
  · intro s h
    simpa [h] using hs
  · intro s t h ht
    cases ht
    have hpos : size - 0 > UInt32.toUInt64 0 := by simpa using hs
    simp only [h, nextLen, if_pos hpos]
    rfl
  · rfl

/-! ## Tiling -/

theorem tiles_entries (bound : UInt32) (size : UInt64)
    (hfit : ∀ i < n, offset bound.toNat size.toNat i < 2 ^ 32) :
    Tiles 0 ((entries bound size n).map Entry.range) (offset bound.toNat size.toNat n) := by
  induction n with
  | zero => exact offset_zero.symm
  | succ n ih =>
    have hrange : (entry bound size n).range =
        (offset bound.toNat size.toNat n, offset bound.toNat size.toNat (n + 1)) := by
      rw [Entry.range, entry_offset, entry_len, Nat.mod_eq_of_lt (hfit n (Nat.lt_succ_self n)),
        offset_add_len]
    rw [entries, range_succ, map_append, map_append, map_singleton,
      map_singleton, hrange]
    refine Tiles.concat (ih fun i hi => hfit i (Nat.lt_succ_of_lt hi)) ?_
    rw [← offset_add_len]
    exact Nat.le_add_right _ _

def lastOffset (bound size : ℕ) : ℕ := (size - 1) / bound * bound

theorem offset_last (hb : 0 < bound.toNat) (hs : 0 < size.toNat) :
    offset bound.toNat size.toNat (count bound.toNat size.toNat - 1) =
      lastOffset bound.toNat size.toNat := by
  have hcount : count bound.toNat size.toNat - 1 = (size.toNat - 1) / bound.toNat := by
    have hsum : size.toNat + bound.toNat - 1 = size.toNat - 1 + bound.toNat := by omega
    rw [Chunks.count, hsum, Nat.add_div_right _ hb, Nat.succ_sub_one]
  have hle := Nat.div_mul_le_self (size.toNat - 1) bound.toNat
  rw [hcount, offset, lastOffset]
  omega

theorem tiles_iff (hb : 0 < bound.toNat) (hs : 0 < size.toNat) :
    Tiles 0 ((entries bound size (count bound.toNat size.toNat)).map Entry.range) size.toNat ↔
      lastOffset bound.toNat size.toNat < 2 ^ 32 := by
  have hpos := count_pos hb hs
  rw [← offset_last hb hs]
  constructor
  · intro htiles
    obtain ⟨c, hc⟩ : ∃ c, count bound.toNat size.toNat = c + 1 := ⟨_, (Nat.succ_pred hpos.ne').symm⟩
    have hend : offset bound.toNat size.toNat (count bound.toNat size.toNat) = size.toNat :=
      offset_count hb
    rw [hc] at htiles hend
    rw [entries, range_succ, map_append, map_append] at htiles
    have hlast : (entry bound size c).range.2 = size.toNat := htiles.snd_eq_of_concat
    rw [Entry.range, entry_offset, entry_len] at hlast
    rw [← offset_add_len] at hend
    rw [hc, Nat.add_sub_cancel]
    omega
  · intro hfit
    have hall : ∀ i < count bound.toNat size.toNat, offset bound.toNat size.toNat i < 2 ^ 32 := by
      intro i hi
      refine lt_of_le_of_lt ?_ hfit
      have hmul : i * bound.toNat ≤ (count bound.toNat size.toNat - 1) * bound.toNat :=
        Nat.mul_le_mul_right _ (Nat.le_sub_one_of_lt hi)
      unfold offset
      omega
    have htiles := tiles_entries bound size hall
    rwa [offset_count hb] at htiles

/-! ## Pushes -/

/-- What is pushed for the first `n` keys if all lengths fit an `int`. -/
def pushesOf (bound : UInt32) (size : UInt64) (keyList : List Key) (n : ℕ) : List (Key × ℤ) :=
  (keyList.take n).mapIdx fun i key => (key, (len bound.toNat size.toNat i : ℤ))

variable {keyList : List Key}

theorem pushesOf_succ {key : Key} (h : keyList[n]? = some key) :
    pushesOf bound size keyList (n + 1) =
      pushesOf bound size keyList n ++ [(key, (len bound.toNat size.toNat n : ℤ))] := by
  obtain ⟨hn, rfl⟩ := List.getElem?_eq_some_iff.mp h
  unfold pushesOf
  rw [take_succ_eq_append_getElem hn, mapIdx_append, length_take_of_le hn.le,
    mapIdx_singleton, zero_add]

theorem initPushes_eq (hb : 0 < bound.toNat) (hint : min bound.toNat size.toNat < 2 ^ 31)
    (hlen : keyList.length = count bound.toNat size.toNat) :
    initPushes bound size keyList = some (pushesOf bound size keyList keyList.length) := by
  let f : ℕ → PushLoop := fun k => ⟨position bound size k, k, pushesOf bound size keyList k⟩
  have hstart : f 0 = ⟨0, 0, []⟩ := by simp [f, position, pushesOf]
  unfold initPushes
  rw [Loop.run_eq_of_sequence f hstart le_rfl]
  · show (if position bound size keyList.length = size ∧ keyList.length = keyList.length then
      some (pushesOf bound size keyList keyList.length) else none) = _
    rw [if_pos ⟨by rw [hlen, position_count hb], rfl⟩]
  · intro k hk
    exact decide_eq_true ((position_lt_iff hb).mpr (hlen ▸ hk))
  · intro k hk
    have hkey : keyList[k]? = some (keyList[k]) := getElem?_eq_getElem hk
    have hsmall : len bound.toNat size.toNat k < 2 ^ 31 := by
      unfold len
      omega
    have hnext : position bound size k + .ofInt (len bound.toNat size.toNat k : ℤ) =
        position bound size (k + 1) := by
      refine position_add ?_
      unfold UInt64.ofInt
      rw [UInt64.toNat_ofNat']
      omega
    simp only [f, hkey, bind_eq_bind, bind_some, toNat_nextLen hb (hlen ▸ hk),
      toInt_of_lt hsmall, hnext, pushesOf_succ hkey]
  · simp [f, hlen, position_count hb]

theorem initPushes_head (hs : 0 < size) {pushes : List (Key × ℤ)}
    (h : initPushes bound size keyList = some pushes) :
    ∃ key, pushes[0]? = some (key, toInt (nextLen bound size 0).toNat) := by
  obtain ⟨s, hrun, h⟩ := bind_eq_some_iff.mp h
  split_ifs at h with hend
  cases h
  have hinv := Loop.run_invariant
    (fun s : PushLoop => s = ⟨0, 0, []⟩ ∨
      ∃ key, s.pushes[0]? = some (key, toInt (nextLen bound size 0).toNat)) ?_ (.inl rfl) hrun
  · refine hinv.1.resolve_left ?_
    rintro rfl
    rw [← hend.1] at hs
    exact absurd hs (UInt64.lt_irrefl 0)
  · rintro s t hs - hbody
    obtain ⟨key, -, hbody⟩ := bind_eq_some_iff.mp hbody
    cases hbody
    refine .inr ?_
    rcases hs with rfl | ⟨key', hhead⟩
    · exact ⟨key, rfl⟩
    · refine ⟨key', ?_⟩
      obtain ⟨hlt, -⟩ := List.getElem?_eq_some_iff.mp hhead
      rw [getElem?_append_left hlt, hhead]

/-! ## `InitTensor` -/

theorem initTensor_spec (hs : 0 < size) {pushes : List (Key × ℤ)}
    (h : initTensor bound size startKey = some (keyList, pushes)) :
    initPushes bound size keyList = some pushes := by
  unfold initTensor at h
  rw [if_pos hs] at h
  obtain ⟨keys, -, h⟩ := bind_eq_some_iff.mp h
  split_ifs at h
  obtain ⟨ps, hpushes, h⟩ := bind_eq_some_iff.mp h
  cases h
  exact hpushes

theorem Agree.fits (h : Agree bound size startKey) (hs : 0 < size) :
    0 < bound.toNat ∧ min bound.toNat size.toNat < 2 ^ 31 ∧
      lastOffset bound.toNat size.toNat < 2 ^ 32 := by
  have hpos : 0 < size.toNat := UInt64.lt_iff_toNat_lt.mp hs
  obtain ⟨partitions, keyList, pushes, hpart, hinit, htiles, -, hlens⟩ := h
  have hb : 0 < bound.toNat := by
    refine pos_of_ne_zero fun h0 => ?_
    have hzero : bound = 0 := UInt32.toNat_inj.mp h0
    rw [hzero, partitionTensor_zero hs] at hpart
    cases hpart
  rw [partitionTensor_eq hb, Option.some.injEq] at hpart
  subst hpart
  refine ⟨hb, ?_, (tiles_iff hb hpos).mp htiles⟩
  -- the first partition has the largest length
  have hcount := count_pos hb hpos
  have hfirst : (entries bound size (count bound.toNat size.toNat))[0]? =
      some (entry bound size 0) := by
    rw [entries, getElem?_map, getElem?_range hcount]
    rfl
  obtain ⟨key, -, hpush⟩ := hlens 0 _ hfirst
  obtain ⟨key', hpush'⟩ := initPushes_head hs (initTensor_spec hs hinit)
  rw [hpush', Option.some.injEq, Prod.mk.injEq, entry_len] at hpush
  have hnext : (nextLen bound size 0).toNat = len bound.toNat size.toNat 0 := by
    have h0 : position bound size 0 = 0 := by simp [position]
    rw [← h0, toNat_nextLen hb hcount]
  rw [hnext] at hpush
  have hmin : len bound.toNat size.toNat 0 = min bound.toNat size.toNat := by
    rw [len, zero_mul, Nat.sub_zero]
  rw [← hmin]
  by_contra hge
  rw [toInt_of_ge (not_lt.mp hge) len_lt] at hpush
  omega

section

variable (hs : 0 < size) (hb : 0 < bound.toNat) (hint : min bound.toNat size.toNat < 2 ^ 31)
include hs hb hint

theorem initTensor_eq (hsum : size.toNat + bound.toNat - 1 < 2 ^ 64) :
    initTensor bound size startKey =
      some (keysFrom startKey (count bound.toNat size.toNat),
        pushesOf bound size (keysFrom startKey (count bound.toNat size.toNat))
          (count bound.toNat size.toNat)) := by
  have hpos : 0 < size.toNat := UInt64.lt_iff_toNat_lt.mp hs
  have hlen := length_keysFrom startKey (count bound.toNat size.toNat)
  unfold initTensor
  rw [if_pos hs, buildKeys_eq hb, nil_append]
  simp only [bind_eq_bind, bind_some, hlen, Nat.mod_eq_of_lt hsum]
  rw [if_pos ⟨count_pos hb hpos, rfl⟩, initPushes_eq hb hint hlen, hlen, bind_some]

theorem agree_of_fits (hlast : lastOffset bound.toNat size.toNat < 2 ^ 32) :
    Agree bound size startKey := by
  have hpos : 0 < size.toNat := UInt64.lt_iff_toNat_lt.mp hs
  have hsum : size.toNat + bound.toNat - 1 < 2 ^ 64 := by
    have hlt := bound.toNat_lt
    have hdiv := Nat.div_add_mod (size.toNat - 1) bound.toNat
    have hmod := Nat.mod_lt (size.toNat - 1) hb
    rw [mul_comm] at hdiv
    unfold lastOffset at hlast
    omega
  have hlen := length_keysFrom startKey (count bound.toNat size.toNat)
  refine ⟨_, _, _, partitionTensor_eq hb, initTensor_eq hs hb hint hsum,
    (tiles_iff hb hpos).mpr hlast, by simp [entries], fun i e he => ?_⟩
  rw [entries, getElem?_map, mem_def, map_eq_some_iff] at he
  obtain ⟨j, hj, rfl⟩ := he
  obtain ⟨hi, rfl⟩ := List.getElem?_eq_some_iff.mp hj
  rw [length_range] at hi
  rw [getElem_range, entry_len]
  obtain ⟨key, hkey⟩ : ∃ key, (keysFrom startKey (count bound.toNat size.toNat))[i]? = some key :=
    ⟨_, getElem?_eq_getElem (hlen.symm ▸ hi)⟩
  refine ⟨key, hkey, ?_⟩
  rw [pushesOf, getElem?_mapIdx, getElem?_take_of_lt hi, hkey]
  rfl

end

/-- `PartitionTensor` tiles a tensor and agrees with `InitTensor` if and only if the bound is not
zero, no partition is of 2 GiB or more, and the last one starts below 4 GiB. -/
theorem partitions_agree_iff (hs : 0 < size) : Agree bound size startKey ↔
    0 < bound.toNat ∧ min bound.toNat size.toNat < 2 ^ 31 ∧
      lastOffset bound.toNat size.toNat < 2 ^ 32 := by
  constructor
  · exact fun h => h.fits hs
  · rintro ⟨hb, hint, hlast⟩
    exact agree_of_fits hs hb hint hlast

/-- Three partitions of at most 4096 bytes. -/
theorem partitions_agree_iff_three : (0 : UInt64) < 10000 ∧ Agree 4096 10000 65536 :=
  ⟨by decide, (partitions_agree_iff (by decide)).mpr (by decide)⟩

/-- A tensor of 4 GiB and one more page: its last partition starts at 4 GiB, that is, at 0. -/
theorem page_beyond_four_gib : ¬Agree 4096 4294971392 65536 := by
  intro h
  have hfits := h.fits (by decide)
  revert hfits
  decide

end MegatronDPU.Worker.Widths
