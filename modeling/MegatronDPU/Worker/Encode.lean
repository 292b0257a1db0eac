import Mathlib.Data.Nat.ChineseRemainder
import Mathlib.Tactic.Linarith
import Mathlib.Tactic.NormNum.Prime
import MegatronDPU.Lib.Transition
import MegatronDPU.Server.State

/-!
# From a key to its server

A worker encodes a key by picking a server, once, and adding the start of that server's range. The
key-value layer cuts a message by the ranges and sends the parts; the server subtracts the start of
its range again.
-/

namespace MegatronDPU.Worker

open Lts Function List Option
open Server (Key)

/-! ## Key ranges -/

/-- `ps::Range`. -/
structure Range where
  begin : Key
  end_ : Key
  deriving DecidableEq

def kMaxKey : Key := 18446744073709551615

def keyRange (numServers i : ℕ) : Range :=
  ⟨kMaxKey / .ofNat numServers * .ofNat i, kMaxKey / .ofNat numServers * .ofNat (i + 1)⟩

/-- `Postoffice::GetServerKeyRanges`. -/
def getServerKeyRanges (numServers : ℕ) : List Range :=
  (range numServers).map (keyRange numServers)

/-! ## Hash functions -/

/-- A value of an `int`. -/
@[irreducible] def toInt (n : ℕ) : ℤ := (n : ℤ).bmod (2 ^ 32)

/-- `BYTEPS_KEY_HASH_FN`. -/
inductive HashKnob
  | naive
  | raw
  | builtIn
  | djb2
  | sdbm
  | mixed
  deriving DecidableEq

/-- How a number becomes a `double`: only that zero and signs are kept is used. -/
structure Rounding where
  round : ℚ → ℚ
  round_zero : round 0 = 0
  round_nonneg : ∀ x, 0 ≤ x → 0 ≤ round x

/-- The knobs of a worker that choose servers; numbers of nodes are an `int`. -/
structure HashConfig where
  numServers : ℕ
  numWorker : ℕ
  hashKnob : HashKnob
  mixedMode : Bool := false
  mixedModeBound : ℤ := 101
  builtInHashFn : List Int8 → UInt64
  builtInHashCoefficient : UInt32 := 1
  double : Rounding
  numServers_pos : 0 < numServers
  numServers_lt : numServers < 2 ^ 31
  numWorker_pos : 0 < numWorker

variable (cfg : HashConfig)

def hashNaive (key : Key) : UInt64 := ((key >>> 16) + key % 65536) * 9973

/-- The hash functions read the text of a number through a pointer into a string that no longer
exists; `text` is what they find there. -/
def hashBuiltIn (text : UInt64 → List Int8) (key : Key) : UInt64 :=
  cfg.builtInHashFn (text key) * cfg.builtInHashCoefficient.toUInt64

def hashDJB2 (text : UInt64 → List Int8) (key : Key) : UInt64 :=
  (text key).foldl (fun hash c => (hash <<< 5) + hash + c.toInt64.toUInt64) 5381

def hashSDBM (text : UInt64 → List Int8) (key : Key) : UInt64 :=
  (text key).foldl (fun hash c => c.toInt64.toUInt64 + (hash <<< 6) + (hash <<< 16) - hash) 0

/-- `num_server_noncolocate`, a `size_t`. -/
def numServerNoncolocate : UInt64 := .ofNat cfg.numServers - .ofNat cfg.numWorker

/-- `ratio`; `none` stands for infinity and for a number that is none. -/
def mixedRatio : Option ℚ :=
  let double := cfg.double.round
  let noncolocate := numServerNoncolocate cfg
  let numWorker : UInt64 := .ofNat cfg.numWorker
  let numerator := double (double (2 * double noncolocate.toNat) * ((cfg.numWorker : ℚ) - 1))
  let denominator := double (numWorker * (numWorker + noncolocate) - 2 * noncolocate).toNat
  if denominator = 0 then none else some (double (numerator / denominator))

/-- `Hash_Mixed_Mode`; `none` is a failed check. -/
def hashMixedMode (text : UInt64 → List Int8) (key : Key) : Option UInt64 :=
  if cfg.numServers ≤ cfg.mixedModeBound then
    (mixedRatio cfg).bind fun ratio =>
      if ratio ≤ 1 ∧ 0 ≤ ratio then
        let threshold := cfg.double.round (ratio * cfg.mixedModeBound)
        let hashRes := hashDJB2 text key % .ofNat cfg.mixedModeBound.toNat
        if cfg.double.round hashRes.toNat < threshold then
          some (hashDJB2 text hashRes % numServerNoncolocate cfg)
        else some (numServerNoncolocate cfg + hashDJB2 text hashRes % .ofNat cfg.numWorker)
      else none
  else none

def pickServer (text : UInt64 → List Int8) (key : Key) : Option ℕ :=
  let numServers : UInt64 := .ofNat cfg.numServers
  match cfg.hashKnob with
  | .naive => some (hashNaive key % numServers).toNat
  | .raw => some (key % numServers).toNat
  | .builtIn => some (hashBuiltIn cfg text key % numServers).toNat
  | .djb2 => some (hashDJB2 text key % numServers).toNat
  | .sdbm => some (hashSDBM text key % numServers).toNat
  | .mixed =>
    if cfg.mixedMode then
      (hashMixedMode cfg text key).bind fun x =>
        let server := toInt x.toNat
        -- a negative index passes the check and is out of bounds
        if 0 ≤ server ∧ server < cfg.numServers then some server.toNat else none
    else none

/-! ## `EncodeDefaultKey` -/

structure PSKV where
  keys : List Key
  lens : List ℤ
  size : ℤ
  deriving DecidableEq

/-- What a call gets: the key and the length, and what it finds behind its dangling pointers. -/
structure Encoding where
  key : Key
  len : ℕ
  text : UInt64 → List Int8

/-- `EncodeDefaultKey`, with `ps_kv_` before; `none` is a failed check. -/
def encodeDefaultKey (psKv : Key → Option PSKV) (e : Encoding) : Option PSKV :=
  match psKv e.key with
  | some pskv =>
    -- a known key keeps its server
    if 0 < e.len ∧ pskv.size ≠ e.len then
      some { pskv with size := toInt e.len, lens := [toInt e.len] }
    else some pskv
  | none => do
    let server ← pickServer cfg e.text e.key
    let psKey := (keyRange cfg.numServers server).begin + e.key
    if psKey < (keyRange cfg.numServers server).end_ then
      some { keys := [psKey], lens := [toInt e.len], size := toInt e.len }
    else none

/-! ## `DefaultSlicer` -/

structure KVPairs where
  keys : List Key := []
  vals : List UInt8 := []
  lens : List ℤ := []
  deriving DecidableEq

/-- `std::lower_bound` in sorted keys. -/
def lowerBound (keys : List Key) (bound : Key) : ℕ := (keys.takeWhile (· < bound)).length

def segmentLens (keys : List Key) : List Range → List ℕ
  | [] => []
  | r :: ranges => lowerBound keys r.end_ :: segmentLens (keys.drop (lowerBound keys r.end_)) ranges

def Contiguous : List Range → Prop
  | r :: r' :: ranges => r.end_ = r'.begin ∧ Contiguous (r' :: ranges)
  | _ => True

instance instDecidableContiguous : (ranges : List Range) → Decidable (Contiguous ranges)
  | [] => isTrue trivial
  | [_] => isTrue trivial
  | r :: r' :: ranges =>
    have := instDecidableContiguous (r' :: ranges)
    inferInstanceAs (Decidable (r.end_ = r'.begin ∧ Contiguous (r' :: ranges)))

/-- The values of the keys from `pos` on, for given `lens`: `val_end` is a `size_t`. -/
def valEnd (lens : List ℤ) (valBegin : ℕ) : ℕ :=
  lens.foldl (fun acc l => ((acc + l : ℤ) % 2 ^ 64).toNat) valBegin

/-- The loop that cuts the message; `segment` checks its bounds. -/
def slices (send : KVPairs) : List ℕ → ℕ → ℕ → Option (List (Bool × KVPairs))
  | [], _, _ => some []
  | 0 :: segments, pos, valBegin => do
    let rest ← slices send segments pos valBegin
    some ((false, {}) :: rest)
  | (n + 1) :: segments, pos, valBegin => do
    let keys := (send.keys.drop pos).take (n + 1)
    if send.lens = [] then
      let k := send.vals.length / send.keys.length
      let rest ← slices send segments (pos + (n + 1)) valBegin
      some ((true, { keys, vals := (send.vals.drop (pos * k)).take ((n + 1) * k) }) :: rest)
    else
      let lens := (send.lens.drop pos).take (n + 1)
      let valEnd := valEnd lens valBegin
      if valBegin ≤ valEnd ∧ valEnd ≤ send.vals.length then
        let rest ← slices send segments (pos + (n + 1)) valEnd
        let vals := (send.vals.drop valBegin).take (valEnd - valBegin)
        some ((true, { keys, vals, lens }) :: rest)
      else none

/-- `KVWorker::DefaultSlicer`: for every server whether it gets a part, and the part. -/
def defaultSlicer (send : KVPairs) (ranges : List Range) : Option (List (Bool × KVPairs)) :=
  let pos := lowerBound send.keys ((ranges.head?.map Range.begin).getD 0)
  let segments := segmentLens (send.keys.drop pos) ranges
  if Contiguous ranges ∧ pos + segments.sum = send.keys.length then
    if send.keys = [] then some (ranges.map fun _ => (false, {}))
    else if send.lens = [] ∧
      send.vals.length / send.keys.length * send.keys.length ≠ send.vals.length then none
    else if send.lens ≠ [] ∧ send.keys.length ≠ send.lens.length then none
    else slices send segments pos 0
  else none

/-! ## Ranges -/

theorem toNat_ofNat_of_int {n : ℕ} (h : n < 2 ^ 31) : (UInt64.ofNat n).toNat = n := by
  rw [UInt64.toNat_ofNat', Nat.mod_eq_of_lt (by omega)]

def width (numServers : ℕ) : ℕ := (2 ^ 64 - 1) / numServers

variable {cfg : HashConfig} {n i server : ℕ}

theorem width_mul_le (n : ℕ) : width n * n ≤ 2 ^ 64 - 1 := Nat.div_mul_le_self _ _

theorem toNat_begin (hlt : n < 2 ^ 31) (hi : i ≤ n) : (keyRange n i).begin.toNat = width n * i := by
  have hle : width n * i ≤ 2 ^ 64 - 1 := (Nat.mul_le_mul_left _ hi).trans (width_mul_le n)
  have hmax : kMaxKey.toNat / n = width n := rfl
  rw [keyRange, UInt64.toNat_mul, UInt64.toNat_div, toNat_ofNat_of_int hlt,
    toNat_ofNat_of_int (hi.trans_lt hlt), hmax]
  exact Nat.mod_eq_of_lt (by omega)

theorem end_eq_begin : (keyRange n i).end_ = (keyRange n (i + 1)).begin := rfl

variable {key : Key} {m : ℕ}

theorem toNat_encoded (hlt : n < 2 ^ 31) (hserver : server < n) (hkey : key.toNat < width n) :
    ((keyRange n server).begin + key).toNat = width n * server + key.toNat := by
  have hle : width n * (server + 1) ≤ 2 ^ 64 - 1 :=
    (Nat.mul_le_mul_left _ hserver).trans (width_mul_le n)
  rw [Nat.mul_succ] at hle
  rw [UInt64.toNat_add, toNat_begin hlt hserver.le]
  exact Nat.mod_eq_of_lt (by omega)

theorem encoded_lt_end (hlt : n < 2 ^ 31) (hserver : server < n) (hkey : key.toNat < width n) :
    (keyRange n server).begin + key < (keyRange n server).end_ := by
  rw [UInt64.lt_iff_toNat_lt, toNat_encoded hlt hserver hkey, end_eq_begin,
    toNat_begin hlt hserver, Nat.mul_succ]
  omega

theorem contiguous_map (n k m : ℕ) : Contiguous ((range' k m).map (keyRange n)) := by
  induction m generalizing k with
  | zero => exact trivial
  | succ m ih =>
    cases m with
    | zero => exact trivial
    | succ m => exact ⟨rfl, ih (k + 1)⟩

/-! ## Picking a server -/

variable (cfg) in
/-- The knob can be used. Mixed mode has a server next to each worker, and passes its checks. -/
def Supported : Prop :=
  cfg.hashKnob = .mixed → cfg.mixedMode = true ∧ cfg.numWorker ≤ cfg.numServers ∧
    cfg.numServers ≤ cfg.mixedModeBound ∧ ∃ ratio ∈ mixedRatio cfg, 0 ≤ ratio ∧ ratio ≤ 1

theorem pickServer_lt {text : UInt64 → List Int8} (h : pickServer cfg text key = some server) :
    server < cfg.numServers := by
  have hmod := fun x : UInt64 => x.toNat_mod_lt cfg.numServers_pos
  unfold pickServer at h
  cases hknob : cfg.hashKnob <;> rw [hknob] at h
  case mixed =>
    dsimp only at h
    split_ifs at h
    obtain ⟨x, -, h⟩ := Option.bind_eq_some_iff.mp h
    split_ifs at h with hrange
    rw [← some.inj h]
    omega
  all_goals
    rw [← some.inj h]
    exact hmod _

theorem toNat_noncolocate (h : cfg.numWorker ≤ cfg.numServers) :
    (numServerNoncolocate cfg).toNat = cfg.numServers - cfg.numWorker := by
  have hlt := cfg.numServers_lt
  have hs := toNat_ofNat_of_int hlt
  have hw := toNat_ofNat_of_int (h.trans_lt hlt)
  rw [numServerNoncolocate, UInt64.toNat_sub_of_le, hs, hw]
  rw [UInt64.le_iff_toNat_le, hs, hw]
  exact h

theorem exists_ratio {text : UInt64 → List Int8} {x : UInt64}
    (h : hashMixedMode cfg text key = some x) :
    ∃ ratio ∈ mixedRatio cfg, 0 ≤ ratio ∧ ratio ≤ 1 := by
  unfold hashMixedMode at h
  split_ifs at h
  obtain ⟨ratio, hratio, h⟩ := Option.bind_eq_some_iff.mp h
  split_ifs at h with hok
  exact ⟨ratio, hratio, hok.symm⟩

theorem hashMixedMode_lt (hle : cfg.numWorker ≤ cfg.numServers)
    (hbound : cfg.numServers ≤ cfg.mixedModeBound)
    (h : ∃ ratio ∈ mixedRatio cfg, 0 ≤ ratio ∧ ratio ≤ 1) (text : UInt64 → List Int8) (key : Key) :
    ∃ x, hashMixedMode cfg text key = some x ∧ x.toNat < cfg.numServers := by
  obtain ⟨ratio, hratio, hnonneg, hone⟩ := h
  have hratio' : mixedRatio cfg = some ratio := hratio
  have hnon := toNat_noncolocate hle
  have hwpos := cfg.numWorker_pos
  have hslt := cfg.numServers_lt
  unfold hashMixedMode
  rw [if_pos hbound, hratio', bind_some, if_pos ⟨hone, hnonneg⟩]
  dsimp only
  split_ifs with hthreshold
  · refine ⟨_, rfl, ?_⟩
    -- without such servers the threshold is zero
    have hpos : 0 < cfg.numServers - cfg.numWorker := by
      rw [Nat.pos_iff_ne_zero]
      intro hzero
      have hr : ratio = 0 := by
        rw [mixedRatio, hnon, hzero] at hratio'
        simp only [Nat.cast_zero, cfg.double.round_zero, mul_zero, zero_mul, zero_div] at hratio'
        split_ifs at hratio'
        exact (some.inj hratio').symm
      rw [hr, zero_mul, cfg.double.round_zero] at hthreshold
      exact absurd hthreshold (not_lt.mpr (cfg.double.round_nonneg _ (Nat.cast_nonneg _)))
    rw [UInt64.toNat_mod, hnon]
    exact (Nat.mod_lt _ hpos).trans_le (Nat.sub_le _ _)
  · refine ⟨_, rfl, ?_⟩
    have hmod := (hashDJB2 text (hashDJB2 text key % .ofNat
      cfg.mixedModeBound.toNat)).toNat_mod_lt hwpos
    rw [UInt64.toNat_add, hnon]
    exact (Nat.mod_le _ _).trans_lt (by omega)

theorem toInt_of_lt (h : m < 2 ^ 31) : toInt m = m := by
  unfold toInt
  rw [Int.bmod_eq_of_le] <;> omega

theorem toInt_of_ge (h : 2 ^ 31 ≤ m) (hlt : m < 2 ^ 32) : toInt m = m - 2 ^ 32 := by
  unfold toInt
  rw [Int.bmod_def]
  omega

theorem pickServer_isSome (hs : Supported cfg) (text : UInt64 → List Int8) (key : Key) :
    ∃ server, pickServer cfg text key = some server := by
  unfold pickServer
  cases hknob : cfg.hashKnob
  case mixed =>
    obtain ⟨hmode, hle, hbound, hratio⟩ := hs hknob
    obtain ⟨x, hx, hlt⟩ := hashMixedMode_lt hle hbound hratio text key
    have hint := toInt_of_lt (hlt.trans cfg.numServers_lt)
    rw [if_pos hmode, hx, bind_some, hint, if_pos ⟨by omega, by exact_mod_cast hlt⟩]
    exact ⟨_, rfl⟩
  all_goals exact ⟨_, rfl⟩

/-! ## The slicer -/

theorem lowerBound_singleton (key bound : Key) :
    lowerBound [key] bound = if key < bound then 1 else 0 := by
  unfold lowerBound
  split_ifs with h <;> simp [h]

theorem segmentLens_nil (ranges : List Range) : segmentLens [] ranges = ranges.map fun _ => 0 := by
  induction ranges with
  | nil => rfl
  | cons r ranges ih => rw [segmentLens, lowerBound, drop_nil, ih]; rfl

theorem segmentLens_singleton {k : ℕ} (hk : k ≤ server)
    (hbefore : ∀ i < server, (keyRange n i).end_ ≤ key) (hkey : key < (keyRange n server).end_) :
    segmentLens [key] ((range' k m).map (keyRange n)) =
      (range' k m).map fun i => if i = server then 1 else 0 := by
  induction m generalizing k with
  | zero => rfl
  | succ m ih =>
    rw [range'_succ, map_cons, map_cons, segmentLens, lowerBound_singleton]
    rcases hk.eq_or_lt with rfl | hlt
    · rw [if_pos hkey, if_pos rfl, drop_one, tail_cons, segmentLens_nil, List.map_map]
      congr 1
      apply map_congr_left
      intro i hi
      rw [mem_range'_1] at hi
      rw [if_neg (by omega)]
      rfl
    · rw [if_neg (UInt64.not_lt.mpr (hbefore k hlt)), if_neg hlt.ne, drop_zero, ih hlt]

theorem slices_singleton {vals : List UInt8} {k : ℕ} (hlen : vals.length < 2 ^ 31) :
    slices ⟨[key], vals, [(vals.length : ℤ)]⟩
        ((range' k m).map fun i => if i = server then 1 else 0) 0 0 =
      some ((range' k m).map fun i =>
        if i = server then (true, ⟨[key], vals, [(vals.length : ℤ)]⟩) else (false, {})) := by
  -- after the part with the key, positions are at the end and all parts are empty
  have hzero : ∀ (l : List ℕ) pos valBegin, (∀ i ∈ l, i ≠ server) →
      slices ⟨[key], vals, [(vals.length : ℤ)]⟩ (l.map fun i => if i = server then 1 else 0) pos
        valBegin = some (l.map fun i =>
          if i = server then (true, ⟨[key], vals, [(vals.length : ℤ)]⟩) else (false, {})) := by
    intro l
    induction l with
    | nil => intros; rfl
    | cons i l ih =>
      intro pos valBegin hne
      have hi := hne i mem_cons_self
      rw [map_cons, map_cons, if_neg hi, if_neg hi, slices,
        ih pos valBegin fun j hj => hne j (mem_cons_of_mem _ hj)]
      rfl
  induction m generalizing k with
  | zero => rfl
  | succ m ih =>
    rw [range'_succ, map_cons, map_cons]
    by_cases hk : k = server
    · have hend : valEnd [(vals.length : ℤ)] 0 = vals.length := by
        rw [valEnd, foldl_cons, foldl_nil, Nat.cast_zero, zero_add,
          Int.emod_eq_of_lt (by omega) (by omega), Int.toNat_natCast]
      have hrest := hzero (range' (k + 1) m) 1 vals.length fun i hi => by
        rw [mem_range'_1] at hi
        omega
      rw [if_pos hk, if_pos hk, slices, if_neg (cons_ne_nil _ _)]
      simp only [drop_zero, take_succ_cons, take_zero, hend, Nat.zero_le, le_refl,
        and_self, if_true, zero_add, hrest, bind_eq_bind, bind_some, Nat.sub_zero,
        take_length]
    · rw [if_neg hk, if_neg hk, slices, ih]
      rfl

theorem sum_indicator (n server : ℕ) :
    ((range n).map fun i => if i = server then 1 else 0).sum =
      if server < n then 1 else 0 := by
  induction n with
  | zero => rfl
  | succ n ih =>
    rw [range_succ, map_append, sum_append, ih, map_singleton, sum_singleton]
    split_ifs <;> omega

theorem defaultSlicer_encoded (hlt : n < 2 ^ 31) (hserver : server < n)
    (hkey : key.toNat < width n) {vals : List UInt8} (hlen : vals.length < 2 ^ 31) :
    defaultSlicer ⟨[(keyRange n server).begin + key], vals, [(vals.length : ℤ)]⟩
        (getServerKeyRanges n) =
      some ((range n).map fun i => if i = server then
        (true, ⟨[(keyRange n server).begin + key], vals, [(vals.length : ℤ)]⟩) else (false, {})) := by
  have hend := encoded_lt_end hlt hserver hkey
  have hbefore : ∀ i < server, (keyRange n i).end_ ≤ (keyRange n server).begin + key := by
    intro i hi
    rw [end_eq_begin, UInt64.le_iff_toNat_le, toNat_begin hlt (by omega),
      toNat_encoded hlt hserver hkey]
    have hle : width n * (i + 1) ≤ width n * server := Nat.mul_le_mul_left _ hi
    omega
  have hsegments := segmentLens_singleton (m := n) (Nat.zero_le server) hbefore hend
  have hsum : ((range' 0 n).map fun i => if i = server then 1 else 0).sum = 1 := by
    rw [← range_eq_range', sum_indicator, if_pos hserver]
  have hfirst : lowerBound [(keyRange n server).begin + key]
      (((getServerKeyRanges n).head?.map Range.begin).getD 0) = 0 := by
    have hhead : (((getServerKeyRanges n).head?.map Range.begin).getD 0) = 0 := by
      rw [getServerKeyRanges, range_eq_range', show n = n - 1 + 1 by omega, range'_succ]
      simp [keyRange]
    rw [hhead, lowerBound_singleton, if_neg UInt64.not_lt_zero]
  unfold defaultSlicer
  dsimp only
  rw [hfirst, drop_zero, getServerKeyRanges, range_eq_range', hsegments,
    if_pos ⟨contiguous_map n 0 n, by rw [hsum]; rfl⟩, if_neg (cons_ne_nil _ _),
    if_neg fun h => cons_ne_nil _ _ h.1, if_neg fun h => h.2 rfl, slices_singleton hlen]

/-! ## All runs -/

structure Encoder where
  psKv : Key → Option PSKV
  log : List (Encoding × PSKV)

variable (cfg) in
def encoders : System Encoder Encoding where
  init s := s = ⟨fun _ => none, []⟩
  step s e := (encodeDefaultKey cfg s.psKv e).map fun pskv =>
    ⟨update s.psKv e.key (some pskv), s.log ++ [(e, pskv)]⟩

variable (cfg) in
def BelowWidth (_ : Encoder) (e : Encoding) : Prop := e.key.toNat < width cfg.numServers

instance (s : Encoder) (e : Encoding) : Decidable (BelowWidth cfg s e) :=
  inferInstanceAs (Decidable (_ < _))

variable (cfg) in
def serverOf (pskv : PSKV) : ℕ := (pskv.keys.headD 0).toNat / width cfg.numServers

variable (cfg) in
/-- A table entry or an answer: the key in the range of its server, and one length. -/
structure Entry (key : Key) (pskv : PSKV) : Prop where
  below : key.toNat < width cfg.numServers
  server_lt : serverOf cfg pskv < cfg.numServers
  keys : pskv.keys = [(keyRange cfg.numServers (serverOf cfg pskv)).begin + key]
  lens : pskv.lens = [pskv.size]

section

variable (hkey : key.toNat < width cfg.numServers) (hserver : server < cfg.numServers) (size : ℤ)
include hkey hserver

theorem serverOf_encoded :
    serverOf cfg ⟨[(keyRange cfg.numServers server).begin + key], [size], size⟩ = server := by
  rw [serverOf, headD_cons, toNat_encoded cfg.numServers_lt hserver hkey,
    Nat.mul_add_div (by omega), Nat.div_eq_of_lt hkey, add_zero]

theorem entry_encoded :
    Entry cfg key ⟨[(keyRange cfg.numServers server).begin + key], [size], size⟩ := by
  have hs := serverOf_encoded hkey hserver size
  exact ⟨hkey, hs.symm ▸ hserver, by rw [hs], rfl⟩

end

theorem encodeDefaultKey_spec {psKv : Key → Option PSKV} {e : Encoding} {pskv : PSKV}
    (hkey : e.key.toNat < width cfg.numServers)
    (htable : ∀ old, psKv e.key = some old → Entry cfg e.key old)
    (h : encodeDefaultKey cfg psKv e = some pskv) :
    Entry cfg e.key pskv ∧ (0 < e.len → e.len < 2 ^ 31 → pskv.size = e.len) ∧
      ∀ old, psKv e.key = some old → pskv.keys = old.keys := by
  unfold encodeDefaultKey at h
  cases hold : psKv e.key with
  | some old =>
    obtain ⟨hbelow, hlt, hkeys, hlens⟩ := htable old hold
    rw [hold] at h
    dsimp only at h
    split_ifs at h with hlen
    · cases h
      refine ⟨⟨hbelow, hlt, hkeys, rfl⟩, fun _ hsmall => ?_, ?_⟩
      · exact toInt_of_lt hsmall
      · rintro _ ⟨⟩
        rfl
    · cases h
      refine ⟨⟨hbelow, hlt, hkeys, hlens⟩, fun hpos _ => ?_, ?_⟩
      · by_contra hne
        exact hlen ⟨hpos, hne⟩
      · rintro _ ⟨⟩
        rfl
  | none =>
    rw [hold] at h
    obtain ⟨server, hserver, h⟩ := Option.bind_eq_some_iff.mp h
    dsimp only at h
    split_ifs at h
    cases h
    refine ⟨entry_encoded hkey (pickServer_lt hserver) _, fun _ hsmall => ?_, nofun⟩
    exact toInt_of_lt hsmall

theorem encodeDefaultKey_isSome (hs : Supported cfg) (psKv : Key → Option PSKV) {e : Encoding}
    (hkey : e.key.toNat < width cfg.numServers) : (encodeDefaultKey cfg psKv e).isSome = true := by
  unfold encodeDefaultKey
  cases psKv e.key with
  | some old =>
    dsimp only
    split_ifs <;> rfl
  | none =>
    obtain ⟨server, hserver⟩ := pickServer_isSome hs e.text e.key
    have hlt := encoded_lt_end cfg.numServers_lt (pickServer_lt hserver) hkey
    simp [hserver, hlt]

variable (cfg) in
/-- The table holds entries, and what was answered for a key is still its encoding. -/
structure EncoderInv (s : Encoder) : Prop where
  table : ∀ key pskv, s.psKv key = some pskv → Entry cfg key pskv
  answers : ∀ x ∈ s.log, Entry cfg x.1.key x.2 ∧
    (0 < x.1.len → x.1.len < 2 ^ 31 → x.2.size = x.1.len) ∧
    ∃ pskv, s.psKv x.1.key = some pskv ∧ pskv.keys = x.2.keys

theorem encoderInv_of_reach {s : Encoder} (h : Reach (encoders cfg) (BelowWidth cfg) s) :
    EncoderInv cfg s := by
  refine h.invariant (P := EncoderInv cfg) ?_ fun s e t hs hkey hstep => ?_
  · rintro s rfl
    exact ⟨nofun, nofun⟩
  obtain ⟨pskv, hpskv, rfl⟩ := Option.map_eq_some_iff.mp hstep
  obtain ⟨hentry, hsize, hold⟩ := encodeDefaultKey_spec hkey (hs.table e.key) hpskv
  refine ⟨fun key x hx => ?_, fun x hx => ?_⟩
  · change update s.psKv e.key (some pskv) key = some x at hx
    by_cases hk : key = e.key
    · subst hk
      rw [update_self] at hx
      cases hx
      exact hentry
    · rw [update_of_ne hk] at hx
      exact hs.table key x hx
  · rcases mem_append.mp hx with hx | hx
    · obtain ⟨hx1, hx2, old, hold', hkeys⟩ := hs.answers x hx
      refine ⟨hx1, hx2, ?_⟩
      by_cases hk : x.1.key = e.key
      · rw [hk] at hold' ⊢
        exact ⟨pskv, update_self .., (hold old hold').trans hkeys⟩
      · exact ⟨old, (update_of_ne hk ..).trans hold', hkeys⟩
    · cases mem_singleton.mp hx
      exact ⟨hentry, hsize, pskv, update_self .., rfl⟩

variable (cfg) in
/-- A call was answered with a key in the range of `server`. The slicer sends a message of that
length to this server as a whole and nothing to the others, and there the key is decoded again. -/
structure Routed (x : Encoding × PSKV) (server : ℕ) : Prop where
  server_lt : server < cfg.numServers
  inRange : ∃ psKey, x.2.keys = [psKey] ∧ (keyRange cfg.numServers server).begin ≤ psKey ∧
    psKey < (keyRange cfg.numServers server).end_ ∧
    ∀ scfg : Server.Config, scfg.keyRangeBegin = (keyRange cfg.numServers server).begin →
      Server.decodeKey scfg psKey = x.1.key
  sliced : 0 < x.1.len → x.1.len < 2 ^ 31 → ∀ vals : List UInt8, vals.length = x.1.len →
    defaultSlicer ⟨x.2.keys, vals, x.2.lens⟩ (getServerKeyRanges cfg.numServers) =
      some ((range cfg.numServers).map fun i =>
        if i = server then (true, ⟨x.2.keys, vals, x.2.lens⟩) else (false, {}))

theorem Entry.routed {x : Encoding × PSKV} (h : Entry cfg x.1.key x.2)
    (hsize : 0 < x.1.len → x.1.len < 2 ^ 31 → x.2.size = x.1.len) :
    Routed cfg x (serverOf cfg x.2) := by
  have hend := encoded_lt_end cfg.numServers_lt h.server_lt h.below
  refine ⟨h.server_lt, ⟨_, h.keys, ?_, hend, ?_⟩, ?_⟩
  · rw [UInt64.le_iff_toNat_le, toNat_encoded cfg.numServers_lt h.server_lt h.below,
      toNat_begin cfg.numServers_lt h.server_lt.le]
    exact Nat.le_add_right _ _
  · intro scfg hscfg
    rw [Server.decodeKey, hscfg, UInt64.add_comm, UInt64.add_sub_cancel]
  · intro hpos hsmall vals hvals
    rw [h.keys, h.lens, hsize hpos hsmall, ← hvals]
    exact defaultSlicer_encoded cfg.numServers_lt h.server_lt h.below (hvals ▸ hsmall)

/-- For every number of servers, every knob, and all runs of encodings of keys below the width of a
range: every such key can be encoded; and there is one server for each key such that all encodings
of the key, for any length, lie in the range of that server, are decoded there to the key, and are
sent there as a whole by the slicer, for messages of up to `2 ^ 31 - 1` bytes. -/
theorem encodings_routed (hsup : Supported cfg) {s : Encoder}
    (hs : Reach (encoders cfg) (BelowWidth cfg) s) :
    (∀ e, BelowWidth cfg s e → ((encoders cfg).step s e).isSome = true) ∧
      ∃ server : Key → ℕ, ∀ x ∈ s.log, Routed cfg x (server x.1.key) := by
  have hinv := encoderInv_of_reach hs
  refine ⟨fun e he => ?_, fun key => ((s.psKv key).map (serverOf cfg)).getD 0, fun x hx => ?_⟩
  · have hsome := encodeDefaultKey_isSome hsup s.psKv he
    simpa [encoders] using hsome
  · obtain ⟨hentry, hsize, pskv, hpskv, hkeys⟩ := hinv.answers x hx
    have hserver : serverOf cfg pskv = serverOf cfg x.2 := by rw [serverOf, serverOf, hkeys]
    dsimp only
    rw [hpskv, map_some, getD_some, hserver]
    exact hentry.routed hsize

/-- Three servers, with `djb2`. -/
def threeServers : HashConfig where
  numServers := 3
  numWorker := 2
  hashKnob := .djb2
  builtInHashFn _ := 0
  double := ⟨id, rfl, fun _ h => h⟩
  numServers_pos := by decide
  numServers_lt := by decide
  numWorker_pos := Nat.two_pos

theorem encodings_routed_djb2 :
    ∃ s, Reach (encoders threeServers) (BelowWidth threeServers) s ∧ s.log.length = 2 ∧
      ∃ server : Key → ℕ, ∀ x ∈ s.log, Routed threeServers x (server x.1.key) := by
  obtain ⟨s, hs, hlog⟩ := exists_reach (P := fun s : Encoder => s.log.length = 2)
    (Reach.init (S := encoders threeServers) (G := BelowWidth threeServers) rfl)
    [⟨65536, 8, fun _ => [54, 53]⟩, ⟨65536, 4, fun _ => []⟩] (by decide +kernel)
  have hsup : Supported threeServers := fun h => absurd h (by decide)
  exact ⟨s, hs, hlog, (encodings_routed hsup hs).2⟩

/-- The length of a message of `2 ^ 31` bytes does not fit: the slicer fails its check. -/
theorem long_message_not_sliced :
    encodeDefaultKey { threeServers with hashKnob := .raw } (fun _ => none)
        ⟨0, 2 ^ 31, fun _ => []⟩ = some ⟨[0], [-2147483648], -2147483648⟩ ∧
      ∀ vals : List UInt8, vals.length = 2 ^ 31 →
        defaultSlicer ⟨[0], vals, [-2147483648]⟩ (getServerKeyRanges 3) = none := by
  refine ⟨by decide +kernel, fun vals hvals => ?_⟩
  have hend : valEnd [-2147483648] 0 = 18446744071562067968 := by decide
  have hsegments : segmentLens [0] (getServerKeyRanges 3) = [1, 0, 0] := by decide
  have hcont : Contiguous (getServerKeyRanges 3) := by decide
  have hfirst : lowerBound [0] (((getServerKeyRanges 3).head?.map Range.begin).getD 0) = 0 := by
    decide
  have hlen : ¬ (0 ≤ 18446744071562067968 ∧ 18446744071562067968 ≤ vals.length) := by omega
  unfold defaultSlicer
  dsimp only
  rw [hfirst, drop_zero, hsegments, if_pos ⟨hcont, by decide⟩, if_neg (cons_ne_nil _ _),
    if_neg fun h => cons_ne_nil _ _ h.1, if_neg fun h => h.2 rfl, slices,
    if_neg (cons_ne_nil _ _)]
  simp only [drop_zero, take_succ_cons, take_zero, hend, if_neg hlen]

/-! ## Mixed mode with exact numbers -/

variable (cfg) in
def mixedDenominator : UInt64 :=
  .ofNat cfg.numWorker * (.ofNat cfg.numWorker + numServerNoncolocate cfg) -
    2 * numServerNoncolocate cfg

section

variable (hexact : ∀ x, cfg.double.round x = x) (hle : cfg.numWorker ≤ cfg.numServers)
include hle

theorem toNat_mixedDenominator : (mixedDenominator cfg).toNat =
    (2 ^ 64 + cfg.numWorker * cfg.numServers - 2 * (cfg.numServers - cfg.numWorker)) % 2 ^ 64 := by
  have hlt := cfg.numServers_lt
  have hmul := Nat.mul_le_mul (hle.trans hlt.le) hlt.le
  have hsum : (.ofNat cfg.numWorker + numServerNoncolocate cfg : UInt64).toNat = cfg.numServers := by
    rw [UInt64.toNat_add, toNat_noncolocate hle, toNat_ofNat_of_int (hle.trans_lt hlt)]
    omega
  rw [mixedDenominator, UInt64.toNat_sub, UInt64.toNat_mul, UInt64.toNat_mul, hsum,
    toNat_noncolocate hle, toNat_ofNat_of_int (hle.trans_lt hlt),
    show (2 : UInt64).toNat = 2 from rfl]
  omega

include hexact

/-- With one worker the denominator is zero for one more server, and wraps around for more. -/
theorem mixedRatio_ok_iff : (∃ ratio ∈ mixedRatio cfg, 0 ≤ ratio ∧ ratio ≤ 1) ↔
    if cfg.numWorker = 1 then cfg.numServers - cfg.numWorker ≠ 1
    else cfg.numServers - cfg.numWorker ≤ cfg.numWorker := by
  have hlt := cfg.numServers_lt
  have hpos := cfg.numWorker_pos
  have hden := toNat_mixedDenominator hle
  have hratio : mixedRatio cfg = if (mixedDenominator cfg).toNat = 0 then none
      else some (2 * (cfg.numServers - cfg.numWorker : ℕ) * (cfg.numWorker - 1) /
        (mixedDenominator cfg).toNat : ℚ) := by
    unfold mixedRatio
    simp only [hexact, toNat_noncolocate hle, Nat.cast_eq_zero]
    rfl
  rw [hratio]
  by_cases hw : cfg.numWorker = 1
  · rw [if_pos hw, hw, Nat.cast_one, sub_self, mul_zero, zero_div]
    rw [hw] at hden
    split_ifs with hzero
    · exact iff_of_false (by simp) (by omega)
    · exact iff_of_true ⟨0, rfl, le_rfl, zero_le_one⟩ (by omega)
  · obtain ⟨n, hn⟩ := Nat.exists_eq_add_of_le hle
    have hmul := Nat.mul_le_mul (hle.trans hlt.le) hlt.le
    have hge := Nat.mul_le_mul_right cfg.numServers (by omega : 2 ≤ cfg.numWorker)
    have hsum : (mixedDenominator cfg).toNat + 2 * n = cfg.numWorker * (cfg.numWorker + n) := by
      rw [← hn]
      omega
    have hD : (0 : ℚ) < (mixedDenominator cfg).toNat := by
      rw [Nat.cast_pos]
      omega
    have hcast := congrArg (Nat.cast : ℕ → ℚ) hsum
    push_cast at hcast
    have hw1 : (1 : ℚ) ≤ cfg.numWorker := by exact_mod_cast hpos
    rw [if_neg hw, if_neg (by exact_mod_cast hD.ne'), hn, Nat.add_sub_cancel_left]
    simp only [mem_some_iff, exists_eq_left']
    rw [div_le_one hD, and_iff_right (div_nonneg (mul_nonneg (by positivity) (by linarith)) hD.le),
      ← Nat.cast_le (α := ℚ)]
    constructor
    · intro h
      nlinarith
    · intro h
      nlinarith

end

/-- With exact numbers and two workers or more, `Hash_Mixed_Mode` accepts at most as many servers
without a worker as there are workers; with one worker it accepts any number but one. -/
theorem hashMixedMode_isSome (hexact : ∀ x, cfg.double.round x = x)
    (hle : cfg.numWorker ≤ cfg.numServers) (hbound : cfg.numServers ≤ cfg.mixedModeBound)
    (text : UInt64 → List Int8) (key : Key) :
    (hashMixedMode cfg text key).isSome = true ↔
      if cfg.numWorker = 1 then cfg.numServers - cfg.numWorker ≠ 1
      else cfg.numServers - cfg.numWorker ≤ cfg.numWorker := by
  rw [← mixedRatio_ok_iff hexact hle]
  refine ⟨fun h => ?_, fun h => ?_⟩
  · obtain ⟨x, hx⟩ := isSome_iff_exists.mp h
    exact exists_ratio hx
  · obtain ⟨x, hx, -⟩ := hashMixedMode_lt hle hbound h text key
    rw [hx]
    rfl

/-- `Hash_Mixed_Mode` accepts the setup exactly if there are at most as many servers without a
worker as there are workers, and what it returns for any key is the index of a server. -/
def MixedModeOk (cfg : HashConfig) : Prop :=
  ∀ (text : UInt64 → List Int8) (key : Key),
    ((hashMixedMode cfg text key).isSome = true ↔
      cfg.numServers - cfg.numWorker ≤ cfg.numWorker) ∧
    ∀ x, hashMixedMode cfg text key = some x → x.toNat < cfg.numServers

/-- With exact numbers, mixed mode works iff there are two workers or more, or a worker on every
server: for one worker the denominator is zero or wraps around. -/
theorem mixedModeOk_iff (cfg : HashConfig) (hexact : ∀ x, cfg.double.round x = x)
    (hle : cfg.numWorker ≤ cfg.numServers) (hbound : cfg.numServers ≤ cfg.mixedModeBound) :
    MixedModeOk cfg ↔ 2 ≤ cfg.numWorker ∨ cfg.numServers = cfg.numWorker := by
  have hpos := cfg.numWorker_pos
  have haccept := hashMixedMode_isSome hexact hle hbound
  constructor
  · intro h
    have hiff := (haccept (fun _ => []) 0).symm.trans (h (fun _ => []) 0).1
    by_contra hnot
    obtain ⟨hone, hmore⟩ : cfg.numWorker = 1 ∧ cfg.numServers ≠ 1 := by omega
    rw [if_pos hone, hone] at hiff
    omega
  · intro h text key
    refine ⟨(haccept text key).trans ?_, fun x hx => ?_⟩
    · split_ifs with hone
      · omega
      · rfl
    · obtain ⟨y, hy, hlt⟩ := hashMixedMode_lt hle hbound (exists_ratio hx) text key
      rwa [some.inj (hx.symm.trans hy)]

/-- Three servers with two workers, and with one, where two servers without a worker are accepted. -/
theorem mixedModeOk_three : MixedModeOk threeServers ∧ ¬ MixedModeOk { threeServers with
    numWorker := 1, numWorker_pos := Nat.one_pos } :=
  ⟨(mixedModeOk_iff threeServers (fun _ => rfl) (by decide) (by decide)).mpr (by decide),
    (mixedModeOk_iff _ (fun _ => rfl) (by decide) (by decide)).not.mpr (by decide)⟩

/-- One worker and two servers, one of which has no worker: the denominator is zero. -/
theorem hashMixedMode_rejects : hashMixedMode { threeServers with
    numServers := 2, numWorker := 1, numServers_pos := by decide, numServers_lt := by decide,
    numWorker_pos := Nat.one_pos } (fun _ => []) 0 = none := by
  rw [eq_none_iff_forall_ne_some]
  intro x hx
  exact (mixedRatio_ok_iff (fun _ => rfl) (by decide)).mp (exists_ratio hx) rfl

/-! ## Servers that first partitions are sent to -/

variable (cfg) in
/-- The first partition of a tensor with this declared key is sent to this server. -/
def FirstGoesTo (declaredKey : Key) (server : ℕ) : Prop :=
  ∀ len text, ∃ pskv, encodeDefaultKey cfg (fun _ => none) ⟨declaredKey <<< 16, len, text⟩ =
    some pskv ∧ serverOf cfg pskv = server

variable (cfg) in
/-- What the knobs `naive` and `raw` multiply a declared key with. -/
def factor : ℕ := if cfg.hashKnob = .naive then 9973 else 65536

section

variable {d : Key} (hd : d.toNat < 10 ^ 9)
  (hknob : cfg.hashKnob = .naive ∨ cfg.hashKnob = .raw)
include hd

theorem toNat_startKey : (d <<< 16).toNat = d.toNat * 65536 := by
  rw [UInt64.toNat_shiftLeft]
  show d.toNat <<< 16 % 2 ^ 64 = _
  rw [Nat.shiftLeft_eq]
  omega

include hknob

theorem pickServer_startKey (text : UInt64 → List Int8) :
    pickServer cfg text (d <<< 16) = some (d.toNat * factor cfg % cfg.numServers) := by
  have hkey := toNat_startKey hd
  have hservers := toNat_ofNat_of_int cfg.numServers_lt
  unfold pickServer factor
  rcases hknob with hk | hk
  · have hnaive : (hashNaive (d <<< 16)).toNat = d.toNat * 9973 := by
      simp only [hashNaive, UInt64.toNat_mul, UInt64.toNat_add, UInt64.toNat_shiftRight,
        UInt64.toNat_mod, hkey, Nat.shiftRight_eq_div_pow, UInt64.reduceToNat, Nat.reduceMod]
      omega
    simp only [hk, if_true, UInt64.toNat_mod, hnaive, hservers]
  · simp [hk, UInt64.toNat_mod, hkey, hservers]

theorem firstGoesTo_iff (hn : cfg.numServers < 9973) :
    FirstGoesTo cfg d server ↔ d.toNat * factor cfg % cfg.numServers = server := by
  obtain ⟨s, hs⟩ : ∃ s, d.toNat * factor cfg % cfg.numServers = s := ⟨_, rfl⟩
  have hlt : s < cfg.numServers := hs ▸ Nat.mod_lt _ cfg.numServers_pos
  have hwidth : (d <<< 16).toNat < width cfg.numServers := by
    have hle := Nat.mul_le_mul hd.le hn.le
    rw [toNat_startKey hd, width, Nat.lt_div_iff_mul_lt cfg.numServers_pos, mul_right_comm]
    omega
  have hend := encoded_lt_end cfg.numServers_lt hlt hwidth
  have henc : ∀ len text, encodeDefaultKey cfg (fun _ => none) ⟨d <<< 16, len, text⟩ = some
      ⟨[(keyRange cfg.numServers s).begin + d <<< 16], [toInt len], toInt len⟩ := by
    intro len text
    rw [encodeDefaultKey]
    simp only [pickServer_startKey hd hknob text, hs]
    exact if_pos hend
  rw [hs]
  constructor
  · intro h
    obtain ⟨pskv, hpskv, rfl⟩ := h 0 fun _ => []
    rw [← some.inj ((henc _ _).symm.trans hpskv), serverOf_encoded hwidth hlt]
  · rintro rfl len text
    exact ⟨_, henc len text, serverOf_encoded hwidth hlt _⟩

end

theorem exists_mul_mod {c n : ℕ} (h : c.Coprime n) (hserver : server < n) :
    ∃ d < n, d * c % n = server := by
  obtain ⟨x, hzero, hx⟩ := Nat.chineseRemainder h 0 server
  obtain ⟨d, rfl⟩ := (Nat.modEq_zero_iff_dvd).mp hzero
  refine ⟨d % n, Nat.mod_lt _ (by omega), ?_⟩
  rw [Nat.mod_mul_mod, mul_comm, ← Nat.mod_eq_of_lt hserver]
  exact hx

/-- With fewer than 9973 servers, `naive` sends the first partition of some tensor to every server.
With `raw` this is so iff the number of servers is odd. -/
theorem all_servers_picked_iff (cfg : HashConfig) (hn : cfg.numServers < 9973)
    (hknob : cfg.hashKnob = .naive ∨ cfg.hashKnob = .raw) :
    (∀ server < cfg.numServers, ∃ d : Key, d.toNat < 10 ^ 9 ∧ FirstGoesTo cfg d server) ↔
      cfg.hashKnob = .naive ∨ cfg.numServers % 2 = 1 := by
  have hpos := cfg.numServers_pos
  constructor
  · intro h
    by_contra hcon
    obtain ⟨hraw, heven⟩ := not_or.mp hcon
    obtain ⟨d, hd, hone⟩ := h 1 (by omega)
    rw [firstGoesTo_iff hd hknob hn, factor, if_neg hraw] at hone
    have hmod := Nat.mod_mod_of_dvd (d.toNat * 65536)
      (Nat.dvd_of_mod_eq_zero (Nat.mod_two_ne_one.mp heven))
    rw [hone] at hmod
    omega
  · intro h server hserver
    have hcop : (factor cfg).Coprime cfg.numServers := by
      unfold factor
      split_ifs with hnaive
      · exact Nat.coprime_of_lt_prime hpos.ne' hn (by norm_num)
      · have hodd := Nat.odd_iff.mpr (h.resolve_left hnaive)
        exact Nat.Coprime.pow_left 16 (Nat.coprime_two_left.mpr hodd)
    obtain ⟨d, hlt, hmod⟩ := exists_mul_mod hcop hserver
    have hd : (UInt64.ofNat d).toNat = d := toNat_ofNat_of_int (by omega)
    refine ⟨.ofNat d, by omega, ?_⟩
    rw [firstGoesTo_iff (by omega) hknob hn, hd]
    exact hmod

theorem all_servers_picked_raw : ∃ d : Key, d.toNat < 10 ^ 9 ∧
    FirstGoesTo { threeServers with hashKnob := .raw } d 2 :=
  (all_servers_picked_iff { threeServers with hashKnob := .raw } (by decide) (.inr rfl)).mpr
    (.inr rfl) 2 (by decide)

/-- With `raw`, the second of two servers gets no first partition. -/
theorem raw_skips_second_server : ¬∃ d : Key, d.toNat < 10 ^ 9 ∧
    FirstGoesTo { threeServers with
      numServers := 2, hashKnob := .raw, numServers_pos := by decide, numServers_lt := by decide }
      d 1 := by
  rintro ⟨d, hd, h⟩
  rw [firstGoesTo_iff hd (.inr rfl) (by decide)] at h
  change d.toNat * 65536 % 2 = 1 at h
  omega

end MegatronDPU.Worker
