import MegatronDPU.Lib.Bytes
import MegatronDPU.Lib.EliasDelta

/-!
# Bit streams

`BitWriter<T>` packs bits into words of `sizeof(T)` bytes, the first bit of a word in its highest
place; `BitReader<T>` takes them out again. `Get` masks the word with `1 << n`, where 1 is an `int`.
In a word of eight bytes the shift is undefined from the first bit on, so numbers come back exactly
from the shorter words (`decodeAll_encodeAll_iff`).
-/

namespace MegatronDPU.Compressor

open Bytes EliasDelta List Option
open Nat (log2 pow_add)

/-! ## Words and floats -/

/-- Element `i` of an array of words of `w` bytes. -/
def word (w : ℕ) (m : Buffer) (i : ℕ) : BitVec (8 * w) := m.load w (w * i)

/-- The nearest multiple of `2^e`, ties to the even one. -/
def roundEven (e n : ℕ) : ℕ :=
  let q := n / 2 ^ e
  let r := n % 2 ^ e
  if 2 ^ e < 2 * r ∨ (2 * r = 2 ^ e ∧ q % 2 = 1) then (q + 1) * 2 ^ e else q * 2 ^ e

/-- The `float`, with a mantissa of 24 bits, nearest to a natural number. -/
def toFloat (n : ℕ) : ℕ := roundEven (log2 n - 23) n

variable {n j k top : ℕ}

theorem toFloat_of_le (h : n ≤ 2 ^ 24) : toFloat n = n := by
  rcases h.lt_or_eq with h | rfl
  · have he : log2 n - 23 = 0 := by
      rcases Nat.eq_zero_or_pos n with rfl | hpos
      · decide
      · have := (Nat.log2_lt (Nat.pos_iff_ne_zero.mp hpos)).mpr h
        omega
    simp [toFloat, roundEven, he, Nat.mod_one]
  · decide

/-! ## Writing -/

/-- `BitWriter<T>` for words of `w` bytes. -/
structure BitWriter (w : ℕ) where
  dptr : Buffer
  accum : BitVec (8 * w)
  usedBits : ℕ
  blocks : ℕ

/-- `1 << n` for the `int` 1. -/
def shiftOne (n : ℕ) : Option (BitVec 32) := if n < 32 then some (1#32 <<< n) else none

namespace BitWriter

variable {w : ℕ}

def new (data : Buffer) : BitWriter w := ⟨data, 0, 0, 0⟩

/-- `Put`: a full word goes to the buffer. -/
def put (b : BitWriter w) (x : Bool) : BitWriter w :=
  let accum := b.accum <<< 1 ||| (BitVec.ofBool x).setWidth (8 * w)
  if b.usedBits + 1 = 8 * w then
    { dptr := b.dptr.store (w * b.blocks) accum, accum, usedBits := 0, blocks := b.blocks + 1 }
  else
    { b with accum, usedBits := b.usedBits + 1 }

/-- `Flush` fills the last word with zeros. -/
def flush (b : BitWriter w) : BitWriter w :=
  if 0 < b.usedBits then
    let accum := b.accum <<< (8 * w - b.usedBits)
    { b with accum, dptr := b.dptr.store (w * b.blocks) accum }
  else
    b

/-- `bits()`, the bits put so far. -/
def bits (b : BitWriter w) : ℕ := b.blocks * (8 * w) + b.usedBits

/-- `blocks()`, which divides in `float`. -/
def blockCount (b : BitWriter w) : ℕ := (toFloat b.bits + (8 * w - 1)) / (8 * w)

/-- Puts the `n` low bits of `v`, the highest first. -/
def putBits (b : BitWriter w) (v : ℕ) : ℕ → BitWriter w
  | 0 => b
  | n + 1 => (b.put (v.testBit n)).putBits v n

def putAll (b : BitWriter w) (bs : List Bool) : BitWriter w := bs.foldl put b

end BitWriter

/-- `EliasDeltaEncode`. -/
def eliasDeltaEncode {w : ℕ} (b : BitWriter w) (x : ℕ) : BitWriter w :=
  let len := 1 + log2 x
  let lenthOfLen := log2 len
  let b := (replicate lenthOfLen false).foldl BitWriter.put b
  let b := b.putBits len (lenthOfLen + 1)
  b.putBits x (len - 1)

/-! ## Reading -/

/-- `BitReader<T>` for words of `w` bytes. -/
structure BitReader (w : ℕ) where
  dptr : Buffer
  accum : BitVec (8 * w)
  usedBits : ℕ
  blocks : ℕ

namespace BitReader

variable {w : ℕ}

def new (data : Buffer) : BitReader w := ⟨data, 0, 0, 0⟩

/-- `Get`. The word and the mask are converted to their common type before the conjunction. -/
def get (r : BitReader w) : Option (Bool × BitReader w) :=
  let r := if r.usedBits = 0 then
      { r with accum := word w r.dptr r.blocks, blocks := r.blocks + 1, usedBits := 8 * w }
    else r
  let n := r.usedBits - 1
  (shiftOne n).map fun mask =>
    (r.accum.setWidth (max 32 (8 * w)) &&& mask.signExtend (max 32 (8 * w)) != 0,
      { r with usedBits := n })

/-- `bits()`, the bits read so far. -/
def bits (r : BitReader w) : ℕ := r.blocks * (8 * w) - r.usedBits

/-- `while (!Get()) n++` for an `int` that can be counted up `fuel` times. -/
def countZeros : ℕ → ℕ → BitReader w → Option (ℕ × BitReader w)
  | 0, _, _ => none
  | fuel + 1, n, r => do
    let (x, r) ← r.get
    if x then some (n, r) else countZeros fuel (n + 1) r

end BitReader

/-- `len <<= 1` for an `int`. -/
def shlInt (len : ℕ) : Option ℕ := if 2 * len < 2 ^ 31 then some (2 * len) else none

/-- `num <<= 1` for an `unsigned long`. -/
def shlLong (num : ℕ) : Option ℕ := some (2 * num % 2 ^ 64)

/-- `EliasDeltaDecode`. -/
def eliasDeltaDecode {w : ℕ} (r : BitReader w) : Option (ℕ × BitReader w) := do
  let (lenthOfLen, r) ← r.countZeros (2 ^ 31) 0
  let (len, r) ← shiftIn BitReader.get shlInt lenthOfLen 1 r
  shiftIn BitReader.get shlLong (len - 1) 1 r

variable {w : ℕ} {b : BitWriter w} {r : BitReader w} {m : Buffer} {bs : List Bool} {p : ℕ}

/-! ## What the writer leaves in the buffer -/

/-- Bit `p` of an array of words. -/
def bitAt (w : ℕ) (m : Buffer) (p : ℕ) : Bool :=
  (word w m (p / (8 * w))).getLsbD (8 * w - 1 - p % (8 * w))

/-- The buffer starts with the bits `bs`. -/
def Stored (w : ℕ) (m : Buffer) (bs : List Bool) : Prop :=
  ∀ p < bs.length, bs[p]? = some (bitAt w m p)

/-- The writer, whose buffer was marked at `top`, has put the bits `bs`. -/
structure Written (top : ℕ) (b : BitWriter w) (bs : List Bool) : Prop where
  bits : b.bits = bs.length
  used : b.usedBits < 8 * w
  stored : ∀ p < b.blocks * (8 * w), bs[p]? = some (bitAt w b.dptr p)
  pending : ∀ j < b.usedBits,
    bs[b.blocks * (8 * w) + j]? = some (b.accum.getLsbD (b.usedBits - 1 - j))
  top : b.dptr.top = max top (w * b.blocks)

theorem written_new (hw : 0 < w) (m : Buffer) : Written m.top (BitWriter.new (w := w) m) [] where
  bits := by simp [BitWriter.new, BitWriter.bits]
  used := by simpa [BitWriter.new] using hw
  stored := by simp [BitWriter.new]
  pending := by simp [BitWriter.new]
  top := by simp [BitWriter.new]

theorem div_block (hj : j < n) : (k * n + j) / n = k := by
  rw [mul_comm, Nat.mul_add_div (by omega), Nat.div_eq_of_lt hj, add_zero]

theorem bitAt_store_self (x : BitVec (8 * w)) (hj : j < 8 * w) :
    bitAt w (m.store (w * k) x) (k * (8 * w) + j) = x.getLsbD (8 * w - 1 - j) := by
  rw [bitAt, div_block hj, Nat.mul_add_mod_of_lt hj, word, Buffer.load_store]

theorem bitAt_store_of_ne (x : BitVec (8 * w)) (h : p / (8 * w) ≠ k) :
    bitAt w (m.store (w * k) x) p = bitAt w m p := by
  rw [bitAt, bitAt, word, word, Buffer.load_store_of_disjoint]
  rcases Nat.lt_or_gt_of_ne h with h | h
  · exact .inl (by rw [← Nat.mul_succ]; exact Nat.mul_le_mul_left w h)
  · exact .inr (by rw [← Nat.mul_succ]; exact Nat.mul_le_mul_left w h)

theorem getLsbD_shiftedIn (accum : BitVec (8 * w)) (x : Bool) {i : ℕ} (hi : i < 8 * w) :
    (accum <<< 1 ||| (BitVec.ofBool x).setWidth (8 * w)).getLsbD i =
      if i = 0 then x else accum.getLsbD (i - 1) := by
  rw [BitVec.getLsbD_or, BitVec.getLsbD_shiftLeft, BitVec.getLsbD_setWidth, BitVec.getLsbD_ofBool]
  split_ifs with h
  · subst h
    simp [hi]
  · simp [hi, h]

theorem Written.put (h : Written top b bs) (x : Bool) : Written top (b.put x) (bs ++ [x]) := by
  obtain ⟨hbits, hused, hstored, hpending, htop⟩ := h
  rw [BitWriter.bits] at hbits
  -- the bits of the current block, with the new one in the lowest place
  have haccum : ∀ j < b.usedBits + 1, (bs ++ [x])[b.blocks * (8 * w) + j]? =
      some ((b.accum <<< 1 ||| (BitVec.ofBool x).setWidth (8 * w)).getLsbD (b.usedBits - j)) := by
    intro j hj
    rw [getLsbD_shiftedIn _ _ (by omega)]
    split_ifs with hlast
    · rw [getElem?_append_right (by omega), show b.blocks * (8 * w) + j - bs.length = 0 by omega]
      rfl
    · rw [getElem?_append_left (by omega), hpending j (by omega),
        show b.usedBits - 1 - j = b.usedBits - j - 1 by omega]
  have hbefore : ∀ p < b.blocks * (8 * w), (bs ++ [x])[p]? = some (bitAt w b.dptr p) := by
    intro p hp
    rw [getElem?_append_left (by omega), hstored p hp]
  unfold BitWriter.put
  split_ifs with hfull
  · have hnext := add_one_mul b.blocks (8 * w)
    refine ⟨?_, by show 0 < 8 * w; omega, fun p hp => ?_,
      fun j hj => absurd hj (Nat.not_lt_zero j), ?_⟩
    · show (b.blocks + 1) * (8 * w) + 0 = (bs ++ [x]).length
      rw [length_append, length_singleton]
      omega
    · by_cases hblock : p < b.blocks * (8 * w)
      · rw [bitAt_store_of_ne _ (Nat.div_lt_of_lt_mul (by rwa [mul_comm])).ne, hbefore p hblock]
      · obtain ⟨j, rfl⟩ := Nat.exists_eq_add_of_le (Nat.not_lt.mp hblock)
        have hj : j < 8 * w := by
          have : b.blocks * (8 * w) + j < (b.blocks + 1) * (8 * w) := hp
          omega
        rw [bitAt_store_self _ hj, haccum j (by omega),
          show b.usedBits - j = 8 * w - 1 - j by omega]
    · rw [Buffer.top_store, htop, Nat.max_assoc, Nat.mul_succ]
      omega
  · exact ⟨by simp only [BitWriter.bits, length_append, length_singleton]; omega,
      by show b.usedBits + 1 < 8 * w; omega, hbefore,
      fun j hj => by rw [haccum j hj]; rfl, htop⟩

theorem Written.putAll (h : Written top b bs) (cs : List Bool) :
    Written top (b.putAll cs) (bs ++ cs) := by
  induction cs generalizing b bs with
  | nil => rwa [append_nil]
  | cons c cs ih =>
    rw [append_cons]
    exact ih (h.put c)

/-- After the last block is flushed all bits stand in the buffer, and nothing is stored beyond
their words. -/
theorem Written.stored_flush (h : Written top b bs) : Stored w b.flush.dptr bs ∧
      b.flush.dptr.top = max top (w * ((bs.length + (8 * w - 1)) / (8 * w))) ∧
      b.flush.bits = bs.length := by
  obtain ⟨hbits, hused, hstored, hpending, htop⟩ := h
  rw [BitWriter.bits] at hbits
  unfold BitWriter.flush
  split_ifs with hpos
  · refine ⟨fun p hp => ?_, ?_, hbits⟩
    · by_cases hblock : p < b.blocks * (8 * w)
      · rw [bitAt_store_of_ne _ (Nat.div_lt_of_lt_mul (by rwa [mul_comm])).ne, hstored p hblock]
      · obtain ⟨j, rfl⟩ := Nat.exists_eq_add_of_le (Nat.not_lt.mp hblock)
        rw [bitAt_store_self _ (by omega), hpending j (by omega), BitVec.getLsbD_shiftLeft,
          decide_eq_true (by omega), decide_eq_false (by omega), Bool.true_and, Bool.not_false,
          Bool.true_and]
        congr 2
        omega
    · have hcount : (bs.length + (8 * w - 1)) / (8 * w) = b.blocks + 1 := by
        rw [← hbits, show b.blocks * (8 * w) + b.usedBits + (8 * w - 1) =
          (b.blocks + 1) * (8 * w) + (b.usedBits - 1) by rw [Nat.succ_mul b.blocks]; omega]
        exact div_block (by omega)
      rw [Buffer.top_store, htop, hcount, Nat.max_assoc, Nat.mul_succ]
      omega
  · have hcount : (bs.length + (8 * w - 1)) / (8 * w) = b.blocks := by
      rw [← hbits, show b.usedBits = 0 by omega, add_zero]
      exact div_block (by omega)
    exact ⟨fun p hp => hstored p (by omega), by rw [htop, hcount], hbits⟩

theorem putBits_eq (b : BitWriter w) (v n : ℕ) : b.putBits v n = b.putAll (bits v n) := by
  induction n generalizing b with
  | zero => rfl
  | succ n ih => rw [BitWriter.putBits, ih]; rfl

theorem eliasDeltaEncode_eq (b : BitWriter w) (x : ℕ) : eliasDeltaEncode b x = b.putAll (code x) := by
  simp only [eliasDeltaEncode, putBits_eq, BitWriter.putAll, code, foldl_append, size,
    add_comm 1, Nat.add_sub_cancel]

theorem Written.encode (h : Written top b bs) (x : ℕ) :
    Written top (eliasDeltaEncode b x) (bs ++ code x) := by
  rw [eliasDeltaEncode_eq]
  exact h.putAll _

/-! ## What the reader yields -/

/-- The reader is at bit `p` of the buffer `m`. -/
structure At (m : Buffer) (r : BitReader w) (p : ℕ) : Prop where
  dptr : r.dptr = m
  position : r.blocks * (8 * w) = p + r.usedBits
  used : r.usedBits < 8 * w
  accum : 0 < r.usedBits → r.accum = word w m (p / (8 * w))

theorem at_new (hw : 0 < w) (m : Buffer) : At m (BitReader.new (w := w) m) 0 :=
  ⟨rfl, by simp [BitReader.new], by simpa [BitReader.new] using hw,
    fun h => absurd h (lt_irrefl 0)⟩

theorem At.bits_eq (h : At m r p) : r.bits = p := by
  rw [BitReader.bits, h.position, Nat.add_sub_cancel]

theorem masked_ne_zero (x : BitVec n) (h : n ≤ 32) (hk : k < n) :
    (x.setWidth (max 32 n) &&& (1#32 <<< k).signExtend (max 32 n) != 0) = x.getLsbD k := by
  generalize hmax : max 32 n = l
  obtain rfl : l = 32 := by omega
  rw [BitVec.signExtend_eq, ← BitVec.twoPow_eq, BitVec.and_twoPow, BitVec.getLsbD_setWidth,
    decide_eq_true (by omega : k < 32), Bool.true_and]
  split_ifs with hbit
  · rw [hbit, bne_iff_ne]
    intro h0
    have := congrArg (BitVec.getLsbD · k) h0
    simp [show k < 32 by omega] at this
  · simpa using hbit

/-- Reading a bit moves the reader one bit on. -/
theorem At.get (h : At m r p) (hw : w ≤ 4) :
    ∃ r', r.get = some (bitAt w m p, r') ∧ At m r' (p + 1) := by
  obtain ⟨hdptr, hpos, hused, haccum⟩ := h
  by_cases h0 : r.usedBits = 0
  · -- the next word is fetched
    have hp : p = r.blocks * (8 * w) := by omega
    have hdiv : p / (8 * w) = r.blocks := by
      rw [hp]
      exact Nat.mul_div_cancel _ (by omega)
    have hmod : p % (8 * w) = 0 := by rw [hp]; exact Nat.mul_mod_left _ _
    refine ⟨{ r with accum := word w m r.blocks, blocks := r.blocks + 1, usedBits := 8 * w - 1 },
      ?_, ⟨hdptr, ?_, by show 8 * w - 1 < 8 * w; omega, fun hpos' => ?_⟩⟩
    · simp only [BitReader.get, if_pos h0, shiftOne, if_pos (show 8 * w - 1 < 32 by omega),
        map_some, masked_ne_zero _ (show 8 * w ≤ 32 by omega) (show 8 * w - 1 < 8 * w by omega),
        bitAt, hdiv, hmod, hdptr, Nat.sub_zero]
    · show (r.blocks + 1) * (8 * w) = p + 1 + (8 * w - 1)
      rw [Nat.succ_mul r.blocks]
      omega
    · rw [hp, div_block (show 1 < 8 * w by omega)]
  · obtain ⟨k, hk⟩ : ∃ k, r.blocks = k + 1 := Nat.exists_eq_succ_of_ne_zero (by
      rintro hzero
      rw [hzero, zero_mul] at hpos
      omega)
    rw [hk, Nat.succ_mul k] at hpos
    have hp : p = k * (8 * w) + (8 * w - r.usedBits) := by omega
    have hmod : p % (8 * w) = 8 * w - r.usedBits := by
      rw [hp]
      exact Nat.mul_add_mod_of_lt (by omega)
    refine ⟨{ r with usedBits := r.usedBits - 1 }, ?_,
      ⟨hdptr, ?_, by show r.usedBits - 1 < 8 * w; omega, fun hpos' => ?_⟩⟩
    · simp only [BitReader.get, if_neg h0, shiftOne, if_pos (show r.usedBits - 1 < 32 by omega),
        map_some, masked_ne_zero _ (show 8 * w ≤ 32 by omega)
          (show r.usedBits - 1 < 8 * w by omega), bitAt, haccum (by omega), hmod]
      congr 3
      omega
    · show r.blocks * (8 * w) = p + 1 + (r.usedBits - 1)
      rw [hk, Nat.succ_mul k]
      omega
    · have hlt : 0 < r.usedBits - 1 := hpos'
      rw [haccum (by omega), show p + 1 = k * (8 * w) + (8 * w - r.usedBits + 1) by omega,
        div_block (by omega), hp, div_block (by omega)]

theorem At.reads (h : At m r p) (hw : w ≤ 4)
    (hbs : ∀ j < bs.length, bs[j]? = some (bitAt w m (p + j))) :
    ∃ r', Reads BitReader.get r bs r' ∧ At m r' (p + bs.length) := by
  induction bs generalizing r p with
  | nil => exact ⟨r, rfl, h⟩
  | cons c bs ih =>
    obtain ⟨r₁, hget, hat⟩ := h.get hw
    have hc : c = bitAt w m p := by simpa using hbs 0 (Nat.succ_pos _)
    obtain ⟨r₂, hreads, hat'⟩ := ih hat fun j hj => by
      have := hbs (j + 1) (Nat.succ_lt_succ hj)
      rwa [getElem?_cons_succ, show p + (j + 1) = p + 1 + j by omega] at this
    exact ⟨r₂, ⟨r₁, by rw [hget, hc], hreads⟩, by
      rwa [length_cons, show p + (bs.length + 1) = p + 1 + bs.length by omega]⟩

theorem At.reads_stored {cs ds : List Bool} (h : At m r bs.length) (hw : w ≤ 4)
    (hst : Stored w m (bs ++ cs ++ ds)) :
    ∃ r', Reads BitReader.get r cs r' ∧ At m r' (bs ++ cs).length := by
  rw [length_append]
  refine h.reads hw fun j hj => ?_
  have := hst (bs.length + j) (by simp only [length_append]; omega)
  rwa [append_assoc, getElem?_append_right (by omega), Nat.add_sub_cancel_left,
    getElem?_append_left hj] at this

theorem countZeros_eq {r t : BitReader w} {z fuel : ℕ} (hz : z < fuel)
    (h : Reads BitReader.get r (replicate z false ++ [true]) t) :
    r.countZeros fuel n = some (n + z, t) := by
  induction z generalizing r n fuel with
  | zero =>
    obtain ⟨fuel, rfl⟩ : ∃ k, fuel = k + 1 := ⟨fuel - 1, by omega⟩
    obtain ⟨u, hu, rfl⟩ := h
    simp [BitReader.countZeros, hu]
  | succ z ih =>
    obtain ⟨fuel, rfl⟩ : ∃ k, fuel = k + 1 := ⟨fuel - 1, by omega⟩
    obtain ⟨u, hu, h⟩ := h
    simp only [BitReader.countZeros, hu, bind_eq_bind, bind_some,
      Bool.false_eq_true, if_false]
    rw [ih (by omega) h, show n + 1 + z = n + (z + 1) by omega]

theorem eliasDeltaDecode_eq {r t : BitReader w} {x : ℕ} (hpos : 0 < x) (hx : x < 2 ^ 64)
    (h : Reads BitReader.get r (code x) t) : eliasDeltaDecode r = some (x, t) := by
  have hsize : 0 < size x := Nat.succ_pos _
  have hlog : log2 x < 64 := (Nat.log2_lt (Nat.pos_iff_ne_zero.mp hpos)).mpr hx
  have hlen : log2 (size x) < 7 :=
    (Nat.log2_lt (Nat.pos_iff_ne_zero.mp hsize)).mpr (by unfold size; omega)
  -- zeros and the first bit of the length, the rest of the length, the rest of the number
  rw [code, bits_succ_log2 hsize, append_cons, append_assoc, reads_append_iff] at h
  obtain ⟨r₁, hzeros, h⟩ := h
  obtain ⟨r₂, hlength, hnum⟩ := reads_append_iff.mp h
  have hone := shiftIn_eq shlInt (fun i _ => by
    have : size x / 2 ^ (i + 1) ≤ size x := Nat.div_le_self _ _
    exact if_pos (by unfold size at *; omega)) hlength
  have htwo := shiftIn_eq shlLong (fun i _ => by
    have : x / 2 ^ (i + 1) * 2 ≤ x := by
      rw [pow_succ, ← Nat.div_div_eq_div_mul]
      exact (Nat.div_mul_le_self _ 2).trans (Nat.div_le_self _ _)
    rw [shlLong, Nat.mod_eq_of_lt (by omega)]) hnum
  rw [div_two_pow_log2 hsize] at hone
  rw [div_two_pow_log2 hpos] at htwo
  simp only [eliasDeltaDecode, countZeros_eq (show log2 (size x) < 2 ^ 31 by omega) hzeros,
    bind_eq_bind, bind_some, zero_add, hone, show size x - 1 = log2 x from rfl,
    htwo]

/-! ## Sequences of numbers -/

/-- The word types: `uint8_t`, `uint16_t`, `uint32_t`, `uint64_t`. -/
inductive WordType
  | u8 | u16 | u32 | u64
  deriving DecidableEq, Repr

/-- `sizeof(T)`. -/
def WordType.bytes : WordType → ℕ
  | .u8 => 1
  | .u16 => 2
  | .u32 => 4
  | .u64 => 8

/-- Writes numbers one after another; with the bit position after each. -/
def encodeAll (b : BitWriter w) : List ℕ → BitWriter w × List ℕ
  | [] => (b, [])
  | x :: xs =>
    let b := eliasDeltaEncode b x
    let (last, positions) := encodeAll b xs
    (last, b.bits :: positions)

/-- Reads `n` numbers, each with the bit position after it. -/
def decodeAll (r : BitReader w) : ℕ → Option (List (ℕ × ℕ))
  | 0 => some []
  | n + 1 => do
    let (x, r) ← eliasDeltaDecode r
    let rest ← decodeAll r n
    some ((x, r.bits) :: rest)

/-- Whatever stood in the buffer: the numbers are read back from its start, and after each of them
the reader is where the writer was. -/
def RoundTrip (T : WordType) (xs : List ℕ) : Prop :=
  ∀ m : Buffer, let (b, positions) := encodeAll (BitWriter.new (w := T.bytes) m) xs
    decodeAll (BitReader.new (w := T.bytes) b.flush.dptr) xs.length = some (xs.zip positions)

theorem Written.encodeAll (h : Written top b bs) (xs : List ℕ) :
    Written top (encodeAll b xs).1 (bs ++ xs.flatMap code) := by
  induction xs generalizing b bs with
  | nil => simpa [Compressor.encodeAll] using h
  | cons x xs ih => simpa [Compressor.encodeAll] using ih (h.encode x)

theorem decodeAll_eq {xs : List ℕ} (hw : w ≤ 4) (hxs : ∀ x ∈ xs, 0 < x ∧ x < 2 ^ 64)
    (hb : Written top b bs) (hr : At m r bs.length) (hst : Stored w m (bs ++ xs.flatMap code)) :
    decodeAll r xs.length = some (xs.zip (encodeAll b xs).2) := by
  induction xs generalizing b bs r with
  | nil => rfl
  | cons x xs ih =>
    rw [flatMap_cons, ← append_assoc] at hst
    obtain ⟨r', hreads, hat⟩ := hr.reads_stored hw hst
    obtain ⟨hx, hlt⟩ := hxs x mem_cons_self
    have hb' := hb.encode x
    simp only [length_cons, decodeAll, eliasDeltaDecode_eq hx hlt hreads, bind_eq_bind,
      bind_some, ih (fun y hy => hxs y (mem_cons_of_mem x hy)) hb' hat hst,
      encodeAll, zip_cons_cons, hat.bits_eq, hb'.bits]

theorem eliasDeltaDecode_new_eq_none (m : Buffer) :
    eliasDeltaDecode (BitReader.new (w := 8) m) = none := rfl

theorem not_roundTrip_u64 {x : ℕ} {xs : List ℕ} : ¬RoundTrip .u64 (x :: xs) := by
  intro h
  have := h ⟨fun _ => 0, 0⟩
  simp [decodeAll, WordType.bytes, eliasDeltaDecode_new_eq_none] at this

/-- Positive numbers below `2^31` come back exactly when the words are shorter than eight bytes. -/
theorem decodeAll_encodeAll_iff {T : WordType} {xs : List ℕ} (hxs : ∀ x ∈ xs, 0 < x ∧ x < 2 ^ 31) :
    RoundTrip T xs ↔ T ≠ .u64 ∨ xs = [] := by
  constructor
  · intro h
    cases xs with
    | nil => exact .inr rfl
    | cons x xs =>
      refine .inl ?_
      rintro rfl
      exact not_roundTrip_u64 h
  · rintro (hT | rfl)
    · intro m
      have hpos : 0 < T.bytes := by cases T <;> decide
      have hw : T.bytes ≤ 4 := by
        cases T with
        | u64 => exact absurd rfl hT
        | _ => decide
      have hb := written_new hpos m
      exact decodeAll_eq hw (fun x hx => ⟨(hxs x hx).1, (hxs x hx).2.trans (by decide)⟩) hb
        (at_new hpos _) (hb.encodeAll xs).stored_flush.1
    · exact fun m => rfl

theorem decodeAll_encodeAll_iff_threeNumbers :
    (∀ x ∈ [1, 5, 1000000], 0 < x ∧ x < 2 ^ 31) ∧ RoundTrip .u16 [1, 5, 1000000] :=
  ⟨by decide, (decodeAll_encodeAll_iff (by decide)).mpr (.inl (by decide))⟩

/-- In words of 64 bits not even a single number comes back. -/
theorem single_number_lost : ¬RoundTrip .u64 [2] := not_roundTrip_u64

end MegatronDPU.Compressor
