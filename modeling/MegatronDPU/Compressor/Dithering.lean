import MegatronDPU.Compressor.BitStream
import MegatronDPU.Lib.While

/-!
# Dithering: the coded stream

`CompressImpl` writes, for each quantised element that is not zero, the distance from the last such
element, the sign and the level. After the stream it stores the number of bits, in a word of the
element's size, and the scale.

The bit count is cut to the word (`not_restores_fp16`), and the number of words is computed in
`float`, so that at 2^24 + 1 bits the bit count overwrites the last bit of the stream
(`not_restores_fp32`).
-/

namespace MegatronDPU.Compressor

open Bytes EliasDelta List

/-! ## Definitions -/

/-- The types of the `*_IMPL_SWITCH` macros. -/
inductive FloatType
  | fp16 | fp32 | fp64
  deriving DecidableEq, Repr

/-- `sizeof(scalar_t)`, also `sizeof(index_t)`. -/
def FloatType.bytes : FloatType → ℕ
  | .fp16 => 2
  | .fp32 => 4
  | .fp64 => 8

/-- `Align(size, dtype)`. -/
def align (size bytes : ℕ) : ℕ :=
  let minSize := bytes * bytes * 8
  size + (minSize - size % minSize) % minSize

/-- Bytes of the buffer of a compressor for `n` elements. -/
def capacity (d : FloatType) (n : ℕ) : ℕ := align (n * d.bytes) d.bytes

/-- An element after quantisation. -/
structure Quantised where
  signbit : Bool
  quantized : UInt32
  deriving DecidableEq, Repr

variable {w : ℕ}

/-- The loop of `CompressImpl`; `last_non_zero_pos` is a `size_t` that starts at -1. -/
def encodeLevels (b : BitWriter w) (last i : UInt64) : List Quantised → BitWriter w
  | [] => b
  | q :: qs =>
    if q.quantized = 0 then encodeLevels b last (i + 1) qs
    else
      let b := eliasDeltaEncode b (i - last).toNat
      let b := b.put q.signbit
      let b := eliasDeltaEncode b q.quantized.toNat
      encodeLevels b i (i + 1) qs

/-- `CompressImpl` from the levels on: the buffer and the size returned. -/
def compressImpl (dst : Buffer) (scale : BitVec (8 * 4)) (qs : List Quantised) : Buffer × ℕ :=
  let b := (encodeLevels (BitWriter.new (w := w) dst) (-1) 0 qs).flush
  let m := b.dptr.store (w * b.blockCount) (BitVec.ofNat (8 * w) b.bits)
  let m := m.store (w * (b.blockCount + 1)) scale
  (m, b.blockCount * w + w + 4)

/-- An element of the output: zero, or `(1 - 2 * signbit) * (quantized * scale / s)`. -/
inductive Cell
  | zero
  | num (signbit : Bool) (quantized : UInt32) (scale : BitVec (8 * 4))
  deriving DecidableEq, Repr

/-- The variables of the loop of `DecompressImpl`. -/
structure Decoding (w : ℕ) where
  reader : BitReader w
  last : UInt64
  dst : List Cell

/-- The body of the loop of `DecompressImpl`. A write outside `dst` is undefined. -/
def decodeNext (scale : BitVec (8 * 4)) (s : Decoding w) : Option (Decoding w) := do
  let (diff, r) ← eliasDeltaDecode s.reader
  let i := s.last + UInt64.ofNat diff
  let (signbit, r) ← r.get
  let (quantized, r) ← eliasDeltaDecode r
  if i.toNat < s.dst.length then
    some ⟨r, i, s.dst.set i.toNat (.num signbit (UInt32.ofNat quantized) scale)⟩
  else none

/-- `while (bit_reader.bits() < bits)`. Every round reads a bit. -/
def decodeWhile (bits : ℕ) (scale : BitVec (8 * 4)) (fuel : ℕ) (s : Decoding w) :
    Option (Decoding w) :=
  Loop.run (fun s => decide (s.reader.bits < bits)) (decodeNext scale) fuel s

/-- `DecompressImpl` of a compressor with the buffer `buf` of `size` bytes; `inPlace` says that
`dst` and `src` are the same memory. -/
def decompressImpl (w size : ℕ) (buf src : Buffer) (inPlace : Bool) (compressedSize : ℕ) :
    Option (List Cell) :=
  let blocks := (compressedSize - 4 - w) / w
  let bits := (word w src blocks).toNat
  let scale := src.load 4 (w * (blocks + 1))
  let ptr := if inPlace then buf.copy compressedSize src else src
  (decodeWhile bits scale bits
    ⟨BitReader.new (w := w) ptr, -1, replicate (size / w) .zero⟩).map Decoding.dst

/-- What an element is decompressed to. -/
def cell (scale : BitVec (8 * 4)) (q : Quantised) : Cell :=
  if q.quantized = 0 then .zero else .num q.signbit q.quantized scale

/-- `CompressImpl` writes no byte outside the buffer. -/
def Fits (d : FloatType) (qs : List Quantised) : Prop :=
  ∀ (m : Buffer) (scale : BitVec (8 * 4)), m.top = 0 →
    (compressImpl (w := d.bytes) m scale qs).1.top ≤ capacity d qs.length

/-- Decompression of the compressed elements gives each one's sign, level and scale where it is not
zero, and zeros elsewhere. -/
def Restores (d : FloatType) (qs : List Quantised) : Prop :=
  ∀ (m buf : Buffer) (scale : BitVec (8 * 4)) (inPlace : Bool),
    let c := compressImpl (w := d.bytes) m scale qs
    decompressImpl d.bytes (capacity d qs.length) buf c.1 inPlace c.2 =
      some (qs.map (cell scale) ++
        replicate (capacity d qs.length / d.bytes - qs.length) .zero)

/-! ## The stream -/

/-- The bits of the loop of `CompressImpl`. -/
def stream (last i : UInt64) : List Quantised → List Bool
  | [] => []
  | q :: qs =>
    if q.quantized = 0 then stream last (i + 1) qs
    else code (i - last).toNat ++ [q.signbit] ++ code q.quantized.toNat ++ stream i (i + 1) qs

/-- The length of the coded stream. -/
def codedBits (qs : List Quantised) : ℕ := (stream (-1) 0 qs).length

variable {b : BitWriter w} {m : Buffer} {bs : List Bool} {q : Quantised} {qs rs : List Quantised}
  {last i : UInt64} {scale : BitVec (8 * 4)}

theorem stream_cons_zero (h : q.quantized = 0) :
    stream last i (q :: qs) = stream last (i + 1) qs := if_pos h

theorem stream_cons (h : q.quantized ≠ 0) : stream last i (q :: qs) =
    code (i - last).toNat ++ [q.signbit] ++ code q.quantized.toNat ++ stream i (i + 1) qs :=
  if_neg h

theorem encodeLevels_eq (b : BitWriter w) (last i : UInt64) (qs : List Quantised) :
    encodeLevels b last i qs = b.putAll (stream last i qs) := by
  induction qs generalizing b last i with
  | nil => rfl
  | cons q qs ih =>
    rw [encodeLevels]
    split_ifs with h
    · rw [ih, stream_cons_zero h]
    · simp only [ih, stream_cons h, eliasDeltaEncode_eq, BitWriter.putAll, foldl_append,
        foldl_cons, foldl_nil]

theorem stream_append_zeros (h : ∀ q ∈ rs, q.quantized = 0) :
    stream last i (qs ++ rs) = stream last i qs := by
  induction qs generalizing last i with
  | nil =>
    induction rs generalizing i with
    | nil => rfl
    | cons q rs ih =>
      rw [nil_append, stream_cons_zero (h q mem_cons_self)]
      exact ih fun q hq => h q (mem_cons_of_mem _ hq)
  | cons q qs ih =>
    by_cases hq : q.quantized = 0
    · rw [cons_append, stream_cons_zero hq, stream_cons_zero hq, ih]
    · rw [cons_append, stream_cons hq, stream_cons hq, ih]

/-- The entry of an element that follows another one that is not zero. -/
def entry (q : Quantised) : List Bool := true :: q.signbit :: code q.quantized.toNat

theorem stream_append_of_forall_ne (h : ∀ q ∈ qs, q.quantized ≠ 0) (i : UInt64)
    (rs : List Quantised) :
    ∃ j, stream (i - 1) i (qs ++ rs) = qs.flatMap entry ++ stream (j - 1) j rs := by
  induction qs generalizing i with
  | nil => exact ⟨i, rfl⟩
  | cons q qs ih =>
    obtain ⟨j, hj⟩ := ih (fun q hq => h q (mem_cons_of_mem _ hq)) (i + 1)
    rw [UInt64.add_sub_cancel] at hj
    have hcode : code (i - (i - 1)).toNat = [true] := by
      rw [show i - (i - 1) = 1 by grind]
      decide
    refine ⟨j, ?_⟩
    rw [cons_append, stream_cons (h q mem_cons_self), hcode, hj]
    simp [entry]

theorem codedBits_eq_of_forall_ne (h : ∀ q ∈ qs, q.quantized ≠ 0) :
    stream (-1) 0 qs = qs.flatMap entry := by
  obtain ⟨j, hj⟩ := stream_append_of_forall_ne h 0 []
  simpa [stream] using hj

/-! ## The buffer after compression -/

/-- The number of words for `n` bits, as `blocks()` computes it. -/
def countedWords (w n : ℕ) : ℕ := (toFloat n + (8 * w - 1)) / (8 * w)

/-- The end of what is written for a stream of `n` bits: its words, the bit count, the scale. -/
def extent (w n : ℕ) : ℕ :=
  max (w * ((n + (8 * w - 1)) / (8 * w))) (w * (countedWords w n + 1) + 4)

/-- The buffer has the words of the flushed stream, with the bit count and the scale written over
them. -/
theorem compressImpl_eq (hw : 0 < w) (m : Buffer) (scale : BitVec (8 * 4)) (qs : List Quantised) :
    ∃ f : Buffer, Stored w f (stream (-1) 0 qs) ∧
      f.top = max m.top (w * ((codedBits qs + (8 * w - 1)) / (8 * w))) ∧
      compressImpl (w := w) m scale qs =
        ((f.store (w * countedWords w (codedBits qs))
            (BitVec.ofNat (8 * w) (codedBits qs))).store
            (w * (countedWords w (codedBits qs) + 1)) scale,
          countedWords w (codedBits qs) * w + w + 4) := by
  have hb := ((written_new hw m).putAll (stream (-1) 0 qs)).stored_flush
  rw [nil_append] at hb
  obtain ⟨hst, htop, hbits⟩ := hb
  refine ⟨_, hst, htop, ?_⟩
  simp only [compressImpl, encodeLevels_eq, BitWriter.blockCount, hbits]
  rfl

theorem top_compressImpl (hw : 0 < w) (hm : m.top = 0) (scale : BitVec (8 * 4))
    (qs : List Quantised) :
    (compressImpl (w := w) m scale qs).1.top = extent w (codedBits qs) := by
  obtain ⟨f, -, htop, heq⟩ := compressImpl_eq hw m scale qs
  have hsucc : w * (countedWords w (codedBits qs) + 1) = w * countedWords w (codedBits qs) + w :=
    Nat.mul_succ _ _
  rw [heq, Buffer.top_store, Buffer.top_store, htop, hm, extent, hsucc]
  omega

theorem bytes_pos (d : FloatType) : 0 < d.bytes := by cases d <;> decide

variable {d : FloatType} {n k : ℕ}

theorem fits_iff : Fits d qs ↔ extent d.bytes (codedBits qs) ≤ capacity d qs.length := by
  constructor
  · intro h
    rw [← top_compressImpl (m := ⟨fun _ => 0, 0⟩) (bytes_pos d) rfl 0]
    exact h _ _ rfl
  · intro h m scale hm
    rwa [top_compressImpl (bytes_pos d) hm]

/-! ## Decompression -/

theorem toNat_succ (hi : i.toNat = n) (hn : n + 1 < 2 ^ 64) : (i + 1).toNat = n + 1 := by
  rw [UInt64.toNat_add, hi, UInt64.toNat_one, Nat.mod_eq_of_lt hn]

/-- The loop reads the entries that remain and leaves zeros between them. `bs` are the bits read so
far, `pre` the elements done so far. -/
theorem decodeWhile_eq (bs : List Bool) (pre : List Cell) (scale : BitVec (8 * 4))
    {r : BitReader w} {bits fuel : ℕ} (hw : w ≤ 4) (hi : i.toNat = pre.length)
    (hlast : (last + 1).toNat ≤ i.toNat) (hlen : pre.length + qs.length < 2 ^ 64)
    (hk : qs.length ≤ k) (hr : At m r bs.length) (hst : Stored w m (bs ++ stream last i qs))
    (hbits : bits = (bs ++ stream last i qs).length) (hfuel : (stream last i qs).length ≤ fuel) :
    ∃ r' l, decodeWhile bits scale fuel ⟨r, last, pre ++ replicate k .zero⟩ =
      some ⟨r', l, pre ++ qs.map (cell scale) ++ replicate (k - qs.length) .zero⟩ := by
  induction qs generalizing r pre k fuel last i bs with
  | nil =>
    refine ⟨r, last, ?_⟩
    rw [decodeWhile, Loop.run_of_not]
    · simp
    · simp [hr.bits_eq, hbits, stream]
  | cons q qs ih =>
    rw [length_cons] at hlen hk
    obtain ⟨k, rfl⟩ : ∃ k', k = k' + 1 := ⟨k - 1, by omega⟩
    have hnext : (i + 1).toNat = pre.length + 1 := toNat_succ hi (by omega)
    by_cases hq : q.quantized = 0
    · -- no entry: the element stays zero
      rw [stream_cons_zero hq] at hst hbits hfuel
      obtain ⟨r', l, hrun⟩ := ih bs (pre ++ [.zero]) (k := k) (by simpa using hnext) (by omega)
        (by rw [length_append, length_singleton]; omega) (by omega) hr hst
        hbits hfuel
      refine ⟨r', l, ?_⟩
      rw [replicate_succ, append_cons, hrun]
      simp [cell, hq]
    · rw [stream_cons hq] at hst hbits hfuel
      have hne : 0 < (i - last).toNat := by
        refine pos_of_ne_zero fun h0 => ?_
        have hsub : i - last = 0 := UInt64.toNat_inj.mp h0
        obtain rfl : i = last := by grind
        omega
      have hlevel : 0 < q.quantized.toNat :=
        pos_of_ne_zero fun h0 => hq (UInt32.toNat_inj.mp h0)
      -- distance, sign and level
      simp only [← append_assoc] at hst hbits
      obtain ⟨r₁, hreads₁, hat₁⟩ := hr.reads_stored hw (show Stored w m (bs ++
        code (i - last).toNat ++ ([q.signbit] ++ code q.quantized.toNat ++ stream i (i + 1) qs)) by
        simpa only [append_assoc] using hst)
      obtain ⟨r₂, ⟨_, hget, rfl⟩, hat₂⟩ := hat₁.reads_stored hw (show Stored w m (bs ++
        code (i - last).toNat ++ [q.signbit] ++ (code q.quantized.toNat ++ stream i (i + 1) qs)) by
        simpa only [append_assoc] using hst)
      obtain ⟨r₃, hreads₃, hat₃⟩ := hat₂.reads_stored hw hst
      obtain ⟨fuel, rfl⟩ : ∃ n, fuel = n + 1 := ⟨fuel - 1, by
        have := one_le_length_code (i - last).toNat
        simp only [length_append] at hfuel
        omega⟩
      obtain ⟨r', l, hrun⟩ := ih _ (pre ++ [cell scale q]) (k := k) (by simpa using hnext)
        (show (i + 1).toNat ≤ (i + 1).toNat from le_rfl)
        (by rw [length_append, length_singleton]; omega) (by omega) hat₃ hst hbits
        (show (stream i (i + 1) qs).length ≤ fuel by
          simp only [length_append, length_singleton] at hfuel
          omega)
      refine ⟨r', l, ?_⟩
      have hcond : r.bits < bits := by
        have := one_le_length_code (i - last).toNat
        rw [hr.bits_eq, hbits]
        simp only [length_append]
        omega
      have hbody : decodeNext scale ⟨r, last, pre ++ replicate (k + 1) .zero⟩ =
          some ⟨r₃, i, pre ++ [cell scale q] ++ replicate k .zero⟩ := by
        have hin : pre.length < (pre ++ replicate (k + 1) Cell.zero).length := by simp
        simp only [decodeNext, eliasDeltaDecode_eq hne (UInt64.toNat_lt _) hreads₁,
          Option.bind_eq_bind, Option.bind_some, hget, UInt64.ofNat_toNat,
          UInt64.add_comm last, UInt64.sub_add_cancel,
          eliasDeltaDecode_eq hlevel ((UInt32.toNat_lt _).trans (by decide)) hreads₃,
          UInt32.ofNat_toNat, hi, if_pos hin]
        rw [set_append_right _ _ le_rfl, Nat.sub_self, replicate_succ, set_cons_zero,
          cell, if_neg hq, append_assoc, singleton_append]
      rw [decodeWhile] at hrun ⊢
      rw [Loop.run, if_pos (by simpa using hcond), hbody, Option.bind_some, hrun]
      simp

theorem decodeWhile_new_eq (scale : BitVec (8 * 4)) (hpos : 0 < w) (hw : w ≤ 4)
    (hlen : qs.length < 2 ^ 64) (hk : qs.length ≤ k) (hst : Stored w m (stream (-1) 0 qs)) :
    (decodeWhile (codedBits qs) scale (codedBits qs)
        ⟨BitReader.new (w := w) m, -1, replicate k .zero⟩).map Decoding.dst =
      some (qs.map (cell scale) ++ replicate (k - qs.length) .zero) := by
  obtain ⟨r, l, hrun⟩ := decodeWhile_eq [] [] scale hw (by rfl) (by decide) (by simpa using hlen) hk
    (at_new hpos m) hst (show codedBits qs = _ from rfl)
    (show (stream (-1) 0 qs).length ≤ codedBits qs from le_rfl)
  simp only [nil_append] at hrun
  rw [hrun, Option.map_some]

/-! ## Decompression of what was compressed -/

theorem bitAt_compressed {f : Buffer} {c p : ℕ} {x : BitVec (8 * w)} (h : p / (8 * w) < c) :
    bitAt w ((f.store (w * c) x).store (w * (c + 1)) scale) p = bitAt w f p := by
  have hword : w * (p / (8 * w)) + w ≤ w * c := by
    rw [← Nat.mul_succ]
    exact Nat.mul_le_mul_left w h
  have hnext : w * c ≤ w * (c + 1) := Nat.mul_le_mul_left w (Nat.le_succ c)
  rw [bitAt, bitAt, word, word, Buffer.load_store_of_disjoint _ (.inl (by omega)),
    Buffer.load_store_of_disjoint _ (.inl hword)]

theorem word_compressed {f : Buffer} {c : ℕ} {x : BitVec (8 * w)} :
    word w ((f.store (w * c) x).store (w * (c + 1)) scale) c = x := by
  rw [word, Buffer.load_store_of_disjoint _ (.inl (by rw [← Nat.mul_succ])), Buffer.load_store]

def readFrom (w : ℕ) (m buf : Buffer) (scale : BitVec (8 * 4)) (inPlace : Bool)
    (qs : List Quantised) : Buffer :=
  let c := compressImpl (w := w) m scale qs
  if inPlace then buf.copy c.2 c.1 else c.1

/-- The size says where the bit count and the scale are; the count is cut to a word. -/
theorem decompressImpl_compressImpl (hpos : 0 < w) (size : ℕ) (m buf : Buffer)
    (scale : BitVec (8 * 4)) (inPlace : Bool) (qs : List Quantised) :
    decompressImpl w size buf (compressImpl (w := w) m scale qs).1 inPlace
        (compressImpl (w := w) m scale qs).2 =
      (decodeWhile (codedBits qs % 2 ^ (8 * w)) scale (codedBits qs % 2 ^ (8 * w))
        ⟨BitReader.new (w := w) (readFrom w m buf scale inPlace qs), -1,
          replicate (size / w) .zero⟩).map Decoding.dst := by
  obtain ⟨f, -, -, heq⟩ := compressImpl_eq hpos m scale qs
  have hblocks : ((compressImpl (w := w) m scale qs).2 - 4 - w) / w =
      countedWords w (codedBits qs) := by
    rw [heq]
    exact Nat.div_eq_of_eq_mul_left hpos (by omega)
  have hbits : (word w (compressImpl (w := w) m scale qs).1
      (countedWords w (codedBits qs))).toNat = codedBits qs % 2 ^ (8 * w) := by
    rw [heq, word_compressed, BitVec.toNat_ofNat]
  have hscale : (compressImpl (w := w) m scale qs).1.load 4
      (w * (countedWords w (codedBits qs) + 1)) = scale := by
    rw [heq, Buffer.load_store]
  simp only [decompressImpl, hblocks, hbits, hscale, readFrom]

theorem restores_iff : Restores d qs ↔ ∀ m buf scale inPlace,
    (decodeWhile (codedBits qs % 2 ^ (8 * d.bytes)) scale (codedBits qs % 2 ^ (8 * d.bytes))
        ⟨BitReader.new (w := d.bytes) (readFrom d.bytes m buf scale inPlace qs), -1,
          replicate (capacity d qs.length / d.bytes) .zero⟩).map Decoding.dst =
      some (qs.map (cell scale) ++
        replicate (capacity d qs.length / d.bytes - qs.length) .zero) := by
  simp only [Restores, decompressImpl_compressImpl (bytes_pos d)]

theorem stored_readFrom {buf : Buffer} {inPlace : Bool} (hpos : 0 < w)
    (hst : Stored w (compressImpl (w := w) m scale qs).1 bs)
    (hwithin : bs.length ≤ (countedWords w (codedBits qs) + 1) * (8 * w)) :
    Stored w (readFrom w m buf scale inPlace qs) bs := by
  cases inPlace with
  | false => exact hst
  | true =>
    intro p hp
    have hlt : p / (8 * w) < countedWords w (codedBits qs) + 1 :=
      Nat.div_lt_of_lt_mul (by rw [mul_comm]; exact lt_of_lt_of_le hp hwithin)
    have hend : w * (p / (8 * w)) + w ≤ (compressImpl (w := w) m scale qs).2 := by
      obtain ⟨f, -, -, heq⟩ := compressImpl_eq hpos m scale qs
      have := Nat.mul_le_mul_left w hlt
      rw [Nat.mul_succ, Nat.mul_succ, mul_comm w (countedWords _ _)] at this
      rw [heq]
      omega
    rw [hst p hp, bitAt, bitAt, word, word, readFrom, if_pos rfl, Buffer.load_copy hend]

/-! ## Streams that are restored -/

theorem le_capacity (d : FloatType) (n : ℕ) : n ≤ capacity d n / d.bytes := by
  rw [Nat.le_div_iff_mul_le (bytes_pos d)]
  exact Nat.le_add_right _ _

theorem le_words_mul (hw : 0 < w) : n ≤ (n + (8 * w - 1)) / (8 * w) * (8 * w) := by
  have hsplit := Nat.div_add_mod (n + (8 * w - 1)) (8 * w)
  have hmod := Nat.mod_lt (n + (8 * w - 1)) (show 0 < 8 * w by omega)
  rw [mul_comm]
  omega

theorem bytes_le_four (hd : d ≠ .fp64) : d.bytes ≤ 4 := by
  cases d with
  | fp64 => exact absurd rfl hd
  | _ => decide

theorem restores_of_codedBits (hd : d ≠ .fp64) (hlen : qs.length < 2 ^ 64)
    (hfloat : codedBits qs ≤ 2 ^ 24) (hword : codedBits qs < 2 ^ (8 * d.bytes)) :
    Restores d qs := by
  refine restores_iff.mpr fun m buf scale inPlace => ?_
  have hpos := bytes_pos d
  have hcount : codedBits qs ≤ countedWords d.bytes (codedBits qs) * (8 * d.bytes) := by
    rw [countedWords, toFloat_of_le hfloat]
    exact le_words_mul hpos
  have hst : Stored d.bytes (compressImpl (w := d.bytes) m scale qs).1 (stream (-1) 0 qs) := by
    obtain ⟨f, hst, -, heq⟩ := compressImpl_eq hpos m scale qs
    intro p hp
    have hlt : p / (8 * d.bytes) < countedWords d.bytes (codedBits qs) :=
      Nat.div_lt_of_lt_mul (by rw [mul_comm]; exact lt_of_lt_of_le hp hcount)
    rw [heq, bitAt_compressed hlt, hst p hp]
  rw [Nat.mod_eq_of_lt hword]
  exact decodeWhile_new_eq scale hpos (bytes_le_four hd) hlen (le_capacity d _)
    (stored_readFrom hpos hst (hcount.trans (Nat.mul_le_mul_right _ (Nat.le_succ _))))

theorem decodeWhile_zero (s : Decoding w) : decodeWhile 0 scale 0 s = some s :=
  Loop.run_of_not _ (by simp)

theorem restores_nil (d : FloatType) : Restores d [] := by
  refine restores_iff.mpr fun m buf scale inPlace => ?_
  rw [show codedBits [] = 0 from rfl, Nat.zero_mod, decodeWhile_zero]
  rfl

/-! ## Streams that are not -/

/-- The count of a stream of as many bits as a multiple of `2^16` is zero. -/
theorem not_restores_of_wrapped (hne : q.quantized ≠ 0)
    (hbits : codedBits (q :: qs) % 2 ^ (8 * d.bytes) = 0) : ¬Restores d (q :: qs) := by
  intro h
  have hres := restores_iff.mp h ⟨fun _ => 0, 0⟩ ⟨fun _ => 0, 0⟩ 0 false
  rw [hbits, decodeWhile_zero, Option.map_some] at hres
  -- the first element comes out as zero
  have hhead := congrArg (Option.map head?) hres
  obtain ⟨k, hk⟩ : ∃ k, capacity d (q :: qs).length / d.bytes = k + 1 :=
    Nat.exists_eq_succ_of_ne_zero (by
      have := le_capacity d (q :: qs).length
      have : 0 < (q :: qs).length := Nat.succ_pos _
      omega)
  rw [hk] at hhead
  simp [replicate_succ, cell, hne] at hhead

theorem decodeWhile_new_eq_none (hw : w = 8) (hn : n ≠ 0) (dst : List Cell) :
    decodeWhile n scale n ⟨BitReader.new (w := w) m, last, dst⟩ = none := by
  subst hw
  obtain ⟨n, rfl⟩ := Nat.exists_eq_succ_of_ne_zero hn
  have hbody : decodeNext scale ⟨BitReader.new (w := 8) m, last, dst⟩ = none := by
    rw [decodeNext, eliasDeltaDecode_new_eq_none]
    rfl
  rw [decodeWhile, Loop.run, if_pos (by simp [BitReader.new, BitReader.bits]), hbody]
  rfl

theorem not_restores_fp64 (hbits : codedBits qs % 2 ^ (8 * FloatType.fp64.bytes) ≠ 0) :
    ¬Restores .fp64 qs := by
  intro h
  have hres := restores_iff.mp h ⟨fun _ => 0, 0⟩ ⟨fun _ => 0, 0⟩ 0 false
  rw [decodeWhile_new_eq_none (w := FloatType.fp64.bytes) rfl hbits] at hres
  cases hres

theorem length_flatMap_entry (n : ℕ) (q : Quantised) :
    ((replicate n q).flatMap entry).length = n * (entry q).length := by
  rw [length_flatMap, map_replicate, sum_replicate, smul_eq_mul]

/-- A level whose code ends with a 1. -/
def lastLevel : Quantised := ⟨false, 4194305⟩

def lastLevelRead : Quantised := ⟨false, 4194304⟩

theorem entry_lastLevel : ∃ bs : List Bool, bs.length = 32 ∧ entry lastLevel = bs ++ [true] ∧
      entry lastLevelRead = bs ++ [false] :=
  ⟨(entry lastLevel).dropLast, by decide, by decide, by decide⟩

/-- Elements with codes of `2^24 - 32` bits, and one of 33 bits after them. The last bit is
overwritten by the bit count. -/
theorem not_restores_fp32 {as zs : List Quantised} (has : ∀ q ∈ as, q.quantized ≠ 0)
    (hzs : ∀ q ∈ zs, q.quantized = 0) (hlen : as.length < 2 ^ 32)
    (hbits : (as.flatMap entry).length = 2 ^ 24 - 32) :
    ¬Restores .fp32 (as ++ [lastLevel] ++ zs) := by
  obtain ⟨es, hes, hwritten, hread⟩ := entry_lastLevel
  have hstream : ∀ x : Quantised, x.quantized ≠ 0 →
      stream (-1) 0 (as ++ [x]) = as.flatMap entry ++ entry x := by
    intro x hx
    rw [codedBits_eq_of_forall_ne]
    · simp
    · rintro q hq
      rcases mem_append.mp hq with hq | hq
      · exact has q hq
      · rwa [mem_singleton.mp hq]
  have hone : stream (-1) 0 (as ++ [lastLevel] ++ zs) = as.flatMap entry ++ es ++ [true] := by
    rw [stream_append_zeros hzs, hstream _ (by decide), hwritten, append_assoc]
  have hzero : stream (-1) 0 (as ++ [lastLevelRead]) = as.flatMap entry ++ es ++ [false] := by
    rw [hstream _ (by decide), hread, append_assoc]
  have hcommon : (as.flatMap entry ++ es).length = 2 ^ 24 := by
    rw [length_append, hbits, hes]
    norm_num
  have hcoded : codedBits (as ++ [lastLevel] ++ zs) = 2 ^ 24 + 1 := by
    rw [codedBits, hone, length_append, hcommon, length_singleton]
  have hcoded' : codedBits (as ++ [lastLevelRead]) = 2 ^ 24 + 1 := by
    rw [codedBits, hzero, length_append, hcommon, length_singleton]
  have hwords : countedWords 4 (2 ^ 24 + 1) = 2 ^ 19 := by decide
  intro h
  have hres := restores_iff.mp h ⟨fun _ => 0, 0⟩ ⟨fun _ => 0, 0⟩ 0 false
  -- what is read is the stream with the other level
  have hst : Stored 4 (readFrom 4 ⟨fun _ => 0, 0⟩ ⟨fun _ => 0, 0⟩ 0 false
      (as ++ [lastLevel] ++ zs)) (stream (-1) 0 (as ++ [lastLevelRead])) := by
    apply stored_readFrom (by decide)
    · obtain ⟨f, hf, -, heq⟩ := compressImpl_eq (w := 4) (by decide) ⟨fun _ => 0, 0⟩ 0
        (as ++ [lastLevel] ++ zs)
      rw [hcoded, hwords] at heq
      rw [heq, hzero]
      intro p hp
      rw [length_append, hcommon, length_singleton] at hp
      rcases Nat.lt_succ_iff_lt_or_eq.mp hp with hlt | rfl
      · have hp' : p < (as.flatMap entry ++ es).length := by rwa [hcommon]
        rw [bitAt_compressed (by omega), ← hf p (by rw [← codedBits, hcoded]; omega), hone,
          getElem?_append_left hp', getElem?_append_left hp']
      · rw [← hcommon, getElem?_concat_length, hcommon, bitAt,
          show 2 ^ 24 / (8 * 4) = 2 ^ 19 from rfl, word_compressed]
        decide
    · rw [← codedBits, hcoded', hcoded, hwords]
      decide
  have hread := decodeWhile_new_eq 0 (k := capacity .fp32 (as ++ [lastLevel] ++ zs).length / 4)
    (by decide) (by decide) (by simp only [length_append, length_singleton]; omega)
    (by
      have := le_capacity .fp32 (as ++ [lastLevel] ++ zs).length
      simp only [length_append, length_singleton, FloatType.bytes] at this ⊢
      omega) hst
  rw [hcoded', ← hcoded, ← Nat.mod_eq_of_lt (show codedBits (as ++ [lastLevel] ++ zs) < 2 ^ 32 by
    rw [hcoded]; decide)] at hread
  have hcells := Option.some.inj (hread.symm.trans hres)
  have hcell := congrArg (·[as.length]?) hcells
  simp [cell, lastLevel, lastLevelRead] at hcell

/-! ## The lengths that are restored -/

/-- The number of elements up to which every vector that fits is restored. -/
def longest : FloatType → ℕ
  | .fp16 => 4096
  | .fp32 => 524288
  | .fp64 => 0

theorem restores_of_le_longest (hlen : qs.length ≤ longest d) (hfits : Fits d qs) :
    Restores d qs := by
  rw [fits_iff, extent, max_le_iff] at hfits
  obtain ⟨hwords, hend⟩ := hfits
  cases d with
  | fp16 =>
    simp only [longest, capacity, align, FloatType.bytes] at hlen hwords hend
    have hfloat : codedBits qs ≤ 2 ^ 24 := by omega
    rw [countedWords, toFloat_of_le hfloat] at hend
    exact restores_of_codedBits (by decide) (by omega) hfloat
      (show codedBits qs < 2 ^ 16 by omega)
  | fp32 =>
    simp only [longest, capacity, align, FloatType.bytes] at hlen hwords
    have hfloat : codedBits qs ≤ 2 ^ 24 := by omega
    exact restores_of_codedBits (by decide) (by omega) hfloat
      (show codedBits qs < 2 ^ 32 by omega)
  | fp64 =>
    rw [eq_nil_of_length_eq_zero (Nat.le_zero.mp hlen)]
    exact restores_nil _

theorem codedBits_append_zeros : codedBits (qs ++ replicate k ⟨false, 0⟩) = codedBits qs := by
  rw [codedBits, stream_append_zeros (fun q hq => by rw [eq_of_mem_replicate hq]), codedBits]

theorem codedBits_replicate (h : q.quantized ≠ 0) :
    codedBits (replicate n q) = n * (entry q).length := by
  rw [codedBits, codedBits_eq_of_forall_ne (fun x hx => by rwa [eq_of_mem_replicate hx]),
    length_flatMap_entry]

/-- 4096 levels of 8 bits with entries of 16 bits each, and `k` zeros. -/
def wrapping (k : ℕ) : List Quantised :=
  ⟨false, 255⟩ :: replicate 4095 ⟨false, 255⟩ ++ replicate k ⟨false, 0⟩

theorem length_wrapping (k : ℕ) : (wrapping k).length = 4096 + k := by
  rw [wrapping, length_append, length_cons, length_replicate, length_replicate]

theorem codedBits_wrapping (k : ℕ) : codedBits (wrapping k) = 65536 := by
  rw [wrapping, codedBits_append_zeros, ← replicate_succ, codedBits_replicate (by decide),
    show (entry ⟨false, 255⟩).length = 16 by decide]

theorem fits_wrapping (hk : 0 < k) : Fits .fp16 (wrapping k) := by
  rw [fits_iff, codedBits_wrapping, length_wrapping,
    show extent FloatType.fp16.bytes 65536 = 8198 by decide]
  simp only [capacity, align, FloatType.bytes]
  omega

theorem not_restores_wrapping (k : ℕ) : ¬Restores .fp16 (wrapping k) :=
  not_restores_of_wrapped (by decide) (by
    show codedBits (wrapping k) % 2 ^ 16 = 0
    rw [codedBits_wrapping]
    decide)

/-- Levels of 22 bits with entries of 32 bits each, the last level, and `k` zeros. -/
def overwriting (k : ℕ) : List Quantised :=
  replicate 524287 ⟨false, 2097152⟩ ++ [lastLevel] ++ replicate k ⟨false, 0⟩

theorem length_overwriting (k : ℕ) : (overwriting k).length = 524288 + k := by
  rw [overwriting, length_append, length_append, length_replicate,
    length_replicate, length_singleton]

theorem length_overwriting_head :
    ((replicate 524287 (⟨false, 2097152⟩ : Quantised)).flatMap entry).length = 2 ^ 24 - 32 := by
  rw [length_flatMap_entry, show (entry ⟨false, 2097152⟩).length = 32 by decide]
  norm_num

theorem codedBits_overwriting (k : ℕ) : codedBits (overwriting k) = 2 ^ 24 + 1 := by
  have hne : ∀ q ∈ replicate 524287 (⟨false, 2097152⟩ : Quantised) ++ [lastLevel],
      q.quantized ≠ 0 := by
    intro q hq
    rcases mem_append.mp hq with hq | hq
    · rw [eq_of_mem_replicate hq]
      decide
    · rw [mem_singleton.mp hq]
      decide
  rw [overwriting, codedBits_append_zeros, codedBits, codedBits_eq_of_forall_ne hne,
    flatMap_append, length_append, length_overwriting_head, flatMap_singleton,
    show (entry lastLevel).length = 33 by decide]
  norm_num

theorem fits_overwriting (hk : 0 < k) : Fits .fp32 (overwriting k) := by
  rw [fits_iff, codedBits_overwriting, length_overwriting,
    show extent FloatType.fp32.bytes (2 ^ 24 + 1) = 2097160 by decide]
  simp only [capacity, align, FloatType.bytes]
  omega

theorem not_restores_overwriting (k : ℕ) : ¬Restores .fp32 (overwriting k) := by
  refine not_restores_fp32 (fun q hq => ?_) (fun q hq => ?_) ?_ length_overwriting_head
  · rw [eq_of_mem_replicate hq]
    decide
  · rw [eq_of_mem_replicate hq]
  · rw [length_replicate]
    decide

theorem exists_not_restores (hn : longest d < n) :
    ∃ qs, qs.length = n ∧ Fits d qs ∧ ¬Restores d qs := by
  obtain ⟨k, hk, rfl⟩ : ∃ k, 0 < k ∧ n = longest d + k := ⟨n - longest d, by omega, by omega⟩
  cases d with
  | fp16 => exact ⟨wrapping k, length_wrapping k, fits_wrapping hk, not_restores_wrapping k⟩
  | fp32 => exact ⟨overwriting k, length_overwriting k, fits_overwriting hk, not_restores_overwriting k⟩
  | fp64 =>
    obtain ⟨k, rfl⟩ := Nat.exists_eq_succ_of_ne_zero hk.ne'
    have hbits : codedBits ([⟨false, 1⟩] ++ replicate k ⟨false, 0⟩) = 3 := by
      rw [codedBits_append_zeros]
      decide
    refine ⟨[⟨false, 1⟩] ++ replicate k ⟨false, 0⟩, ?_, fits_iff.mpr ?_,
      not_restores_fp64 (by rw [hbits]; decide)⟩
    · rw [length_append, length_replicate, length_singleton, longest]
      omega
    · rw [hbits, length_append, length_replicate, length_singleton,
        show extent FloatType.fp64.bytes 3 = 20 by decide]
      simp only [capacity, align, FloatType.bytes]
      omega

/-- A stream of at most `2^24` bits whose count fits a word of at most four bytes is restored; and
the vectors of `n` elements that fit the buffer are all restored exactly for `n` up to the bound of
the type. -/
theorem decompress_compress_iff (d : FloatType) :
    (∀ qs : List Quantised, d ≠ .fp64 → qs.length < 2 ^ 64 → codedBits qs ≤ 2 ^ 24 →
      codedBits qs < 2 ^ (8 * d.bytes) → Restores d qs) ∧
    ∀ n, (∀ qs, qs.length = n → Fits d qs → Restores d qs) ↔ n ≤ longest d := by
  refine ⟨fun qs hd hlen hfloat hword => restores_of_codedBits hd hlen hfloat hword,
    fun n => ⟨fun h => ?_, ?_⟩⟩
  · by_contra hn
    obtain ⟨qs, hlen, hfits, hnot⟩ := exists_not_restores (Nat.not_le.mp hn)
    exact hnot (h qs hlen hfits)
  · rintro hn qs rfl hfits
    exact restores_of_le_longest hn hfits

theorem decompress_compress_iff_threeLevels :
    codedBits [⟨true, 3⟩, ⟨false, 0⟩, ⟨false, 7⟩] < 2 ^ 16 ∧
      Restores .fp16 [⟨true, 3⟩, ⟨false, 0⟩, ⟨false, 7⟩] :=
  ⟨by decide, (decompress_compress_iff .fp16).1 _ (by decide) (by decide)
    (by decide) (by decide)⟩

/-- 4096 elements at level 255 and a zero, which fit the buffer, come back as zeros. -/
theorem dithered_to_zeros : (wrapping 1).length = 4097 ∧ Fits .fp16 (wrapping 1) ∧
    ¬Restores .fp16 (wrapping 1) :=
  ⟨length_wrapping 1, fits_wrapping one_pos, not_restores_wrapping 1⟩

end MegatronDPU.Compressor
