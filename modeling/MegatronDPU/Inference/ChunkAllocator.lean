import MegatronDPU.Lib.Transition

/-!
# Chunks of the KV cache

`ChunkAllocator` has the ids of the free chunks in the first `chunk_count_avail` places of a stack.
`reset` counts the whole stack as free and leaves its contents as they are, so an id that was
released in the place of another one is there twice (`reset_doubles_chunk`).
-/

namespace MegatronDPU.Inference

open Lts List

/-- `ChunkAllocator`. The free chunks are the first `chunkCountAvail` of the bag. -/
structure ChunkAllocator where
  chunkCountTotal : ℕ
  gtdChunkCount : ℕ
  chunkCountAvail : ℤ
  chunkBag : List ℕ

namespace ChunkAllocator

/-- `__init__`. -/
def init (chunkCountTotal gtdChunkCount : ℕ) : ChunkAllocator where
  chunkCountTotal
  gtdChunkCount
  chunkCountAvail := chunkCountTotal - 1
  chunkBag := range chunkCountTotal

variable (a : ChunkAllocator)

def dummyChunkIdx : ℤ := a.chunkCountTotal - 1

/-- `is_memory_available`. -/
def isMemoryAvailable (numChunks : ℕ) (safe : Bool) : Bool :=
  if safe then numChunks + a.gtdChunkCount ≤ a.chunkCountAvail else numChunks ≤ a.chunkCountAvail

/-- `allocate_memory_chunks`. -/
def allocateMemoryChunks (numChunks : ℕ) (safe : Bool) : Option (ChunkAllocator × List ℕ) :=
  if a.isMemoryAvailable numChunks safe then
    let avail := a.chunkCountAvail - numChunks
    some ({ a with chunkCountAvail := avail }, (a.chunkBag.drop avail.toNat).take numChunks)
  else none

/-- `release_memory_chunks`; the slice of the stack must be as long as `chunks`. -/
def releaseMemoryChunks (chunks : List ℕ) : Option ChunkAllocator :=
  let avail := a.chunkCountAvail.toNat
  if avail + chunks.length ≤ a.chunkBag.length then
    some { a with
      chunkCountAvail := a.chunkCountAvail + chunks.length
      chunkBag := a.chunkBag.take avail ++ (chunks ++ a.chunkBag.drop (avail + chunks.length)) }
  else none

/-- `reset` resets the count and not the bag. -/
def reset : ChunkAllocator := { a with chunkCountAvail := a.chunkCountTotal - 1 }

/-- The free part of the stack. -/
def free : List ℕ := a.chunkBag.take a.chunkCountAvail.toNat

end ChunkAllocator

/-- The allocator, and the ids handed out and not released since the last reset. -/
structure Chunks where
  allocator : ChunkAllocator
  held : List ℕ := []

/-- A call of the allocator. -/
inductive ChunkCall
  | allocate (numChunks : ℕ) (safe : Bool)
  | release (chunks : List ℕ)
  | reset

namespace Chunks

/-- The allocator and the chunks handed out after a call. -/
def call (s : Chunks) : ChunkCall → Option Chunks
  | .allocate numChunks safe =>
    match s.allocator.allocateMemoryChunks numChunks safe with
    | none => some s
    | some (a, chunks) => some ⟨a, s.held ++ chunks⟩
  | .release chunks =>
    if chunks <+~ s.held then
      (s.allocator.releaseMemoryChunks chunks).map (⟨·, s.held.diff chunks⟩)
    else none
  | .reset => some { allocator := s.allocator.reset }

/-- The calls in any order; only held ids are released. -/
def calls (total gtd : ℕ) : System Chunks ChunkCall where
  init s := s = { allocator := .init total gtd }
  step := call

/-- The free ids and the held ids are all ids but the dummy chunk, each once. -/
def Kept (s : Chunks) : Prop :=
  (s.allocator.free ++ s.held) ~ range (s.allocator.chunkCountTotal - 1)

/-- Above the free ids, the stack that is reset still has the ids that are held. -/
def Intact (s : Chunks) : ChunkCall → Prop
  | .reset => (s.allocator.chunkBag.take (s.allocator.chunkCountTotal - 1)).drop
      s.allocator.chunkCountAvail.toNat ~ s.held
  | _ => True

instance (s : Chunks) : (a : ChunkCall) → Decidable (s.Intact a)
  | .reset => inferInstanceAs (Decidable (_ ~ _))
  | .allocate _ _ | .release _ => .isTrue trivial

/-- The sizes fit in every run. -/
structure Sized (s : Chunks) : Prop where
  bag : s.allocator.chunkBag.length = s.allocator.chunkCountTotal
  avail : s.allocator.chunkCountAvail + s.held.length + 1 = s.allocator.chunkCountTotal

variable {s t : Chunks}

theorem sized_call {a : ChunkCall} (hs : s.Sized) (h : s.call a = some t) :
    t.Sized ∧ (s.Kept → (t.Kept ↔ s.Intact a)) := by
  obtain ⟨⟨total, gtd, avail, bag⟩, held⟩ := s
  obtain ⟨hbag, havail⟩ := hs
  dsimp only at hbag havail
  cases a with
  | allocate n safe =>
    dsimp only [call, ChunkAllocator.allocateMemoryChunks] at h
    split_ifs at h with hfree
    · obtain rfl := Option.some.inj h
      have hn : n ≤ avail := by
        unfold ChunkAllocator.isMemoryAvailable at hfree
        split_ifs at hfree <;> simp at hfree <;> omega
      have hsum : avail.toNat = (avail - n).toNat + n := by omega
      refine ⟨⟨hbag, ?_⟩, fun hkept => iff_of_true ?_ trivial⟩
      · simp only [length_append, length_take, length_drop]
        omega
      · unfold Kept ChunkAllocator.free at *
        dsimp only at *
        rw [hsum, take_add, append_assoc] at hkept
        exact (perm_append_comm.append_left _).trans hkept
    · obtain rfl := Option.some.inj h
      exact ⟨⟨hbag, havail⟩, fun hkept => iff_of_true hkept trivial⟩
  | release chunks =>
    dsimp only [call, ChunkAllocator.releaseMemoryChunks] at h
    split_ifs at h with hsub hroom
    · obtain rfl := Option.some.inj h
      have hle := hsub.length_le
      have hperm : chunks ++ held.diff chunks ~ held :=
        subperm_append_diff_self_of_count_le fun x _ => hsub.count_le x
      have hlen := hperm.length_eq
      rw [length_append] at hlen
      refine ⟨⟨?_, ?_⟩, fun hkept => iff_of_true ?_ trivial⟩
      · simp only [length_append, length_take, length_drop]
        omega
      · dsimp only
        omega
      · unfold Kept ChunkAllocator.free at *
        dsimp only at *
        have hkeep := hkept.length_eq
        simp only [length_append, length_take, length_range] at hkeep
        have hsum : (avail + chunks.length).toNat = avail.toNat + chunks.length := by omega
        rw [hsum, ← append_assoc, take_left' (by simp; omega), append_assoc]
        exact (hperm.append_left _).trans hkept
    · cases h
  | reset =>
    cases h
    refine ⟨⟨hbag, by simp [ChunkAllocator.reset]⟩, fun hkept => ?_⟩
    unfold Kept Intact ChunkAllocator.free ChunkAllocator.reset at *
    dsimp only at *
    have htotal : ((total : ℤ) - 1).toNat = total - 1 := by omega
    have hsplit := take_append_drop avail.toNat (bag.take (total - 1))
    rw [take_take, min_eq_left (by omega)] at hsplit
    rw [append_nil, htotal]
    nth_rewrite 1 [← hsplit]
    exact ⟨fun h => (perm_append_left_iff _).mp (h.trans hkept.symm),
      fun h => (h.append_left _).trans hkept⟩

theorem kept_init (total gtd : ℕ) : Kept { allocator := .init total gtd } := by
  simp [Kept, ChunkAllocator.init, ChunkAllocator.free, take_range]

/-- As long as every reset finds the stack intact, the held ids are distinct and not the dummy
chunk, and with the free ids they are all the others, each once. The first reset that finds it
otherwise breaks this. -/
theorem kept_of_intact {total gtd : ℕ} (h : Reach (calls total gtd) Intact s) :
    s.held.Nodup ∧ (∀ c ∈ s.held, (c : ℤ) ≠ s.allocator.dummyChunkIdx) ∧ s.Kept ∧
      ∀ a t, s.call a = some t → (t.Kept ↔ s.Intact a) := by
  obtain ⟨hs, hkept⟩ : s.Sized ∧ s.Kept := h.invariant (P := fun s => s.Sized ∧ s.Kept)
    (by rintro _ rfl; exact ⟨⟨length_range, by simp [ChunkAllocator.init]⟩, kept_init total gtd⟩)
    fun _ _ _ h hi hstep => (sized_call h.1 hstep).imp_right fun hk => (hk h.2).mpr hi
  refine ⟨?_, fun c hc => ?_, hkept, fun a t ht => (sized_call hs ht).2 hkept⟩
  · exact (hkept.nodup_iff.mpr nodup_range).of_append_right
  · have := mem_range.mp (hkept.subset (mem_append_right _ hc))
    unfold ChunkAllocator.dummyChunkIdx
    omega

/-- All chunks are released before the reset. -/
theorem kept_after_release : ∃ s, Reach (calls 4 1) Intact s ∧ s.Kept := by
  obtain ⟨s, hs, -⟩ := exists_reach (S := calls 4 1) (G := Intact) (P := fun _ => True)
    (.init rfl) [.allocate 2 true, .release [2, 1], .reset, .allocate 3 false] (by decide)
  exact ⟨s, hs, (kept_of_intact hs).2.2.1⟩

/-- Chunk `2` is released into the place of chunk `1`; after a reset it is handed out twice. -/
theorem reset_doubles_chunk : ∃ s, Reach (calls 4 1) Free s ∧ s.held = [0, 2, 2] :=
  exists_reach (S := calls 4 1) (G := Free) (.init rfl)
    [.allocate 2 false, .release [2], .reset, .allocate 3 false] (by decide)

end Chunks

end MegatronDPU.Inference
