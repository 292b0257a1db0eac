import MegatronDPU.Server.Sums
import MegatronDPU.Worker.StagedPath

/-!
# GDR and the staged path

1. Up to `2 ^ 32` bytes the partitions of a call are disjoint and cover the tensor
   (`not_overlapped`, `exists_covers`). Offsets have 32 bits, so beyond that partitions overlap.
2. Hence the staged path on a GPU gives the sums of the inputs (`staged_output`).
3. With GDR the output is what it was. So both paths give the sums iff the outputs hold them before
   the call and no overlap can be seen (`agree_iff`).
-/

namespace MegatronDPU.Worker

open Lts Chunks Call Option
open Server (Key)

variable {α : Type}

/-! ## Partitions and cells -/

section Geometry

variable {call : Call α} {i c : ℕ} {task : Task}

def Call.size (call : Call α) : ℕ := call.numElements * call.unitLen

def Call.bound (call : Call α) : ℕ := partitionBound call.partitionBytes 1 call.pagesize

theorem partitionTensor_zero {size : ℕ} (hs : 0 < size) : partitionTensor 0 size = none := by
  unfold partitionTensor
  rw [Loop.run_eq_none fun s => s.accumulated = 0]
  · rfl
  · intro s h
    simp [h, hs]
  · intro s t h ht
    cases ht
    simp [h, partitionLen]
  · rfl

theorem Call.tasks_eq (call : Call α) : call.tasks = [] ∧ call.size = 0 ∨
    0 < call.bound ∧ call.context.keyList.length = count call.bound call.size ∧
      call.tasks = zipTasks call.context.keyList
        (partitionsOf call.bound call.size (count call.bound call.size)) := by
  have henq : enqueueTensor
      { partitionBound := call.bound, numWorker := call.numWorker } call.context call.size
      call.size = some call.tasks := call.enqueued
  rcases Nat.eq_zero_or_pos call.bound with hb | hb
  · refine .inl ?_
    unfold enqueueTensor at henq
    dsimp only at henq
    rw [if_pos rfl, hb] at henq
    rcases Nat.eq_zero_or_pos call.size with hs | hs
    · rw [hs] at henq ⊢
      obtain ⟨parts, hparts, henq⟩ := Option.bind_eq_some_iff.mp henq
      cases hparts
      split_ifs at henq with hlen
      rw [← some.inj henq, List.length_eq_zero_iff.mp hlen]
      exact ⟨rfl, rfl⟩
    · rw [partitionTensor_zero hs] at henq
      cases henq
  · refine .inr ⟨hb, ?_⟩
    rw [enqueueTensor_eq hb] at henq
    split_ifs at henq with hlen
    exact ⟨hlen, (some.inj henq).symm⟩

theorem Call.task_spec (h : call.tasks[i]? = some task) :
    0 < call.bound ∧ i < count call.bound call.size ∧
      task.offset = offset call.bound call.size i % 2 ^ 32 ∧
      task.len = len call.bound call.size i := by
  rcases call.tasks_eq with ⟨hnil, -⟩ | ⟨hb, -, htasks⟩
  · rw [hnil] at h
    cases h
  · rw [htasks, zipTasks, List.getElem?_zipWith] at h
    simp only [partitionsOf, List.getElem?_map] at h
    cases hkey : call.context.keyList[i]? with
    | none => rw [hkey] at h; cases h
    | some key =>
      cases hidx : (List.range (count call.bound call.size))[i]? with
      | none => rw [hkey, hidx] at h; cases h
      | some m =>
        rw [hkey, hidx] at h
        cases h
        obtain ⟨hlt, rfl⟩ := List.getElem?_eq_some_iff.mp hidx
        rw [List.length_range] at hlt
        rw [List.getElem_range]
        exact ⟨hb, hlt, rfl, rfl⟩

theorem Call.cell_size (call : Call α) : call.cell call.size = call.numElements :=
  Nat.mul_div_cancel _ call.unitLen_pos

theorem Call.covers_lt (h : call.Covers i c) : c < call.numElements := by
  obtain ⟨task, htask, -, hlt⟩ := h
  obtain ⟨-, -, hoff, hlen⟩ := task_spec htask
  have hend : task.offset + task.len ≤ call.size := by
    rw [hoff, hlen]
    have hmod := Nat.mod_le (offset call.bound call.size i) (2 ^ 32)
    have hsum : offset call.bound call.size i + len call.bound call.size i ≤ call.size :=
      offset_add_len.trans_le offset_le
    omega
  have hcells : call.cell task.offset + call.cell task.len ≤ call.cell call.size :=
    Nat.div_add_div_le_add_div.trans (Nat.div_le_div_right hend)
  rw [call.cell_size] at hcells
  omega

theorem Call.unitLen_dvd_bound (call : Call α) : call.unitLen ∣ call.bound := by
  have hround : 8 ∣ roundUp call.partitionBytes (1 * call.pagesize) := by
    rw [one_mul]
    exact call.dvd_pagesize.mul_left _
  exact call.unitLen_dvd.trans ((Nat.dvd_mod_iff (by decide)).mpr hround)

theorem Call.unitLen_dvd_offset (call : Call α) (i : ℕ) :
    call.unitLen ∣ offset call.bound call.size i := by
  unfold offset
  rcases min_choice (i * call.bound) call.size with h | h
  · rw [h]
    exact call.unitLen_dvd_bound.mul_left i
  · rw [h]
    exact Dvd.intro_left _ rfl

theorem Call.cell_le_iff {b : ℕ} (hb : call.unitLen ∣ b) :
    call.cell b ≤ c ↔ b ≤ c * call.unitLen := by
  obtain ⟨d, rfl⟩ := hb
  have hpos := call.unitLen_pos
  unfold cell
  rw [Nat.mul_div_cancel_left _ hpos, mul_comm c, Nat.mul_le_mul_left_iff hpos]

theorem Call.covers_iff (hsize : call.size ≤ 2 ^ 32) :
    call.Covers i c ↔ i < call.tasks.length ∧ 0 < call.bound ∧
      offset call.bound call.size i ≤ c * call.unitLen ∧
      c * call.unitLen < offset call.bound call.size (i + 1) := by
  have hcells : ∀ {task : Task}, call.tasks[i]? = some task →
      (call.cell task.offset ≤ c ∧ c < call.cell task.offset + call.cell task.len ↔
        offset call.bound call.size i ≤ c * call.unitLen ∧
          c * call.unitLen < offset call.bound call.size (i + 1)) := by
    intro task htask
    obtain ⟨hb, hi, hoff, hlen⟩ := task_spec htask
    have hlt : offset call.bound call.size i < 2 ^ 32 :=
      ((offset_lt_iff hb).mpr hi).trans_le hsize
    rw [Nat.mod_eq_of_lt hlt] at hoff
    have hend : call.cell task.offset + call.cell task.len =
        call.cell (offset call.bound call.size (i + 1)) := by
      unfold cell
      rw [hoff, hlen, ← offset_add_len, Nat.add_div_of_dvd_right (call.unitLen_dvd_offset i)]
    rw [hend, hoff, cell_le_iff (call.unitLen_dvd_offset i), ← not_le,
      cell_le_iff (call.unitLen_dvd_offset (i + 1)), not_le]
  constructor
  · rintro ⟨task, htask, hc⟩
    exact ⟨(List.getElem?_eq_some_iff.mp htask).1, (task_spec htask).1, (hcells htask).mp hc⟩
  · rintro ⟨hi, -, hc⟩
    have htask := List.getElem?_eq_getElem hi
    exact ⟨_, htask, (hcells htask).mpr hc⟩

theorem Call.not_overlapped (hsize : call.size ≤ 2 ^ 32) : ¬call.Overlapped c := by
  -- the index of a partition is the quotient of any of its bytes by the bound
  have hindex : ∀ i, call.Covers i c → c * call.unitLen / call.bound = i := by
    intro i hi
    obtain ⟨-, -, hlo, hhi⟩ := (covers_iff hsize).mp hi
    unfold offset at hlo hhi
    have hlt : c * call.unitLen < call.size := hhi.trans_le (min_le_right _ _)
    refine Nat.div_eq_of_lt_le ?_ (hhi.trans_le (min_le_left _ _))
    omega
  rintro ⟨i, j, hij, hi, hj⟩
  exact hij ((hindex i hi).symm.trans (hindex j hj))

theorem Call.exists_covers (hsize : call.size ≤ 2 ^ 32) (hc : c < call.numElements) :
    ∃ i, call.Covers i c := by
  have hbyte : c * call.unitLen < call.size := Nat.mul_lt_mul_of_pos_right hc call.unitLen_pos
  rcases call.tasks_eq with ⟨-, hzero⟩ | ⟨hb, hkeys, htasks⟩
  · omega
  have hlow : c * call.unitLen / call.bound * call.bound ≤ c * call.unitLen :=
    Nat.div_mul_le_self _ _
  have hhigh : c * call.unitLen < (c * call.unitLen / call.bound + 1) * call.bound :=
    (Nat.div_lt_iff_lt_mul hb).mp (Nat.lt_succ_self _)
  have hcount : c * call.unitLen / call.bound < count call.bound call.size := by
    rw [lt_count_iff hb]
    omega
  refine ⟨c * call.unitLen / call.bound, (covers_iff hsize).mpr ⟨?_, hb, ?_, ?_⟩⟩
  · rw [htasks]
    simp [zipTasks, partitionsOf, hkeys, hcount]
  · exact (min_le_left _ _).trans hlow
  · exact lt_min hhigh hbyte

end Geometry

/-! ## Both paths -/

section Both

variable [AddCancelCommMonoid α] {call : Call α}

def Call.Preset (call : Call α) : Prop :=
  ∀ w < call.numWorker, ∀ c < call.numElements, call.memory w call.outputBuffer c = call.sum c

/-- Where partitions overlap, no input differs from the sum. -/
def Call.OverlapHidden (call : Call α) : Prop :=
  ∀ c, call.Overlapped c → ∀ w < call.numWorker, call.memory w .input c = call.sum c

theorem Call.staged_of_preset {s : ℕ → WorkerState α} {w c : ℕ} (hpre : call.Preset)
    (hover : .input ≠ call.target → call.OverlapHidden)
    (h : Reach (call.pushPull false) Free s) (hfin : call.Finished s)
    (hw : w < call.numWorker) (hc : c < call.numElements) :
    call.output s w c = call.sum c := by
  unfold output
  by_cases ht : call.outputBuffer = call.target
  swap
  · -- a tensor on the CPU with another output: the staged path stores into the input
    rw [memory_of_reach call.outputBuffer_ne_shared (.inr ht) h w]
    exact hpre w hw c hc
  have hclean : call.OverlapHidden := by
    by_cases hin : .input = call.target
    · rintro c' ⟨i, -, -, hi, -⟩ v hv
      rw [hin, ← ht]
      exact hpre v hv c' (covers_lt hi)
    · exact hover hin
  rw [ht]
  by_cases hcov : ∃ i, call.Covers i c
  · obtain ⟨i, hi⟩ := hcov
    exact (staged_cell hclean h hfin hw).1 hi
  · have hout : ∀ j, ¬call.Covers j c := fun j hj => hcov ⟨j, hj⟩
    rw [(staged_cell (i := 0) hclean h hfin hw).2 hout, ← ht]
    exact hpre w hw c hc

/-- For every number of workers, size, data type, partition bound, device and placement of the
output: with GDR every finished call leaves in the outputs what the staged path leaves there, the
sums of the inputs, iff the outputs hold these sums before the call and no overlap of partitions
can be seen. -/
theorem agree_iff (call : Call α) :
    call.Agree ↔ call.Preset ∧ (.input ≠ call.target → call.OverlapHidden) := by
  constructor
  · intro h
    obtain ⟨g, hg, hgfin⟩ := call.exists_finished true
    refine ⟨fun w hw c hc => ?_, fun hin c hover w hw => ?_⟩
    · obtain ⟨s, hs, hsfin⟩ := call.exists_finished false
      obtain ⟨heq, hsum⟩ := h g s hg hgfin hs hsfin w hw c hc
      rw [← output_of_gdr hg, heq, hsum]
    · obtain ⟨i, j, hij, hi, hj⟩ := hover
      by_contra hne
      obtain ⟨s, hs, hsfin, hout⟩ := exists_race hin hij hi hj hw hne
      have hout' : call.outputBuffer = call.target :=
        (call.target_eq.resolve_left fun ht => hin ht.symm).symm
      refine hout ?_
      rw [← hout']
      exact (h g s hg hgfin hs hsfin w hw c (covers_lt hi)).2
  · rintro ⟨hpre, hover⟩ g s hg - hs hsfin w hw c hc
    have hstaged := staged_of_preset hpre hover hs hsfin hw hc
    refine ⟨?_, hstaged⟩
    rw [output_of_gdr hg, hstaged]
    exact hpre w hw c hc

theorem staged_output {s : ℕ → WorkerState α} (hsize : call.size ≤ 2 ^ 32)
    (hdev : call.device = .gpu) (h : Reach (call.pushPull false) Free s) (hfin : call.Finished s)
    {w c : ℕ} (hw : w < call.numWorker) (hc : c < call.numElements) :
    call.output s w c = call.sum c := by
  have htarget : call.outputBuffer = call.target := by
    unfold target
    rw [if_neg]
    rw [hdev]
    decide
  obtain ⟨i, hi⟩ := exists_covers hsize hc
  unfold output
  rw [htarget]
  exact (staged_cell (fun c' hover => absurd hover (not_overlapped hsize)) h hfin hw).1 hi

end Both

/-- Two workers sum one `float32` each into a new output; worker `w` has `w + 1`. -/
def onePlusTwo : Call ℤ where
  numWorker := 2
  numWorker_pos := Nat.two_pos
  pcieSwitchSize := 8
  partitionBytes := 4096000
  pagesize := 4096
  dvd_pagesize := by decide
  unitLen := 4
  unitLen_dvd := ⟨2, rfl⟩
  numElements := 1
  device := .gpu
  inPlace := false
  memory w b _ := if b = .input then w + 1 else 0
  context := { tensorName := "byteps.grad", declaredKey := 3, keyList := [196608] }
  tasks := [⟨196608, 0, 4⟩]
  enqueued := by decide

/-- The staged path leaves `1 + 2` in the output, GDR leaves what was there. -/
theorem gdr_leaves_output : ∃ g s, Reach (onePlusTwo.pushPull true) Free g ∧ onePlusTwo.Finished g ∧
      Reach (onePlusTwo.pushPull false) Free s ∧ onePlusTwo.Finished s ∧
      onePlusTwo.output g 0 0 = 0 ∧ onePlusTwo.output s 0 0 = 3 ∧ ¬onePlusTwo.Agree := by
  obtain ⟨g, hg, hgfin⟩ := onePlusTwo.exists_finished true
  obtain ⟨s, hs, hsfin⟩ := onePlusTwo.exists_finished false
  have hgdr : onePlusTwo.output g 0 0 = 0 := output_of_gdr hg 0 0
  have hstaged : onePlusTwo.output s 0 0 = 3 :=
    staged_output (by decide) rfl hs hsfin (by decide) (by decide)
  refine ⟨g, s, hg, hgfin, hs, hsfin, hgdr, hstaged, fun hagree => ?_⟩
  have heq := (hagree g s hg hgfin hs hsfin 0 (by decide) 0 (by decide)).1
  rw [hgdr, hstaged] at heq
  cases heq

/-! ## The server -/

section Link

variable [AddCommMonoid α] {call : Call α} {s : ℕ → WorkerState α} {i : ℕ}

def Call.group (call : Call α) (s : ℕ → WorkerState α) (i : ℕ) : Server.KeyGroup α where
  workers := Finset.range call.numWorker
  workers_nonempty := ⟨0, Finset.mem_range.mpr call.numWorker_pos⟩
  dtype := 0
  kwargs := none
  initPayload _ := []
  payload w _ := ((s w).pushed i).getD []

/-- The answer to a pull is the sum with which the server answers the pulls of a round. -/
theorem Call.answer_eq_roundSum {task : Task} {xs : List α} (htask : call.tasks[i]? = some task)
    (h : call.answer s i = some xs) (r : ℕ) :
    xs = Server.roundSum (call.group s i) (call.cell task.len) r := by
  unfold answer at h
  rw [htask, bind_some] at h
  split_ifs at h
  cases h
  refine List.ext_getElem (by simp [Server.roundSum]) fun k h₁ h₂ => ?_
  simp [Server.roundSum, group]

end Link

end MegatronDPU.Worker
