import MegatronDPU.Worker.Encode
import MegatronDPU.Worker.ScheduledQueue

/-!
# Credits of a scheduled queue

A queue that is scheduled by priority hands out a task only if its length fits the credits that are
left. `_credits` is a `uint64_t` and a length an `unsigned int`, but `reportFinish` takes an `int`:
the report of a task of `2 ^ 31` bytes or more is negative, and the credits lose `2 ^ 32`.
-/

namespace MegatronDPU.Worker

open Lts List Option
open Server (Key)
open ScheduledQueue (Before Eligible)

/-! ## The queue -/

structure CreditConfig where
  partitionBound : UInt32
  /-- `BYTEPS_SCHEDULING_CREDIT`, an `int`. -/
  schedulingCredit : ℕ
  schedulingCredit_pos : 0 < schedulingCredit
  schedulingCredit_lt : schedulingCredit < 2 ^ 31

/-- `_credits` of a new queue. -/
def CreditConfig.initial (cfg : CreditConfig) : UInt64 :=
  cfg.partitionBound.toUInt64 * .ofNat cfg.schedulingCredit

structure CreditQueue where
  sq : List TensorTableEntry := []
  credits : UInt64
  /-- The tasks that were taken and are not reported yet; no call reads them. -/
  inFlight : List TensorTableEntry := []

namespace CreditQueue

/-- What `std::sort` may make of a queue: which of two equal tasks comes first is up to it. -/
def IsSorting (sq sq' : List TensorTableEntry) : Prop := sq'.Perm sq ∧ sq'.Pairwise Before

instance (sq sq' : List TensorTableEntry) : Decidable (IsSorting sq sq') :=
  inferInstanceAs (Decidable (_ ∧ _))

def getTask (s : CreditQueue) (isKeyReady : Key → Bool) : Option (TensorTableEntry × CreditQueue) :=
  (ScheduledQueue.getTask true s.credits.toNat isKeyReady s.sq).map fun found =>
    (found.1, { s with
      sq := found.2
      credits := s.credits - .ofNat found.1.len
      inFlight := s.inFlight ++ [found.1] })

/-- `reportFinish`: the `int` is added to the `uint64_t`. -/
def reportFinish (credits : UInt64) (size : ℤ) : UInt64 := credits + .ofInt size

inductive Call
  /-- `addTask` of an entry, and the order that `std::sort` leaves. -/
  | addTask (entry : TensorTableEntry) (sq : List TensorTableEntry)
  | reachEvent (i : ℕ)
  /-- `getTask`, with what the ready table answers meanwhile. -/
  | getTask (isKeyReady : Key → Bool)
  /-- `FinishOrProceed` of a task in flight. -/
  | reportFinish (i : ℕ)

def step (s : CreditQueue) : Call → Option CreditQueue
  | .addTask entry sq =>
    -- `len` is an `unsigned int`
    if entry.len < 2 ^ 32 ∧ IsSorting (s.sq ++ [entry]) sq then some { s with sq := sq } else none
  | .reachEvent i =>
    s.sq[i]?.bind fun e =>
      if e.readyEvent = some false then
        some { s with sq := s.sq.set i { e with readyEvent := some true } }
      else none
  | .getTask isKeyReady => some ((s.getTask isKeyReady).elim s (·.2))
  | .reportFinish i =>
    s.inFlight[i]?.map fun e =>
      { s with
        credits := reportFinish s.credits (toInt e.len)
        inFlight := s.inFlight.eraseIdx i }

def calls (cfg : CreditConfig) : System CreditQueue Call where
  init s := s = { credits := cfg.initial }
  step := step

/-! ## What is to hold -/

def flying (s : CreditQueue) : ℕ := (s.inFlight.map (·.len)).sum

/-- Credits and lengths in flight add up to the initial credits. -/
def Conserved (cfg : CreditConfig) (s : CreditQueue) : Prop :=
  s.credits.toNat + s.flying = cfg.partitionBound.toNat * cfg.schedulingCredit

instance (cfg : CreditConfig) (s : CreditQueue) : Decidable (s.Conserved cfg) :=
  inferInstanceAs (Decidable (_ = _))

/-- The counter after a call is what the call makes of it without wrapping. -/
def NoWrap (s : CreditQueue) : Call → CreditQueue → Prop
  | .getTask isKeyReady, t =>
    ∀ found ∈ s.getTask isKeyReady, (t.credits.toNat : ℤ) = s.credits.toNat - found.1.len
  | .reportFinish i, t =>
    ∀ e ∈ s.inFlight[i]?, (t.credits.toNat : ℤ) = s.credits.toNat + e.len
  | _, t => t.credits = s.credits

/-- `getTask` takes the first task, by priority and then by key, of those whose event is reached,
whose length fits the credits and whose key is ready. -/
def TakesFirst (s : CreditQueue) (isKeyReady : Key → Bool) : Prop :=
  match s.getTask isKeyReady with
  | none => ∀ e ∈ s.sq, ¬Eligible true s.credits.toNat isKeyReady e
  | some (task, t) =>
    ∃ e, task = { e with readyEvent := none } ∧ s.sq.Perm (e :: t.sq) ∧
      Eligible true s.credits.toNat isKeyReady e ∧
      ∀ a ∈ t.sq, Eligible true s.credits.toNat isKeyReady a → Before e a

/-- The reports are of less than `2 ^ 31` bytes. -/
def ShortReport (s : CreditQueue) : Call → Prop
  | .reportFinish i => ∀ e ∈ s.inFlight[i]?, e.len < 2 ^ 31
  | _ => True

instance (s : CreditQueue) (a : Call) : Decidable (s.ShortReport a) := by
  cases a <;> unfold ShortReport <;> infer_instance

/-! ## Lengths and credits -/

variable {cfg : CreditConfig} {s t : CreditQueue} {a : Call}

theorem bound_mul_credit_lt (cfg : CreditConfig) :
    cfg.partitionBound.toNat * cfg.schedulingCredit < 2 ^ 63 := by
  calc cfg.partitionBound.toNat * cfg.schedulingCredit < 2 ^ 32 * 2 ^ 31 :=
        Nat.mul_lt_mul'' cfg.partitionBound.toNat_lt cfg.schedulingCredit_lt
    _ = 2 ^ 63 := by norm_num

theorem initial_toNat (cfg : CreditConfig) :
    cfg.initial.toNat = cfg.partitionBound.toNat * cfg.schedulingCredit := by
  have hcredit : (UInt64.ofNat cfg.schedulingCredit).toNat = cfg.schedulingCredit :=
    toNat_ofNat_of_int cfg.schedulingCredit_lt
  have hlt := bound_mul_credit_lt cfg
  unfold CreditConfig.initial
  rw [UInt64.toNat_mul, UInt32.toNat_toUInt64, hcredit, Nat.mod_eq_of_lt (by omega)]

variable {credits : UInt64} {len : ℕ}

theorem toNat_sub_len (h : len ≤ credits.toNat) :
    (credits - .ofNat len).toNat = credits.toNat - len := by
  have hlen : (UInt64.ofNat len).toNat = len := by
    rw [UInt64.toNat_ofNat', Nat.mod_eq_of_lt (h.trans_lt credits.toNat_lt)]
  rw [UInt64.toNat_sub_of_le _ _ (UInt64.le_iff_toNat_le.mpr (hlen.le.trans h)), hlen]

theorem toNat_reportFinish (credits : UInt64) (size : ℤ) :
    ((reportFinish credits size).toNat : ℤ) = (credits.toNat + size) % 2 ^ 64 := by
  have hsize : ((UInt64.ofInt size).toNat : ℤ) = size % 2 ^ 64 := by
    unfold UInt64.ofInt
    rw [UInt64.toNat_ofNat']
    omega
  rw [reportFinish, UInt64.toNat_add]
  omega

theorem flying_eraseIdx {i : ℕ} {e : TensorTableEntry} (h : s.inFlight[i]? = some e) :
    ((s.inFlight.eraseIdx i).map (·.len)).sum + e.len = s.flying := by
  obtain ⟨hi, rfl⟩ := List.getElem?_eq_some_iff.mp h
  have hperm := getElem_cons_eraseIdx_perm hi
  rw [flying, ← (hperm.map (·.len)).sum_eq, map_cons, sum_cons, add_comm]

/-! ## Steps -/

/-- The calls of a credit queue, each with its guard. -/
theorem step_cases (h : s.step a = some t) :
    (∃ entry sq, a = .addTask entry sq ∧ entry.len < 2 ^ 32 ∧ IsSorting (s.sq ++ [entry]) sq ∧
      t = { s with sq := sq }) ∨
    (∃ i e, a = .reachEvent i ∧ s.sq[i]? = some e ∧
      t = { s with sq := s.sq.set i { e with readyEvent := some true } }) ∨
    (∃ isKeyReady, a = .getTask isKeyReady ∧
      (s.getTask isKeyReady = none ∧ t = s ∨
        ∃ task, s.getTask isKeyReady = some (task, t))) ∨
    (∃ i e, a = .reportFinish i ∧ s.inFlight[i]? = some e ∧
      t = { s with
        credits := reportFinish s.credits (toInt e.len)
        inFlight := s.inFlight.eraseIdx i }) := by
  cases a with
  | addTask entry sq =>
    rw [step] at h
    split_ifs at h with hadd
    exact .inl ⟨entry, sq, rfl, hadd.1, hadd.2, (some.inj h).symm⟩
  | reachEvent i =>
    obtain ⟨e, he, h⟩ := Option.bind_eq_some_iff.mp h
    split_ifs at h
    exact .inr (.inl ⟨i, e, rfl, he, (some.inj h).symm⟩)
  | getTask isKeyReady =>
    refine .inr (.inr (.inl ⟨isKeyReady, rfl, ?_⟩))
    rw [step, Option.some.injEq] at h
    cases hget : s.getTask isKeyReady with
    | none =>
      rw [hget] at h
      exact .inl ⟨rfl, h.symm⟩
    | some found =>
      rw [hget] at h
      exact .inr ⟨found.1, by rw [← h]; rfl⟩
  | reportFinish i =>
    obtain ⟨e, he, h⟩ := Option.map_eq_some_iff.mp h
    exact .inr (.inr (.inr ⟨i, e, rfl, he, h.symm⟩))

theorem getTask_cases {isKeyReady : Key → Bool} {task : TensorTableEntry}
    (h : s.getTask isKeyReady = some (task, t)) :
    ScheduledQueue.getTask true s.credits.toNat isKeyReady s.sq = some (task, t.sq) ∧
      t.credits = s.credits - .ofNat task.len ∧ t.inFlight = s.inFlight ++ [task] ∧
      task.len ≤ s.credits.toNat := by
  obtain ⟨⟨e, rest⟩, hfound, heq⟩ := Option.map_eq_some_iff.mp h
  obtain ⟨rfl, rfl⟩ := Prod.mk.inj heq
  obtain ⟨pre, e₀, post, -, -, he, hel, -⟩ := ScheduledQueue.getTask_eq_some hfound
  refine ⟨hfound, rfl, rfl, ?_⟩
  rw [he]
  exact hel.2.1 rfl

/-- The queue is in order, and lengths are those of an `unsigned int`. -/
structure WellKept (s : CreditQueue) : Prop where
  sorted : s.sq.Pairwise Before
  lens : ∀ e ∈ s.sq, e.len < 2 ^ 32
  flying_lens : ∀ e ∈ s.inFlight, e.len < 2 ^ 32

theorem pairwise_set {sq : List TensorTableEntry} {i : ℕ} {e : TensorTableEntry} {b : Option Bool}
    (h : sq.Pairwise Before) (he : sq[i]? = some e) :
    (sq.set i { e with readyEvent := b }).Pairwise Before := by
  obtain ⟨hi, rfl⟩ := List.getElem?_eq_some_iff.mp he
  rw [pairwise_iff_getElem] at h ⊢
  intro j k hj hk hjk
  rw [length_set] at hj hk
  have hjk' := h j k hj hk hjk
  rw [getElem_set, getElem_set]
  split_ifs with hij hik hik
  · omega
  · subst hij
    exact hjk'
  · subst hik
    exact hjk'
  · exact hjk'

/-- Every call keeps the queue sorted and the lengths within 32 bits. -/
theorem WellKept.step (h : s.WellKept) (hstep : s.step a = some t) : t.WellKept := by
  obtain ⟨entry, sq, rfl, hlen, hsort, rfl⟩ | ⟨i, e, rfl, he, rfl⟩ |
    ⟨isKeyReady, rfl, ⟨-, rfl⟩ | ⟨task, hget⟩⟩ | ⟨i, e, rfl, he, rfl⟩ := step_cases hstep
  · refine ⟨hsort.2, fun e he => ?_, h.flying_lens⟩
    rcases mem_append.mp (hsort.1.mem_iff.mp he) with he | he
    · exact h.lens e he
    · rwa [mem_singleton.mp he]
  · refine ⟨pairwise_set h.sorted he, fun e' he' => ?_, h.flying_lens⟩
    rcases mem_or_eq_of_mem_set he' with hmem | rfl
    · exact h.lens e' hmem
    · exact h.lens e (mem_of_getElem? he)
  · exact h
  · obtain ⟨hfound, -, hfly, -⟩ := getTask_cases hget
    obtain ⟨pre, e₀, post, hsq, hrest, he, -⟩ := ScheduledQueue.getTask_eq_some hfound
    have hsub : t.sq.Sublist s.sq := by
      rw [hsq, hrest]
      exact (sublist_cons_self e₀ post).append_left pre
    refine ⟨h.sorted.sublist hsub, fun e he => h.lens e (hsub.subset he), fun e hmem => ?_⟩
    rw [hfly] at hmem
    rcases mem_append.mp hmem with hmem | hmem
    · exact h.flying_lens e hmem
    · rw [mem_singleton.mp hmem, he]
      exact h.lens e₀ (by rw [hsq]; simp)
  · exact ⟨h.sorted, h.lens, fun e he => h.flying_lens e (mem_of_mem_eraseIdx he)⟩

theorem toNat_report_of_short (hlen : len < 2 ^ 31) (hroom : credits.toNat + len < 2 ^ 64) :
    (reportFinish credits (toInt len)).toNat = credits.toNat + len := by
  rw [toInt_of_lt hlen]
  have h := toNat_reportFinish credits len
  omega

theorem toNat_report_of_long (hlen : 2 ^ 31 ≤ len) (hlt : len < 2 ^ 32) :
    (reportFinish credits (toInt len)).toNat ≠ credits.toNat + len := by
  rw [toInt_of_ge hlen hlt]
  have h := toNat_reportFinish credits (len - 2 ^ 32)
  omega

theorem step_conserved_iff (hkept : s.WellKept) (h : s.Conserved cfg)
    (hstep : s.step a = some t) : t.Conserved cfg ↔ s.ShortReport a := by
  have hsum := bound_mul_credit_lt cfg
  obtain ⟨entry, sq, rfl, -, -, rfl⟩ | ⟨i, e, rfl, -, rfl⟩ |
    ⟨isKeyReady, rfl, ⟨-, rfl⟩ | ⟨task, hget⟩⟩ | ⟨i, e, rfl, he, rfl⟩ := step_cases hstep
  · exact iff_of_true h trivial
  · exact iff_of_true h trivial
  · exact iff_of_true h trivial
  · obtain ⟨-, hcredits, hfly, hfits⟩ := getTask_cases hget
    refine iff_of_true ?_ trivial
    have hflying : t.flying = s.flying + task.len := by
      rw [flying, hfly, map_append, sum_append, map_singleton, sum_singleton]
      rfl
    unfold Conserved at h ⊢
    rw [hcredits, toNat_sub_len hfits, hflying]
    omega
  · have hflying := flying_eraseIdx he
    have hshort : s.ShortReport (.reportFinish i) ↔ e.len < 2 ^ 31 := by
      show (∀ e ∈ s.inFlight[i]?, e.len < 2 ^ 31) ↔ _
      rw [he]
      simp only [mem_some_iff, forall_eq']
    rw [hshort]
    unfold Conserved at h ⊢
    rw [← h]
    show (reportFinish s.credits (toInt e.len)).toNat +
      ((s.inFlight.eraseIdx i).map (·.len)).sum = _ ↔ _
    constructor
    · intro heq
      by_contra hlong
      have hkeep : (reportFinish s.credits (toInt e.len)).toNat = s.credits.toNat + e.len := by
        omega
      exact toNat_report_of_long (not_lt.mp hlong)
        (hkept.flying_lens e (mem_of_getElem? he)) hkeep
    · intro hlen
      rw [toNat_report_of_short hlen (by omega)]
      omega

theorem noWrap_of_step (h : s.Conserved cfg) (hshort : s.ShortReport a)
    (hstep : s.step a = some t) : s.NoWrap a t := by
  have hsum := bound_mul_credit_lt cfg
  obtain ⟨entry, sq, rfl, -, -, rfl⟩ | ⟨i, e, rfl, -, rfl⟩ |
    ⟨isKeyReady, rfl, ⟨hnone, rfl⟩ | ⟨task, hget⟩⟩ | ⟨i, e, rfl, he, rfl⟩ := step_cases hstep
  · rfl
  · rfl
  · intro found hfound
    rw [hnone] at hfound
    cases hfound
  · intro found hfound
    rw [hget, mem_some_iff] at hfound
    subst hfound
    obtain ⟨-, hcredits, -, hfits⟩ := getTask_cases hget
    rw [hcredits, toNat_sub_len hfits]
    exact Int.natCast_sub hfits
  · intro e' he'
    have hlen := hshort e' he'
    rw [he, mem_some_iff] at he'
    subst he'
    have hflying := flying_eraseIdx he
    unfold Conserved at h
    rw [toNat_report_of_short hlen (by omega)]
    rfl

theorem takesFirst_of_sorted (h : s.sq.Pairwise Before) (isKeyReady : Key → Bool) :
    s.TakesFirst isKeyReady := by
  unfold TakesFirst
  split
  · rename_i hget
    exact ScheduledQueue.getTask_eq_none.mp (Option.map_eq_none_iff.mp hget)
  · rename_i task t hget
    exact ScheduledQueue.getTask_first (getTask_cases hget).1 h

/-! ## Runs -/

theorem wellKept_of_reach {G : CreditQueue → Call → Prop} (h : Reach (calls cfg) G s) :
    s.WellKept := by
  refine h.invariant (P := WellKept) ?_ fun s a t hs _ hstep => hs.step hstep
  rintro s rfl
  exact ⟨.nil, nofun, nofun⟩

theorem conserved_of_short (h : Reach (calls cfg) ShortReport s) : s.Conserved cfg := by
  have hboth := h.invariant (P := fun s => s.WellKept ∧ s.Conserved cfg) ?_
    fun s a t hs hg hstep => ⟨hs.1.step hstep, (step_conserved_iff hs.1 hs.2 hstep).mpr hg⟩
  · exact hboth.2
  · rintro s rfl
    exact ⟨⟨.nil, nofun, nofun⟩, initial_toNat cfg⟩

/-- In every run without a report of a long task, the credits are conserved in every state, no call
wraps the counter, the sum is lost exactly when a long task is reported next, and `getTask` takes
the first task that it may take. -/
theorem credits_conserved_of_reach (h : Reach (calls cfg) ShortReport s) : s.Conserved cfg ∧
      (∀ a t, s.step a = some t → s.ShortReport a → s.NoWrap a t) ∧
      (∀ a t, s.step a = some t → (t.Conserved cfg ↔ s.ShortReport a)) ∧
      ∀ isKeyReady, s.TakesFirst isKeyReady := by
  have hkept := wellKept_of_reach h
  have hcons := conserved_of_short h
  refine ⟨hcons, fun a t hstep hshort => noWrap_of_step hcons hshort hstep, fun a t hstep => ?_,
    takesFirst_of_sorted hkept.sorted⟩
  exact step_conserved_iff hkept hcons hstep

/-! ## Sample runs -/

def sampleTask (len : ℕ) : TensorTableEntry :=
  ⟨⟨"grad", by decide, len, 1, Nat.one_pos⟩, 65536, len, 0, none, [.reduce]⟩

def twoPages : CreditConfig := ⟨4096, 2, Nat.two_pos, by decide⟩

theorem credits_conserved_of_reach_twoPages :
    ∃ s, Reach (calls twoPages) ShortReport s ∧ s.inFlight = [sampleTask 4096] ∧
      s.credits = 4096 ∧ s.Conserved twoPages ∧
      ∀ t, s.step (.reportFinish 0) = some t → t.Conserved twoPages := by
  obtain ⟨s, hs, hfly, hcredits⟩ := exists_reach
    (P := fun s : CreditQueue => s.inFlight = [sampleTask 4096] ∧ s.credits = 4096)
    (S := calls twoPages) (G := ShortReport) (.init rfl)
    [.addTask (sampleTask 4096) [sampleTask 4096], .getTask fun _ => true] (by decide)
  obtain ⟨hcons, -, hnext, -⟩ := credits_conserved_of_reach hs
  refine ⟨s, hs, hfly, hcredits, hcons, fun t ht => (hnext _ t ht).mpr ?_⟩
  show ∀ e ∈ s.inFlight[0]?, e.len < 2 ^ 31
  rw [hfly]
  decide

def twoGiB : CreditConfig := ⟨2147483648, 1, Nat.one_pos, by decide⟩

/-- A full partition is added, taken and reported as minus 2 GiB: the counter wraps. -/
theorem long_report_wraps :
    ∃ s, Reach (calls twoGiB) Free s ∧ s.inFlight = [] ∧ s.credits = 18446744071562067968 ∧
      ¬s.Conserved twoGiB :=
  exists_reach (S := calls twoGiB) (G := Free) (.init rfl)
    [.addTask (sampleTask 2147483648) [sampleTask 2147483648], .getTask fun _ => true,
      .reportFinish 0] (by decide +kernel)

end CreditQueue

end MegatronDPU.Worker
