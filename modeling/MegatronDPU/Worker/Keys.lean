import MegatronDPU.Lib.Transition
import MegatronDPU.Worker.Context

/-!
# Keys of different tensors

The keys of a tensor are a range that starts at the hash of its name, reduced modulo `10 ^ 9` and
shifted by 16 bits. Nothing keeps two names from the same reduced hash, and nothing bounds the
number of partitions, so the ranges of two tensors can meet. `keyLists_disjoint_iff` says exactly
when they do not, for all tensors that the workers of a job have initialised.
-/

namespace MegatronDPU.Worker

open Lts Chunks
open Server (Key)

variable {α : Type}

/-! ## Workers -/

/-- A call of the framework. -/
inductive Action (α : Type)
  | declare (name : String)
  | registerGroup (name : String) (expectedWorkers : ℤ)
  | registerCompressor (name : String) (kwargs : Option (List Char))
  | startTask (name : String) (dtype : ℕ) (shared : List α) (size outputSize : ℕ)

/-- What a call does to the contexts. -/
def Global.step (hash : String → UInt64) (cfg : Config) (s : Global) : Action α → Option Global
  | .declare name => some (isTensorDeclared hash s name).2
  | .registerGroup name expectedWorkers =>
    registerTensorExpectedWorkers s name expectedWorkers
  | .registerCompressor name kwargs => Worker.registerCompressor s name kwargs
  | .startTask name dtype shared size outputSize => do
    let context ← s.nameToCxt name
    let (context, _, _) ← Worker.startTask cfg context dtype shared size outputSize
    some (s.setContext name context)

/-- A worker without contexts, and any calls. -/
def workers (α : Type) (hash : String → UInt64) (cfg : Config) : System Global (Action α) where
  init s := s = {}
  step := Global.step hash cfg

/-! ## Contexts in a run -/

structure BPSContext.OfName (hash : String → UInt64) (cfg : Config) (name : String)
    (c : BPSContext) : Prop where
  key : c.declaredKey = declaredKeyOf hash name
  fresh : c.initialized = false → c.keyList = []
  keys : c.initialized = true → 0 < cfg.partitionBound ∧ 0 < c.buffLen ∧
    c.keyList = tensorKeys cfg c c.buffLen

def Global.Named (hash : String → UInt64) (cfg : Config) (s : Global) : Prop :=
  ∀ name c, s.nameToCxt name = some c → c.OfName hash cfg name

variable {hash : String → UInt64} {cfg : Config} {s s' : Global} {name : String}
  {c c' : BPSContext}

theorem Global.Named.setContext (h : s.Named hash cfg) (hc : c.OfName hash cfg name) :
    (s.setContext name c).Named hash cfg := by
  intro x d hd
  by_cases hx : x = name
  · subst hx
    simp only [Global.setContext, Function.update_self, Option.some.injEq] at hd
    exact hd ▸ hc
  · simp only [Global.setContext, Function.update_of_ne hx] at hd
    exact h x d hd

theorem BPSContext.OfName.initTensor {dtype size : ℕ} {data : List α} {requests : List (Request α)}
    (h : c.OfName hash cfg name)
    (hi : Worker.initTensor cfg c dtype data size = some (c', requests)) :
    c'.OfName hash cfg name := by
  cases hinit : c.initialized with
  | true =>
    rw [Worker.initTensor, if_pos hinit] at hi
    cases hi
    exact h
  | false =>
    obtain ⟨hb, hs, -, rfl, -⟩ := initTensor_spec hinit (h.fresh hinit) hi
    exact ⟨h.key, nofun, fun _ => ⟨hb, hs, rfl⟩⟩

/-- Every call leaves each declared name its own context. -/
theorem Global.Named.step {a : Action α} (h : s.Named hash cfg)
    (hs : s.step hash cfg a = some s') : s'.Named hash cfg := by
  cases a with
  | declare name =>
    cases hs
    unfold isTensorDeclared
    split
    · exact h
    · refine Named.setContext ?_ ⟨rfl, fun _ => rfl, nofun⟩
      split_ifs
      · exact h
      · exact h
  | registerGroup name expectedWorkers =>
    obtain ⟨c, hc, hs⟩ := Option.bind_eq_some_iff.mp hs
    have hn := h name c hc
    split_ifs at hs
    · cases hs
      exact h.setContext ⟨hn.key, hn.fresh, hn.keys⟩
    · cases hs
      exact h
  | registerCompressor name kwargs =>
    obtain ⟨c, hc, hs⟩ := Option.bind_eq_some_iff.mp hs
    cases hs
    have hn := h name c hc
    exact h.setContext ⟨hn.key, hn.fresh, hn.keys⟩
  | startTask name dtype shared size outputSize =>
    obtain ⟨c, hc, hs⟩ := Option.bind_eq_some_iff.mp hs
    obtain ⟨⟨c', requests, tasks⟩, hstart, hs⟩ := Option.bind_eq_some_iff.mp hs
    cases hs
    obtain ⟨⟨c', requests⟩, hinit, hstart⟩ := Option.bind_eq_some_iff.mp hstart
    obtain ⟨tasks, -, hstart⟩ := Option.bind_eq_some_iff.mp hstart
    cases hstart
    exact h.setContext ((h name c hc).initTensor hinit)

theorem named_of_reach (h : Reach (workers α hash cfg) Free s) : s.Named hash cfg := by
  refine h.invariant (P := Global.Named hash cfg) ?_ fun s a t hs _ ht => hs.step ht
  rintro s rfl name c hc
  cases hc

/-! ## Ranges of keys -/

theorem toNat_add_ofNat (a : Key) (i : ℕ) :
    (a + UInt64.ofNat i).toNat = (a.toNat + i) % 2 ^ 64 := by
  rw [UInt64.toNat_add, UInt64.toNat_ofNat', Nat.add_mod_mod]

theorem mem_keysFrom {a k : Key} {n : ℕ} :
    k ∈ keysFrom a n ↔ ∃ i < n, k.toNat = (a.toNat + i) % 2 ^ 64 := by
  unfold keysFrom
  rw [List.mem_map]
  constructor
  · rintro ⟨i, hi, rfl⟩
    exact ⟨i, List.mem_range.mp hi, toNat_add_ofNat a i⟩
  · rintro ⟨i, hi, hk⟩
    exact ⟨i, List.mem_range.mpr hi, UInt64.toNat_inj.mp ((toNat_add_ofNat a i).trans hk.symm)⟩

/-- Two ranges of 64-bit keys do not meet if the lower one ends before the upper one, and the
upper one does not wrap around to the lower one. -/
theorem disjoint_keysFrom_iff {a b : Key} {n m : ℕ} (hab : a.toNat < b.toNat) (hn : 0 < n)
    (hm : 0 < m) : (keysFrom a n).Disjoint (keysFrom b m) ↔
      a.toNat + n ≤ b.toNat ∧ b.toNat + m ≤ a.toNat + 2 ^ 64 := by
  have ha := a.toNat_lt
  have hb := b.toNat_lt
  constructor
  · intro h
    constructor
    · -- otherwise the first key of the upper range is in the lower one
      by_contra hlt
      apply h (a := b)
      · exact mem_keysFrom.mpr ⟨b.toNat - a.toNat, by omega, by omega⟩
      · exact mem_keysFrom.mpr ⟨0, hm, by omega⟩
    · by_contra hlt
      apply h (a := a)
      · exact mem_keysFrom.mpr ⟨0, hn, by omega⟩
      · exact mem_keysFrom.mpr ⟨a.toNat + 2 ^ 64 - b.toNat, by omega, by omega⟩
  · rintro ⟨h1, h2⟩ k hk1 hk2
    obtain ⟨i, hi, hki⟩ := mem_keysFrom.mp hk1
    obtain ⟨j, hj, hkj⟩ := mem_keysFrom.mp hk2
    rw [Nat.mod_eq_of_lt (by omega)] at hki
    omega

theorem not_disjoint_keysFrom_self (a : Key) {n m : ℕ} (hn : 0 < n) (hm : 0 < m) :
    ¬(keysFrom a n).Disjoint (keysFrom a m) := by
  intro h
  have ha := a.toNat_lt
  apply h (a := a)
  · exact mem_keysFrom.mpr ⟨0, hn, by omega⟩
  · exact mem_keysFrom.mpr ⟨0, hm, by omega⟩

theorem toNat_declaredKey_shift (hash : String → UInt64) (name : String) :
    (declaredKeyOf hash name <<< 16).toNat = 65536 * (declaredKeyOf hash name).toNat := by
  have hlt : (declaredKeyOf hash name).toNat < 1000000000 := by
    rw [declaredKeyOf, UInt64.toNat_mod]
    exact Nat.mod_lt _ (by decide)
  rw [UInt64.toNat_shiftLeft]
  show (declaredKeyOf hash name).toNat <<< 16 % 2 ^ 64 = _
  rw [Nat.shiftLeft_eq]
  omega

/-! ## When key lists are disjoint -/

/-- `n` keys from the smaller declared key `d` end before `d'`, and `n'` keys from `d'` end before
the 64-bit keys have come round to `d`. -/
def KeysFit (d n d' n' : ℕ) : Prop :=
  d < d' ∧ n ≤ 65536 * (d' - d) ∧ n' + 65536 * (d' - d) ≤ 2 ^ 64

instance (d n d' n' : ℕ) : Decidable (KeysFit d n d' n') := inferInstanceAs (Decidable (_ ∧ _))

theorem disjoint_iff_keysFit {name name' : String} {n n' : ℕ} (hn : 0 < n) (hn' : 0 < n')
    (hlt : (declaredKeyOf hash name).toNat < (declaredKeyOf hash name').toNat) :
    (keysFrom (declaredKeyOf hash name <<< 16) n).Disjoint
        (keysFrom (declaredKeyOf hash name' <<< 16) n') ↔
      KeysFit (declaredKeyOf hash name).toNat n (declaredKeyOf hash name').toNat n' := by
  have h1 := toNat_declaredKey_shift hash name
  have h2 := toNat_declaredKey_shift hash name'
  rw [disjoint_keysFrom_iff (by omega) hn hn', KeysFit, h1, h2]
  omega

/-- The key lists of two initialised tensors of a job are disjoint iff the declared keys of their
names differ and the partitions of each tensor fit into the keys before the other one. -/
theorem keyLists_disjoint_iff {s₁ s₂ : Global} (h₁ : Reach (workers α hash cfg) Free s₁)
    (h₂ : Reach (workers α hash cfg) Free s₂) {name₁ name₂ : String} {c₁ c₂ : BPSContext}
    (hc₁ : s₁.nameToCxt name₁ = some c₁) (hc₂ : s₂.nameToCxt name₂ = some c₂)
    (hi₁ : c₁.initialized = true) (hi₂ : c₂.initialized = true) :
    c₁.keyList.Disjoint c₂.keyList ↔
      KeysFit (declaredKeyOf hash name₁).toNat (count cfg.partitionBound c₁.buffLen)
          (declaredKeyOf hash name₂).toNat (count cfg.partitionBound c₂.buffLen) ∨
        KeysFit (declaredKeyOf hash name₂).toNat (count cfg.partitionBound c₂.buffLen)
          (declaredKeyOf hash name₁).toNat (count cfg.partitionBound c₁.buffLen) := by
  have hn₁ := named_of_reach h₁ name₁ c₁ hc₁
  have hn₂ := named_of_reach h₂ name₂ c₂ hc₂
  obtain ⟨hb, hs₁, hk₁⟩ := hn₁.keys hi₁
  obtain ⟨-, hs₂, hk₂⟩ := hn₂.keys hi₂
  have hp₁ := count_pos hb hs₁
  have hp₂ := count_pos hb hs₂
  rw [hk₁, hk₂, tensorKeys, tensorKeys, hn₁.key, hn₂.key]
  rcases lt_trichotomy (declaredKeyOf hash name₁).toNat (declaredKeyOf hash name₂).toNat with
    hlt | heq | hlt
  · rw [disjoint_iff_keysFit hp₁ hp₂ hlt]
    exact ⟨.inl, fun h => h.resolve_right fun hf => absurd hf.1 (by omega)⟩
  · rw [UInt64.toNat_inj.mp heq]
    refine ⟨fun h => absurd h (not_disjoint_keysFrom_self _ hp₁ hp₂), fun h => ?_⟩
    rcases h with hf | hf <;> exact absurd hf.1 (lt_irrefl _)
  · rw [List.disjoint_comm, disjoint_iff_keysFit hp₂ hp₁ hlt]
    exact ⟨.inr, fun h => h.resolve_left fun hf => absurd hf.1 (by omega)⟩

/-- Two names are declared and initialised, the first with three partitions and the second with
one. -/
def twoTensors (name₁ name₂ : String) : List (Action Unit) :=
  [.declare name₁, .declare name₂, .startTask name₁ 0 [(), (), ()] 3 3,
    .startTask name₂ 0 [()] 1 1]

theorem keyLists_disjoint_iff_two :
    ∃ s c₁ c₂, Reach (workers Unit (fun name => name.length.toUInt64) ⟨1, 0, 1, true⟩) Free s ∧
      s.nameToCxt "a" = some c₁ ∧ s.nameToCxt "bb" = some c₂ ∧
      KeysFit 1 3 2 1 ∧ c₁.keyList.Disjoint c₂.keyList := by
  obtain ⟨s, hs, c₁, ha, c₂, hb, hi₁, hi₂, hfit⟩ := exists_reach
    (S := workers Unit (fun name => name.length.toUInt64) ⟨1, 0, 1, true⟩) (G := Free)
    (P := fun s => ∃ c₁ ∈ s.nameToCxt "a", ∃ c₂ ∈ s.nameToCxt "bb", c₁.initialized ∧
      c₂.initialized ∧ KeysFit 1 (count 1 c₁.buffLen) 2 (count 1 c₂.buffLen))
    (.init rfl) (twoTensors "a" "bb") (by decide)
  exact ⟨s, c₁, c₂, hs, ha, hb, by decide,
    (keyLists_disjoint_iff hs hs ha hb hi₁ hi₂).mpr (.inl hfit)⟩

/-- Two names with the same hash share their first key. -/
theorem same_hash_same_key : ∃ s c₁ c₂, Reach (workers Unit (fun _ => 7) ⟨1, 0, 1, true⟩) Free s ∧
      s.nameToCxt "a" = some c₁ ∧ s.nameToCxt "b" = some c₂ ∧
      ¬c₁.keyList.Disjoint c₂.keyList := by
  obtain ⟨s, hs, c₁, ha, c₂, hb, key, hkey, hkey'⟩ := exists_reach
    (S := workers Unit (fun _ => 7) ⟨1, 0, 1, true⟩) (G := Free)
    (P := fun s => ∃ c₁ ∈ s.nameToCxt "a", ∃ c₂ ∈ s.nameToCxt "b",
      ∃ key ∈ c₁.keyList, key ∈ c₂.keyList)
    (.init rfl) (twoTensors "a" "b") (by decide)
  exact ⟨s, c₁, c₂, hs, ha, hb, fun h => h hkey hkey'⟩

end MegatronDPU.Worker
