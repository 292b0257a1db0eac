import MegatronDPU.Server.PullOnce

/-!
# The loads of the engine threads

`GetThreadID` gives a new key to the first thread of least load, and adds the length of the call
to that load, modulo `2 ^ 64`. While the first lengths of the keys sum to less than that, each
load is the sum of the first lengths of its keys, and no two differ by more than the largest.
-/

namespace MegatronDPU.Server

open Lts Function List

variable {α : Type} {C : CompressorClass α}

/-- The loop ends with the thread it started with, or finds one of least load. -/
theorem leastLoad_spec {minLoad i tid : ℕ} {found : Option ℕ} {loads : List ℕ}
    (h : leastLoad minLoad found i loads = some tid) :
    (found = some tid ∧ ∀ x ∈ loads, minLoad ≤ x) ∨
      ∃ k load, tid = i + k ∧ loads[k]? = some load ∧ load < minLoad ∧ ∀ x ∈ loads, load ≤ x := by
  induction loads generalizing minLoad found i with
  | nil => exact .inl ⟨h, by simp⟩
  | cons load loads ih =>
    rw [leastLoad] at h
    split_ifs at h with hlt
    · rcases ih h with ⟨hfound, hle⟩ | ⟨k, x, rfl, hx, hlt', hle⟩
      · exact .inr ⟨0, load, (Option.some.inj hfound).symm, rfl, hlt,
          forall_mem_cons.mpr ⟨le_rfl, hle⟩⟩
      · exact .inr ⟨k + 1, x, by omega, hx, hlt'.trans hlt,
          forall_mem_cons.mpr ⟨hlt'.le, hle⟩⟩
    · rcases ih h with ⟨hfound, hle⟩ | ⟨k, x, rfl, hx, hlt', hle⟩
      · exact .inl ⟨hfound, forall_mem_cons.mpr ⟨not_lt.mp hlt, hle⟩⟩
      · exact .inr ⟨k + 1, x, by omega, hx, hlt',
          forall_mem_cons.mpr ⟨hlt'.le.trans (not_lt.mp hlt), hle⟩⟩

/-- A server, and the keys that have a thread with the lengths they were first called with. -/
structure Assigned (α : Type) (C : CompressorClass α) where
  server : ServerState α C
  firsts : List (Key × ℕ) := []

namespace Assigned

/-- A call of `GetThreadID`; the first one for a key is noted. -/
def call (s : Assigned α C) (a : Key × ℕ) : Option (Assigned α C) :=
  (s.server.getThreadID a.1 a.2).map fun r =>
    ⟨r.1, if (s.server.hashCache a.1).isSome then s.firsts else a :: s.firsts⟩

/-- The calls of `GetThreadID` in any order. -/
def calls (start : Assigned α C) : System (Assigned α C) (Key × ℕ) where
  init s := s = start
  step := call

/-- The first lengths of the keys of a thread. -/
def load (s : Assigned α C) (i : ℕ) : ℕ :=
  ((s.firsts.filter (s.server.hashCache ·.1 = some i)).map Prod.snd).sum

/-- The lengths assigned so far. -/
def total (s : Assigned α C) : ℕ := (s.firsts.map Prod.snd).sum

def largest (s : Assigned α C) : ℕ := (s.firsts.map Prod.snd).foldr max 0

/-- The loads are those of the threads, and differ by at most the largest length. -/
structure Balanced (cfg : Config) (s : Assigned α C) : Prop where
  loads : s.server.accLoad = (range cfg.engineThreadNum).map s.load
  near : ∀ i < cfg.engineThreadNum, ∀ j < cfg.engineThreadNum, s.load i ≤ s.load j + s.largest

variable {cfg : Config} {s t : Assigned α C} {a : Key × ℕ}

theorem call_cases (h : s.call a = some t) :
    t = s ∨ ∃ tid, s.server.hashCache a.1 = none ∧
      leastLoad (2 ^ 64 - 1) none 0 s.server.accLoad = some tid ∧
      t.server.accLoad = s.server.accLoad.modify tid (fun load => (load + a.2) % 2 ^ 64) ∧
      t.server.hashCache = update s.server.hashCache a.1 (some tid) ∧ t.firsts = a :: s.firsts := by
  obtain ⟨⟨server, tid⟩, hr, rfl⟩ := Option.map_eq_some_iff.mp h
  rcases ServerState.getThreadID_cases hr with ⟨hsome, rfl⟩ | ⟨hnone, htid, rfl⟩
  · exact .inl (by rw [hsome]; rfl)
  · exact .inr ⟨tid, hnone, htid, rfl, rfl, by rw [hnone]; rfl⟩

theorem hashCache_call (h : s.call a = some t) {key : Key} {i : ℕ}
    (hi : s.server.hashCache key = some i) : t.server.hashCache key = some i := by
  rcases call_cases h with rfl | ⟨tid, hnone, -, -, hcache, -⟩
  · exact hi
  · rw [hcache, update_of_ne (by rintro rfl; cases hnone.symm.trans hi), hi]

theorem load_le_total (s : Assigned α C) (i : ℕ) : s.load i ≤ s.total :=
  (filter_sublist.map _).sum_le_sum fun _ _ => Nat.zero_le _

/-- A new key adds its length to the load of its thread. -/
theorem load_new {tid : ℕ} (hkeys : ∀ b ∈ s.firsts, (s.server.hashCache b.1).isSome)
    (hnone : s.server.hashCache a.1 = none)
    (hcache : t.server.hashCache = update s.server.hashCache a.1 (some tid))
    (hfirsts : t.firsts = a :: s.firsts) (i : ℕ) :
    t.load i = (if tid = i then a.2 else 0) + s.load i := by
  have hold : s.firsts.filter (t.server.hashCache ·.1 = some i) =
      s.firsts.filter (s.server.hashCache ·.1 = some i) := by
    refine filter_congr fun b hb => ?_
    have hne : b.1 ≠ a.1 := fun heq => by simpa [heq, hnone] using hkeys b hb
    rw [hcache, update_of_ne hne]
  have hhead : t.server.hashCache a.1 = some tid := by rw [hcache, update_self]
  rw [load, hfirsts, filter_cons, hold, hhead]
  split_ifs with htid heq <;> simp_all [load]

theorem balanced_call (hkeys : ∀ b ∈ s.firsts, (s.server.hashCache b.1).isSome)
    (hs : s.Balanced cfg) (h : s.call a = some t) (htotal : t.total < 2 ^ 64) :
    t.Balanced cfg := by
  rcases call_cases h with rfl | ⟨tid, hnone, htid, hacc, hcache, hfirsts⟩
  · exact hs
  have hload := load_new hkeys hnone hcache hfirsts
  obtain ⟨⟨⟩, -⟩ | ⟨k, x, rfl, hx, -, hle⟩ := leastLoad_spec htid
  rw [zero_add] at hacc hload
  obtain ⟨hk, rfl⟩ := List.getElem?_eq_some_iff.mp hx
  have hleast : ∀ j < cfg.engineThreadNum, s.load k ≤ s.load j := fun j hj => by
    simpa [hs.loads] using hle (s.load j) (by simpa [hs.loads] using ⟨j, hj, rfl⟩)
  refine ⟨?_, fun i hi j hj => ?_⟩
  · rw [hacc, hs.loads]
    refine ext_getElem (by simp) fun i _ _ => ?_
    have hlt := (t.load_le_total i).trans_lt htotal
    rw [hload] at hlt
    simp only [getElem_modify, getElem_map, getElem_range, hload]
    split_ifs at hlt ⊢
    · rw [add_comm, Nat.mod_eq_of_lt hlt]
    · rw [zero_add]
  · have hlargest : t.largest = max a.2 s.largest := by simp [largest, hfirsts]
    have hnear := hs.near i hi j hj
    have hkj := hleast j hj
    rw [hload, hload, hlargest]
    split_ifs <;> subst_vars <;> omega

/-- Each key that has a thread is listed once. -/
structure Listed (s : Assigned α C) : Prop where
  nodup : (s.firsts.map Prod.fst).Nodup
  mem_iff : ∀ key, key ∈ s.firsts.map Prod.fst ↔ (s.server.hashCache key).isSome

theorem listed_call (hs : s.Listed) (h : s.call a = some t) : t.Listed := by
  rcases call_cases h with rfl | ⟨tid, hnone, -, -, hcache, hfirsts⟩
  · exact hs
  constructor
  · rw [hfirsts, map_cons, nodup_cons, hs.mem_iff, hnone]
    exact ⟨nofun, hs.nodup⟩
  · intro key
    rw [hfirsts, hcache, map_cons, mem_cons, hs.mem_iff]
    by_cases hkey : key = a.1 <;> simp [hkey]

/-- Keys keep their thread, and loads that do not wrap are within the largest key of each other. -/
theorem assigned_balanced (h : Reach (calls { server := .start cfg }) Free s) :
    (∀ t, Reach (calls s) Free t → ∀ key i len, s.server.hashCache key = some i →
      t.server.getThreadID key len = some (t.server, i)) ∧
    s.Listed ∧ (s.total < 2 ^ 64 → s.Balanced cfg) := by
  refine ⟨fun t ht key i len hi => ?_,
    h.invariant (P := fun s => s.Listed ∧ (s.total < 2 ^ 64 → s.Balanced cfg)) ?_ ?_⟩
  · have hcache : t.server.hashCache key = some i :=
      ht.invariant (P := fun t => t.server.hashCache key = some i) (by rintro _ rfl; exact hi)
        fun _ _ _ hs _ hstep => hashCache_call hstep hs
    unfold ServerState.getThreadID
    rw [hcache]
  · rintro _ rfl
    refine ⟨⟨.nil, fun _ => by simp [ServerState.start]⟩, fun _ => ⟨?_, fun _ _ _ _ => Nat.zero_le _⟩⟩
    show replicate _ 0 = (range _).map fun _ => 0
    simp
  · rintro s a t ⟨hlisted, hs⟩ - hstep
    refine ⟨listed_call hlisted hstep, fun htotal => ?_⟩
    have hle : s.total ≤ t.total := by
      rcases call_cases hstep with rfl | ⟨_, -, -, -, -, hfirsts⟩
      · rfl
      · simp [total, hfirsts]
    exact balanced_call (fun b hb => (hlisted.mem_iff _).mp (mem_map_of_mem hb))
      (hs (hle.trans_lt htotal)) hstep htotal

theorem assigned_balanced_two : ∃ s : Assigned ℤ noCompressor,
    Reach (calls { server := .start {} }) Free s ∧ s.total = 8 ∧ s.Balanced {} := by
  obtain ⟨s, hs, htotal⟩ := exists_reach (P := fun s : Assigned ℤ noCompressor => s.total = 8)
    (.init (S := calls { server := .start {} }) (G := Free) rfl) [(0, 5), (1, 3)] ⟨_, rfl, rfl⟩
  exact ⟨s, hs, htotal, (assigned_balanced hs).2.2 (by rw [htotal]; decide)⟩

/-- Two keys of `2 ^ 63` bytes on one thread leave it the load of a thread without keys. -/
theorem load_wraps : ∃ s : Assigned ℤ noCompressor,
    Reach (calls { server := .start { engineThreadNum := 1 } }) Free s ∧
      s.server.accLoad = [0] ∧ s.load 0 = 2 ^ 64 :=
  exists_reach (.init rfl) [(0, 2 ^ 63), (1, 2 ^ 63)] ⟨_, rfl, by decide⟩

end Assigned

end MegatronDPU.Server
