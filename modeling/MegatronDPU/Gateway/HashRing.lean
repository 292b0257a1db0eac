import Mathlib.Data.List.Nodup
import Mathlib.Data.List.Rotate
import Mathlib.Data.List.Sort
import Mathlib.Data.List.TakeWhile
import Mathlib.Tactic.NormNum

/-!
# The hash ring of the gateway

Each worker stands at 150 positions of a ring of 64-bit numbers. A key goes to the first healthy
worker clockwise from its own position. The hash is any function.
-/

namespace MegatronDPU.Gateway

open List

def virtualNodesPerWorker : ℕ := 150

/-- The entries before they are sorted. -/
def virtualNodes (position : String → ℕ → UInt64) (urls : List String) : List (UInt64 × String) :=
  urls.flatMap fun url => (range virtualNodesPerWorker).map fun vnode => (position url vnode, url)

/-- `HashRing::new`. -/
def hashRing (position : String → ℕ → UInt64) (urls : List String) : List (UInt64 × String) :=
  (virtualNodes position urls).mergeSort fun a b => a.1 ≤ b.1

/-- The entries from `partition_point` on, wrapping around. -/
def clockwise (entries : List (UInt64 × String)) (keyPos : UInt64) : List (UInt64 × String) :=
  entries.rotate (entries.takeWhile (·.1 < keyPos)).length

/-- The loop of `find_healthy_url`, which skips the URLs it has checked. -/
def firstHealthy (isHealthy : String → Bool) (checkedUrls : List String) :
    List String → Option String
  | [] => none
  | url :: urls =>
    if url ∈ checkedUrls then firstHealthy isHealthy checkedUrls urls
    else if isHealthy url then some url
    else firstHealthy isHealthy (url :: checkedUrls) urls

variable (position : String → ℕ → UInt64) (urls : List String) (keyPos : UInt64)
  (isHealthy : String → Bool)

/-- What `find_healthy_url` walks over. -/
def ringFrom : List (UInt64 × String) := clockwise (hashRing position urls) keyPos

/-- `find_healthy_url` on the ring of `urls`. -/
def findHealthyUrl : Option String :=
  firstHealthy isHealthy [] ((ringFrom position urls keyPos).map Prod.snd)

variable {urls keyPos isHealthy}

theorem firstHealthy_eq {checkedUrls : List String}
    (h : ∀ url ∈ checkedUrls, isHealthy url = false) :
    firstHealthy isHealthy checkedUrls urls = urls.find? isHealthy := by
  induction urls generalizing checkedUrls with
  | nil => rfl
  | cons url urls ih =>
    rw [firstHealthy, find?_cons]
    split_ifs with hmem hhealthy
    · rw [h url hmem, ih h]
    · rw [hhealthy]
    · rw [eq_false_of_ne_true hhealthy, ih (forall_mem_cons.mpr ⟨eq_false_of_ne_true hhealthy, h⟩)]

section

variable {entries : List (UInt64 × String)} (h : entries.Pairwise fun a b => a.1 ≤ b.1)
include h

theorem le_of_mem_dropWhile : ∀ e ∈ entries.dropWhile (·.1 < keyPos), keyPos ≤ e.1 := by
  induction entries with
  | nil => exact fun _ he => absurd he not_mem_nil
  | cons a entries ih =>
    obtain ⟨ha, h⟩ := pairwise_cons.mp h
    intro e he
    rw [dropWhile_cons] at he
    split_ifs at he with hlt
    · exact ih h e he
    · have hle : keyPos ≤ a.1 := by simpa using hlt
      rcases mem_cons.mp he with rfl | he
      · exact hle
      · exact UInt64.le_trans hle (ha e he)

/-- The entries stand by their distance from the key. -/
theorem pairwise_clockwise :
    (clockwise entries keyPos).Pairwise fun a b => a.1 - keyPos ≤ b.1 - keyPos := by
  have hlow : ∀ e ∈ entries.takeWhile (·.1 < keyPos), e.1 < keyPos :=
    fun e he => by simpa using mem_takeWhile_imp he
  have hhigh : ∀ e ∈ entries.dropWhile (·.1 < keyPos), keyPos ≤ e.1 := le_of_mem_dropWhile h
  have hrotate := rotate_append_length_eq (entries.takeWhile (·.1 < keyPos))
    (entries.dropWhile (·.1 < keyPos))
  rw [takeWhile_append_dropWhile] at hrotate
  rw [clockwise, hrotate, pairwise_append]
  simp only [UInt64.le_iff_toNat_le, UInt64.lt_iff_toNat_lt, UInt64.toNat_sub] at *
  have hkey := keyPos.toNat_lt
  refine ⟨(h.sublist (dropWhile_sublist _)).imp_of_mem fun {a b} ha hb hab => ?_,
    (h.sublist (takeWhile_sublist _)).imp_of_mem fun {a b} ha hb hab => ?_, fun a ha b hb => ?_⟩
  · have := hhigh a ha
    have := b.1.toNat_lt
    omega
  · have := hlow b hb
    omega
  · have := hhigh a ha
    have := hlow b hb
    have := a.1.toNat_lt
    omega

end

variable (urls keyPos) in
theorem pairwise_ringFrom :
    (ringFrom position urls keyPos).Pairwise fun a b => a.1 - keyPos ≤ b.1 - keyPos :=
  pairwise_clockwise (pairwise_mergeSort' (fun a b : UInt64 × String => a.1 ≤ b.1) _)

variable (urls keyPos) in
theorem ringFrom_perm : (ringFrom position urls keyPos).Perm (virtualNodes position urls) :=
  (rotate_perm _ _).trans (mergeSort_perm _ _)

variable {position}

theorem mem_ringFrom {e : UInt64 × String} : e ∈ ringFrom position urls keyPos ↔
    e.2 ∈ urls ∧ ∃ vnode < virtualNodesPerWorker, position e.2 vnode = e.1 := by
  rw [(ringFrom_perm ..).mem_iff]
  simp only [virtualNodes, mem_flatMap, mem_map, mem_range, Prod.ext_iff]
  constructor
  · rintro ⟨url, hurl, vnode, hlt, hpos, rfl⟩
    exact ⟨hurl, vnode, hlt, hpos⟩
  · rintro ⟨hurl, vnode, hlt, hpos⟩
    exact ⟨_, hurl, vnode, hlt, hpos, rfl⟩

theorem virtualNodes_filter (w : String) : virtualNodes position (urls.filter (· ≠ w)) =
    (virtualNodes position urls).filter (·.2 ≠ w) := by
  induction urls with
  | nil => rfl
  | cons url urls ih =>
    by_cases hw : url = w <;> simp_all [virtualNodes, filter_map, Function.comp_def]

/-- Without a worker the ring has the other entries, in the same order. -/
theorem ringFrom_filter (h : ((virtualNodes position urls).map Prod.fst).Nodup) (w : String) :
    ringFrom position (urls.filter (· ≠ w)) keyPos =
      (ringFrom position urls keyPos).filter (·.2 ≠ w) := by
  have hperm := ringFrom_perm position (urls.filter (· ≠ w)) keyPos
  rw [virtualNodes_filter] at hperm
  replace hperm := hperm.trans ((ringFrom_perm position urls keyPos).filter _).symm
  refine hperm.eq_of_pairwise (fun a b ha hb hab hba => ?_) (pairwise_ringFrom ..)
    ((pairwise_ringFrom ..).sublist filter_sublist)
  have hin : ∀ e ∈ (ringFrom position urls keyPos).filter (·.2 ≠ w),
      e ∈ virtualNodes position urls := fun e he => (ringFrom_perm ..).mem_iff.mp (mem_filter.mp he).1
  refine inj_on_of_nodup_map h (hin a (hperm.mem_iff.mp ha)) (hin b hb) ?_
  simpa using UInt64.le_antisymm hab hba

theorem findHealthyUrl_eq : findHealthyUrl position urls keyPos isHealthy =
    ((ringFrom position urls keyPos).find? (isHealthy ·.2)).map Prod.snd := by
  rw [findHealthyUrl, firstHealthy_eq fun _ h => absurd h not_mem_nil, find?_map]
  rfl

/-- `find_healthy_url` answers with the nearest healthy worker clockwise, and to take a worker off
the ring moves only the keys it had. -/
theorem findHealthyUrl_spec (h : ((virtualNodes position urls).map Prod.fst).Nodup)
    (keyPos : UInt64) (isHealthy : String → Bool) :
    ((findHealthyUrl position urls keyPos isHealthy).isSome = true ↔
      ∃ url ∈ urls, isHealthy url = true) ∧
    (∀ url, findHealthyUrl position urls keyPos isHealthy = some url →
      url ∈ urls ∧ isHealthy url = true ∧ ∃ vnode < virtualNodesPerWorker,
        ∀ url' ∈ urls, isHealthy url' = true → ∀ vnode' < virtualNodesPerWorker,
          position url vnode - keyPos ≤ position url' vnode' - keyPos) ∧
    ∀ w, findHealthyUrl position (urls.filter (· ≠ w)) keyPos isHealthy =
        findHealthyUrl position urls keyPos (fun url => url ≠ w ∧ isHealthy url) ∧
      (findHealthyUrl position urls keyPos isHealthy ≠ some w →
        findHealthyUrl position (urls.filter (· ≠ w)) keyPos isHealthy =
          findHealthyUrl position urls keyPos isHealthy) := by
  simp only [findHealthyUrl_eq, ringFrom_filter h, find?_filter]
  refine ⟨?_, fun url hurl => ?_, fun w => ⟨by simp, fun hw => congrArg _ ?_⟩⟩
  · rw [Option.isSome_map, find?_isSome]
    constructor
    · rintro ⟨e, he, hhealthy⟩
      exact ⟨e.2, (mem_ringFrom.mp he).1, hhealthy⟩
    · rintro ⟨url, hurl, hhealthy⟩
      exact ⟨(position url 0, url), mem_ringFrom.mpr ⟨hurl, 0, by decide, rfl⟩, hhealthy⟩
  · obtain ⟨e, he, rfl⟩ := Option.map_eq_some_iff.mp hurl
    obtain ⟨hhealthy, before, after, hsplit, hbefore⟩ := find?_eq_some_iff_append.mp he
    obtain ⟨hurl, vnode, hlt, hpos⟩ := mem_ringFrom.mp (mem_of_find?_eq_some he)
    refine ⟨hurl, hhealthy, vnode, hlt, fun url' hurl' hhealthy' vnode' hlt' => ?_⟩
    have hsorted := pairwise_ringFrom position urls keyPos
    have hin : (position url' vnode', url') ∈ ringFrom position urls keyPos :=
      mem_ringFrom.mpr ⟨hurl', vnode', hlt', rfl⟩
    rw [hsplit] at hsorted hin
    rw [hpos]
    rcases mem_append.mp hin with hin | hin
    · have := hbefore _ hin
      simp_all
    · rcases mem_cons.mp hin with rfl | hin
      · exact UInt64.le_refl _
      · exact (pairwise_cons.mp (pairwise_append.mp hsorted).2.1).1 _ hin
  · -- the first healthy entry is not of `w`, and the ones before it are not healthy
    generalize ringFrom position urls keyPos = entries at hw ⊢
    induction entries with
    | nil => rfl
    | cons e entries ih =>
      rw [find?_cons] at hw ⊢
      rw [find?_cons]
      cases hp : isHealthy e.2 <;> simp_all

/-- The workers `w1`, `w2` and `w3` stand one after the other. -/
def inOrder (url : String) (vnode : ℕ) : UInt64 :=
  .ofNat ((if url = "w1" then 0 else if url = "w2" then 150 else 300) + vnode)

/-- The key is among the entries of `w2`. If `w2` is not healthy, and on the ring without `w2`, it
goes to `w3`, also when `w1` is taken off; if `w3` is not healthy either, it goes around to `w1`. -/
theorem findHealthyUrl_spec_inOrder :
    findHealthyUrl inOrder ["w1", "w2", "w3"] 200 (· ≠ "w2") = some "w3" ∧
      findHealthyUrl inOrder ["w1", "w3"] 200 (fun _ => true) = some "w3" ∧
      findHealthyUrl inOrder ["w2", "w3"] 200 (· ≠ "w2") = some "w3" ∧
      findHealthyUrl inOrder ["w1", "w2", "w3"] 200 (· = "w1") = some "w1" := by
  have hpositions : (virtualNodes inOrder ["w1", "w2", "w3"]).map Prod.fst =
      (range 450).map UInt64.ofNat := by
    decide +kernel
  have hnodup : ((virtualNodes inOrder ["w1", "w2", "w3"]).map Prod.fst).Nodup := by
    rw [hpositions, nodup_map_iff_inj_on nodup_range]
    intro i hi j hj hij
    have hnat := congrArg UInt64.toNat hij
    rw [mem_range] at hi hj
    rwa [UInt64.toNat_ofNat', UInt64.toNat_ofNat', Nat.mod_eq_of_lt (by omega),
      Nat.mod_eq_of_lt (by omega)] at hnat
  obtain ⟨hsome, hnearest, hwithout⟩ := findHealthyUrl_spec hnodup 200 (· ≠ "w2")
  have hw3 : findHealthyUrl inOrder ["w1", "w2", "w3"] 200 (· ≠ "w2") = some "w3" := by
    obtain ⟨url, hurl⟩ := Option.isSome_iff_exists.mp (hsome.mpr ⟨"w3", by decide, by decide⟩)
    obtain ⟨hmem, hhealthy, vnode, hlt, hleast⟩ := hnearest url hurl
    have hfar : ∀ vnode < virtualNodesPerWorker,
        ¬ inOrder "w1" vnode - 200 ≤ inOrder "w3" 0 - 200 := by
      decide +kernel
    simp only [mem_cons, not_mem_nil, or_false] at hmem
    rcases hmem with rfl | rfl | rfl
    · exact absurd (hleast "w3" (by decide) (by decide) 0 (by decide)) (hfar vnode hlt)
    · exact absurd hhealthy (by decide)
    · exact hurl
  refine ⟨hw3, ?_, ?_, ?_⟩
  · have hring := ((findHealthyUrl_spec hnodup 200 fun _ => true).2.2 "w2").1
    simpa using hring.trans (by simpa using hw3)
  · exact ((hwithout "w1").2 (by rw [hw3]; decide)).trans hw3
  · obtain ⟨hsome, hnearest, -⟩ := findHealthyUrl_spec hnodup 200 (· = "w1")
    obtain ⟨url, hurl⟩ := Option.isSome_iff_exists.mp (hsome.mpr ⟨"w1", by decide, by decide⟩)
    rw [hurl, of_decide_eq_true (hnearest url hurl).2.1]

end MegatronDPU.Gateway
