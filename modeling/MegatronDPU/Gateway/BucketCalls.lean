import MegatronDPU.Gateway.Bucket

/-!
# Initialising a bucket anew

Adding and removing workers splits the ranges from scratch, but `l_max` stays, and it is
`usize::MAX` after the first time.
-/

namespace MegatronDPU.Gateway

open Lts List

/-- The calls that change the workers of a bucket. -/
inductive Call where
  | init (urls : List String)
  | add (url : String)
  | remove (url : String)

namespace Bucket

/-- The workers after a call. -/
def urlsAfter (b : Bucket) : Call → List String
  | .init urls => urls
  | .add url =>
    if url ∈ b.prefillWorkerUrls then b.prefillWorkerUrls else b.prefillWorkerUrls ++ [url]
  | .remove url => b.prefillWorkerUrls.filter (· ≠ url)

/-- `init_prefill_worker_urls`, `add_prefill_url` or `remove_prefill_url`. -/
def call (b : Bucket) (c : Call) : Bucket :=
  let urls := b.urlsAfter c
  match c with
  | .init _ | .add _ => b.initPrefillWorkerUrls urls
  | .remove url =>
    let b := { b with
      prefillWorkerUrls := urls
      charsPerUrl := b.charsPerUrl.erase url
      bucketCnt := urls.length }
    if 0 < urls.length then b.initPrefillWorkerUrls urls else b

/-- A fresh bucket and any calls. -/
def calls (period : ℕ) : System Bucket Call where
  init b := b = { period }
  step b c := some (b.call c)

end Bucket

theorem BucketPolicy.addPrefillUrl_eq (p : BucketPolicy) (w : Worker) :
    p.addPrefillUrl w = p.setBucket (normalizeModelKey w.modelId)
      ((p.entry (normalizeModelKey w.modelId)).call (.add w.url)) := rfl

theorem BucketPolicy.removePrefillUrl_eq {p : BucketPolicy} {w : Worker} {b : Bucket}
    (h : p.buckets.get? (normalizeModelKey w.modelId) = some b) :
    p.removePrefillUrl w = p.setBucket (normalizeModelKey w.modelId) (b.call (.remove w.url)) := by
  unfold removePrefillUrl
  dsimp only
  rw [h]
  rfl

namespace Bucket

variable {b : Bucket} {c : Call} {period : ℕ}

theorem call_eq (hne : b.urlsAfter c ≠ []) :
    b.call c = b.initPrefillWorkerUrls (b.urlsAfter c) := by
  cases c with
  | init | add => rfl
  | remove => exact if_pos (length_pos_of_ne_nil hne)

theorem lMax_call (b : Bucket) (c : Call) :
    (b.call c).lMax = b.lMax ∨ (b.call c).lMax = usizeMax := by
  have hinit : ∀ (b : Bucket) (urls : List String),
      (b.initPrefillWorkerUrls urls).lMax = b.lMax ∨
        (b.initPrefillWorkerUrls urls).lMax = usizeMax := by
    intro b urls
    rcases eq_or_ne urls [] with rfl | hne
    · exact .inl rfl
    · exact .inr (lMax_init hne)
  cases c with
  | init | add => exact hinit ..
  | remove =>
    dsimp only [call]
    split_ifs
    · exact hinit ..
    · exact .inl rfl

/-- `l_max` is the length it starts with, or the one the first initialisation leaves. -/
theorem lMax_of_reach (h : Reach (calls period) Free b) : b.lMax = 4096 ∨ b.lMax = usizeMax := by
  refine h.invariant (P := fun b => b.lMax = 4096 ∨ b.lMax = usizeMax) ?_ fun b c _ hb _ hstep => ?_
  · rintro _ rfl
    exact .inl rfl
  obtain rfl := Option.some.inj hstep
  rcases b.lMax_call c with hkeep | hmax
  · rwa [hkeep]
  · exact .inr hmax

theorem div_ne_div {n : ℕ} (hpos : 0 < n) (hmax : n ≤ usizeMax) : usizeMax / n ≠ 4096 / n := by
  intro heq
  have hover : usizeMax < n * (usizeMax / n + 1) := Nat.lt_mul_div_succ _ hpos
  have hle : n * (4096 / n) ≤ 4096 := Nat.mul_div_le 4096 n
  rw [heq, Nat.mul_succ] at hover
  have hlarge : usizeMax = 2 ^ 64 - 1 := rfl
  rw [Nat.div_eq_of_lt (by omega : 4096 < n)] at heq
  exact (Nat.div_pos hmax hpos).ne' heq

/-- A bucket that is initialised anew has the ranges of a fresh one iff it had no workers before or
has one worker now (or so many that all gaps are zero). -/
theorem boundary_eq_fresh_iff (period : ℕ) (b : Bucket) (h : Reach (calls period) Free b)
    (c : Call) (hne : b.urlsAfter c ≠ []) :
    (b.call c).boundary = (Bucket.initPrefillWorkerUrls { period } (b.urlsAfter c)).boundary ↔
      b.lMax = 4096 ∨ (b.urlsAfter c).length = 1 ∨ usizeMax < (b.urlsAfter c).length := by
  rw [call_eq hne]
  generalize b.urlsAfter c = urls at *
  rw [boundary_init hne, boundary_init hne]
  rcases lMax_of_reach h with hmax | hmax
  · rw [hmax]
    exact iff_of_true rfl (.inl rfl)
  · rw [hmax]
    constructor
    · intro heq
      by_contra hcon
      have hpos := length_pos_of_ne_nil hne
      have hlo := congrArg (fun l => (rangeAt l 1).lo) heq
      simp only [rangeAt_init (show 1 < urls.length by omega), initRange, Nat.one_mul] at hlo
      exact div_ne_div hpos (by omega) hlo
    · rintro (hfresh | hone | hlt)
      · cases hfresh
      · refine map_congr_left fun e hi => ?_
        obtain ⟨url, i⟩ := e
        have hlt := (mem_zipIdx' hi).1
        obtain rfl : i = 0 := by omega
        simp [initRange, hone]
      · have hsmall : 4096 < urls.length := lt_trans (by decide) hlt
        show _ = map (initRange (4096 / _) _) _
        rw [Nat.div_eq_of_lt hlt, Nat.div_eq_of_lt hsmall]

/-- Two workers are added and one is removed: the one that is left has the range of a worker in a
fresh bucket. -/
theorem boundary_eq_fresh_one_left : ∃ b, Reach (calls 5000) Free b ∧ b.lMax = usizeMax ∧
    b.prefillWorkerUrls = ["http://w1", "http://w2"] ∧
      (b.call (.remove "http://w1")).boundary = [⟨"http://w2", 0, usizeMax⟩] := by
  obtain ⟨b, hreach, hmax, hurls⟩ : ∃ b, Reach (calls 5000) Free b ∧ b.lMax = usizeMax ∧
      b.prefillWorkerUrls = ["http://w1", "http://w2"] :=
    exists_reach (S := calls 5000) (G := Free) (.init rfl)
      [.add "http://w1", .add "http://w2"] (by decide)
  have hleft : b.urlsAfter (.remove "http://w1") = ["http://w2"] := by
    rw [urlsAfter, hurls]
    decide
  have hiff := boundary_eq_fresh_iff 5000 b hreach (.remove "http://w1") (by simp [hleft])
  rw [hleft] at hiff
  exact ⟨b, hreach, hmax, hurls, (hiff.mpr (.inr (.inl rfl))).trans (by decide)⟩

/-- Two workers that were added one by one split `usizeMax`; in a fresh bucket they split 4096. -/
theorem added_workers_split : ∃ b, Reach (calls 5000) Free b ∧
    b.boundary = [⟨"http://w1", 0, 2 ^ 63 - 2⟩, ⟨"http://w2", 2 ^ 63 - 1, usizeMax⟩] ∧
      (Bucket.initPrefillWorkerUrls { period := 5000 } b.prefillWorkerUrls).boundary =
        [⟨"http://w1", 0, 2047⟩, ⟨"http://w2", 2048, usizeMax⟩] :=
  exists_reach (S := calls 5000) (G := Free) (.init rfl)
    [.add "http://w1", .add "http://w2"] (by decide)

end Bucket

end MegatronDPU.Gateway
