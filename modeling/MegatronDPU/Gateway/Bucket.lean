import Mathlib.Data.List.GetD
import MegatronDPU.Lib.Dict
import MegatronDPU.Lib.Search
import MegatronDPU.Lib.Transition

/-!
# The bucket policy of the gateway

`BucketPolicy` sends a request to the prefill worker in whose range the length of its text lies. For
each model it has a table of worker URLs with the ranges (`boundary`) and the characters handed to
each URL (`chars_per_url`). `select_worker` picks a URL from it and looks for it among the workers
of the call, whose health plays no part unless the table has nothing to offer.

Sums of lengths are natural numbers; only the subtraction that can wrap in
`init_prefill_worker_urls` is taken modulo `2 ^ 64`.
-/

namespace MegatronDPU.Gateway

open Search List

/-- `usize::MAX`. -/
def usizeMax : ℕ := 2 ^ 64 - 1

/-- What the policies read of a worker. -/
structure Worker where
  url : String
  modelId : String := ""
  isHealthy : Bool := true
  /-- `circuit_breaker().can_execute()`. -/
  canExecute : Bool := true
  deriving DecidableEq

/-- The filter of `get_healthy_worker_indices`. -/
def Worker.available (w : Worker) : Bool := w.isHealthy && w.canExecute

/-- `UNKNOWN_MODEL_ID`. -/
def unknownModelId : String := "unknown"

/-- `normalize_model_key`: workers without a model share one table. -/
def normalizeModelKey (modelId : String) : String :=
  if modelId = "" then unknownModelId else modelId

/-- The thresholds beyond which loads count as imbalanced, and the time between adjustments. -/
structure BucketConfig where
  balanceAbsThreshold : ℕ := 32
  /-- `max_load as f32 > balance_rel_threshold * min_load as f32`. -/
  exceedsRelThreshold : ℕ → ℕ → Bool
  bucketAdjustIntervalSecs : ℕ := 5

/-! ## A bucket -/

/-- The lengths from `lo` to `hi` go to `url`. -/
structure Boundary where
  url : String
  lo : ℕ
  hi : ℕ
  deriving DecidableEq

/-- A request that has been handed to a worker. -/
structure SequencerRequest where
  id : ℕ
  charCnt : ℕ
  timestamp : ℕ
  prefillWorkerUrl : String
  deriving DecidableEq

/-- The table of one model, with the requests of the last `period` milliseconds. -/
structure Bucket where
  lMax : ℕ := 4096
  bucketCnt : ℕ := 0
  prefillWorkerUrls : List String := []
  loadTotal : ℕ := 0
  period : ℕ
  bucketLoad : ℕ := 0
  boundary : List Boundary := []
  requestList : List SequencerRequest := []
  tReqLoads : Dict ℕ ℕ := .empty
  charsPerUrl : Dict String ℕ := .empty

namespace Bucket

variable (b : Bucket)

/-- `x - 1` on `usize`. -/
def wrappingPred (x : ℕ) : ℕ := (x + usizeMax) % (usizeMax + 1)

/-- `init_prefill_worker_urls`. -/
def initPrefillWorkerUrls (prefillWorkerUrls : List String) : Bucket :=
  let workerCnt := prefillWorkerUrls.length
  let b := { b with
    bucketCnt := workerCnt
    prefillWorkerUrls
    charsPerUrl := Dict.ofList (prefillWorkerUrls.map fun url => (url, 0)) }
  if workerCnt = 0 then { b with boundary := [] }
  else
    let gap := b.lMax / workerCnt
    { b with
      lMax := usizeMax
      boundary := prefillWorkerUrls.zipIdx.map fun (url, i) =>
        { url
          lo := i * gap
          hi := if i = workerCnt - 1 then usizeMax else wrappingPred ((i + 1) * gap) } }

/-- The loop of `post_process_request` over requests that have left the time window. -/
def expire (period now : ℕ) : List SequencerRequest → Dict ℕ ℕ → Dict String ℕ → ℕ →
    List SequencerRequest × Dict ℕ ℕ × Dict String ℕ × ℕ
  | [], loads, chars, removed => ([], loads, chars, removed)
  | req :: reqs, loads, chars, removed =>
    -- a clock that went back counts as expired
    if now < req.timestamp ∨ period < now - req.timestamp then
      let chars := match chars.get? req.prefillWorkerUrl with
        | some count => chars.set req.prefillWorkerUrl (count - req.charCnt)
        | none => chars
      expire period now reqs (loads.erase req.id) chars (removed + req.charCnt)
    else (req :: reqs, loads, chars, removed)

/-- `post_process_request` at time `now`; `id` is the identifier that is drawn. -/
def postProcessRequest (charCnt : ℕ) (prefillUrl : String) (now id : ℕ) : Bucket :=
  let chars := b.charsPerUrl.set prefillUrl ((b.charsPerUrl.get? prefillUrl).getD 0 + charCnt)
  let (reqs, loads, chars, removed) := expire b.period now b.requestList b.tReqLoads chars 0
  { b with
    requestList := reqs ++ [{ id, charCnt, timestamp := now, prefillWorkerUrl := prefillUrl }]
    tReqLoads := loads.set id charCnt
    charsPerUrl := chars
    loadTotal := min usizeMax (b.loadTotal - removed + charCnt) }

/-- `find_boundary`. -/
def findBoundary (charCount : ℕ) : Option String :=
  let range (i : ℕ) : Boundary := b.boundary.getD i ⟨"", 0, 0⟩
  (search (fun i => charCount < (range i).lo) (fun i => (range i).hi < charCount)
    (b.boundary.length + 1) 0 b.boundary.length).map fun mid => (range mid).url

/-- `update_workers_cnt`. -/
def updateWorkersCnt : Bucket :=
  let added := b.prefillWorkerUrls.foldl
    (fun chars url => if (chars.get? url).isSome then chars else chars.set url 0) b.charsPerUrl
  let gone := b.charsPerUrl.entries.filter fun e => e.1 ∉ b.prefillWorkerUrls ∧ e.2 = 0
  { b with
    bucketCnt := b.prefillWorkerUrls.length
    charsPerUrl := gone.foldl (fun chars e => chars.erase e.1) added }

/-- The load with which the bucket has its share, and the loads behind it. -/
def fillBucket (share : ℕ) : List ℕ → ℕ → Option (ℕ × List ℕ)
  | [], _ => none
  | load :: loads, acc =>
    if share ≤ acc + load then some (load, loads) else fillBucket share loads (acc + load)

/-- The loop of `adjust_boundary` over the workers, from `upperBound` with the loads that are left.
The last worker gets the rest in each of its three ways out of the loop. -/
def newBoundary (share : ℕ) : List String → List ℕ → ℕ → List Boundary
  | [], _, _ => []
  | [url], _, upperBound => [{ url, lo := upperBound, hi := usizeMax }]
  | url :: next :: urls, loads, upperBound =>
    match fillBucket share loads 0 with
    | some (load, loads) =>
      let hi := if load ≤ upperBound then upperBound + share else load
      { url, lo := upperBound, hi } :: newBoundary share (next :: urls) loads (hi + 1)
    | none =>
      let hi := upperBound + share
      { url, lo := upperBound, hi } :: newBoundary share (next :: urls) [] (hi + 1)

/-- `adjust_boundary`. -/
def adjustBoundary : Bucket :=
  if b.tReqLoads.entries.isEmpty then b
  else
    let b := b.updateWorkersCnt
    if b.bucketCnt = 0 then b
    else
      let newSingleBucketLoad := b.loadTotal / b.bucketCnt
      let oldSingleBucketLoad := b.bucketLoad
      if newSingleBucketLoad ≤ 2 * oldSingleBucketLoad ∧
          oldSingleBucketLoad ≤ 2 * newSingleBucketLoad ∧ oldSingleBucketLoad ≠ 0 then b
      else
        let histLoad := (b.tReqLoads.entries.map Prod.snd).mergeSort
        { b with
          bucketLoad := newSingleBucketLoad
          boundary := newBoundary newSingleBucketLoad b.prefillWorkerUrls histLoad 0 }

/-- The loads in `chars_per_url`. -/
def loads : List ℕ := b.charsPerUrl.entries.map Prod.snd

/-- The load of the busiest worker, or zero. -/
def maxLoad : ℕ := b.loads.foldl max 0

/-- The load of the idlest worker, or zero. -/
def minLoad : ℕ := b.loads.min?.getD 0

/-- `is_imbalanced` of `select_worker`. -/
def isImbalanced (config : BucketConfig) : Bool :=
  config.balanceAbsThreshold < b.maxLoad - b.minLoad &&
    config.exceedsRelThreshold b.maxLoad b.minLoad

/-- The URLs among which `min_by_key` may find its minimum first. -/
def minUrls : List String :=
  (b.charsPerUrl.entries.filter fun e => e.2 = b.minLoad).map Prod.fst

end Bucket

/-! ## The policy -/

/-- A bucket for each model. -/
structure BucketPolicy where
  config : BucketConfig
  buckets : Dict String Bucket

namespace BucketPolicy

variable (p : BucketPolicy)

/-- The bucket of a model, or a new one. -/
def entry (modelKey : String) : Bucket :=
  (p.buckets.get? modelKey).getD { period := p.config.bucketAdjustIntervalSecs * 1000 }

/-- The bucket of a model is replaced. -/
def setBucket (modelKey : String) (b : Bucket) : BucketPolicy :=
  { p with buckets := p.buckets.set modelKey b }

/-- `init_prefill_worker_urls`: one bucket for each model among the workers. -/
def initPrefillWorkerUrls (prefillWorkers : List Worker) : BucketPolicy :=
  (prefillWorkers.map fun w => normalizeModelKey w.modelId).dedup.foldl
    (fun p modelKey => p.setBucket modelKey ((p.entry modelKey).initPrefillWorkerUrls
      ((prefillWorkers.filter fun w => normalizeModelKey w.modelId = modelKey).map Worker.url))) p

/-- `add_prefill_url`. -/
def addPrefillUrl (worker : Worker) : BucketPolicy :=
  let modelKey := normalizeModelKey worker.modelId
  let bucket := p.entry modelKey
  let urls := if worker.url ∈ bucket.prefillWorkerUrls then bucket.prefillWorkerUrls
    else bucket.prefillWorkerUrls ++ [worker.url]
  p.setBucket modelKey (bucket.initPrefillWorkerUrls urls)

/-- `remove_prefill_url`. The last worker of a model leaves its range behind. -/
def removePrefillUrl (worker : Worker) : BucketPolicy :=
  let modelKey := normalizeModelKey worker.modelId
  match p.buckets.get? modelKey with
  | none => p
  | some bucket =>
    let urls := bucket.prefillWorkerUrls.filter (· ≠ worker.url)
    let bucket := { bucket with
      prefillWorkerUrls := urls
      charsPerUrl := bucket.charsPerUrl.erase worker.url
      bucketCnt := urls.length }
    p.setBucket modelKey (if 0 < urls.length then bucket.initPrefillWorkerUrls urls else bucket)

/-- The bucket that `select_worker` consults: that of the model of the first healthy worker. -/
def bucketFor (workers : List Worker) : Option Bucket :=
  (workers.find? Worker.available).bind fun w => p.buckets.get? (normalizeModelKey w.modelId)

/-- The URLs of which `select_worker` draws one. -/
def picks (workers : List Worker) (charCount : ℕ) : List String :=
  let healthyUrls := (workers.filter Worker.available).map Worker.url
  match p.bucketFor workers with
  | none => healthyUrls
  | some bucket =>
    if bucket.isImbalanced p.config then
      if bucket.minUrls.isEmpty then healthyUrls else bucket.minUrls
    else
      match bucket.findBoundary charCount with
      | some url => if url = "" then healthyUrls else [url]
      | none => healthyUrls

/-- `select_worker` where `pick` is drawn, with the policy after the call. -/
def selectWorker (workers : List Worker) (charCount now id : ℕ) (pick : String) :
    Option ℕ × BucketPolicy :=
  match workers.find? Worker.available with
  | none => (none, p)
  | some w =>
    let modelKey := normalizeModelKey w.modelId
    let p := match p.buckets.get? modelKey with
      | none => p
      | some bucket => p.setBucket modelKey (bucket.postProcessRequest charCount pick now id)
    (workers.findIdx? (·.url = pick), p)

end BucketPolicy

/-! ## Runs -/

/-- A call to the policy, or a round of the thread that adjusts the ranges. -/
inductive Action where
  | init (prefillWorkers : List Worker)
  | add (worker : Worker)
  | remove (worker : Worker)
  | select (workers : List Worker) (charCount now id : ℕ) (pick : String)
  | adjust (modelKey : String)

/-- A policy without buckets, and any actions; a call draws one of its `picks`. -/
def system (config : BucketConfig) : Lts.System BucketPolicy Action where
  init p := p = { config, buckets := .empty }
  step p
    | .init ws => some (p.initPrefillWorkerUrls ws)
    | .add w => some (p.addPrefillUrl w)
    | .remove w => some (p.removePrefillUrl w)
    | .select ws charCount now id pick =>
      if charCount ≤ usizeMax ∧ pick ∈ p.picks ws charCount then
        some (p.selectWorker ws charCount now id pick).2
      else none
    | .adjust modelKey =>
      (p.buckets.get? modelKey).map fun b => p.setBucket modelKey b.adjustBoundary

/-! ## Ranges -/

variable {id now : ℕ}

namespace Bucket

variable {b : Bucket} {n : ℕ} {url : String} {urls : List String}

/-- The ranges of `l` begin at `lo`, follow each other and end with `usizeMax`. -/
def Tiled : ℕ → List Boundary → Prop
  | _, [] => False
  | lo, [r] => r.lo = lo ∧ r.hi = usizeMax
  | lo, r :: r' :: rs => r.lo = lo ∧ lo ≤ r.hi ∧ Tiled (r.hi + 1) (r' :: rs)

/-- Every range holds all lengths. This comes of a gap of zero. -/
def Stacked (l : List Boundary) : Prop := ∀ r ∈ l, r.lo = 0 ∧ r.hi = usizeMax

instance (l : List Boundary) : Decidable (Stacked l) :=
  inferInstanceAs (Decidable (∀ r ∈ l, r.lo = 0 ∧ r.hi = usizeMax))

/-- An adjusted table has a range for each worker, and they are tiled. -/
theorem newBoundary_spec (share : ℕ) (urls : List String) (loads : List ℕ) (upperBound : ℕ) :
    (newBoundary share urls loads upperBound).map Boundary.url = urls ∧
      (urls ≠ [] → Tiled upperBound (newBoundary share urls loads upperBound)) := by
  induction urls generalizing loads upperBound with
  | nil => exact ⟨rfl, fun h => absurd rfl h⟩
  | cons url urls ih =>
    cases urls with
    | nil => exact ⟨rfl, fun _ => ⟨rfl, rfl⟩⟩
    | cons next urls =>
      -- the ranges that follow are not empty, so that `Tiled` goes on with them
      have hgo (hi : ℕ) (loads : List ℕ) (hle : upperBound ≤ hi) (l : List Boundary)
          (hl : l = newBoundary share (next :: urls) loads (hi + 1)) :
          (⟨url, upperBound, hi⟩ :: l).map Boundary.url = url :: next :: urls ∧
            (url :: next :: urls ≠ [] → Tiled upperBound (⟨url, upperBound, hi⟩ :: l)) := by
        obtain ⟨hurls, htiled⟩ := ih loads (hi + 1)
        rw [← hl] at hurls htiled
        refine ⟨congrArg (url :: ·) hurls, fun _ => ?_⟩
        cases l with
        | nil => exact (htiled (cons_ne_nil _ _)).elim
        | cons r rs => exact ⟨rfl, hle, htiled (cons_ne_nil _ _)⟩
      rw [newBoundary]
      split
      · refine hgo _ _ ?_ _ rfl
        split_ifs <;> omega
      · exact hgo _ _ (Nat.le_add_right ..) _ rfl

/-- The questions of `find_boundary` to a range. -/
def rangeAt (l : List Boundary) (i : ℕ) : Boundary := l.getD i ⟨"", 0, 0⟩

theorem Tiled.spec {l : List Boundary} {lo : ℕ} (h : Tiled lo l) :
    0 < l.length ∧ (rangeAt l 0).lo = lo ∧ (rangeAt l (l.length - 1)).hi = usizeMax ∧
      ∀ i, i + 1 < l.length → (rangeAt l (i + 1)).lo = (rangeAt l i).hi + 1 := by
  induction l generalizing lo with
  | nil => exact h.elim
  | cons r l ih =>
    cases l with
    | nil =>
      refine ⟨one_pos, h.1, h.2, fun i hi => ?_⟩
      rw [length_singleton] at hi
      omega
    | cons r' rs =>
      obtain ⟨hpos, hfirst, hlast, hnext⟩ := ih h.2.2
      refine ⟨Nat.succ_pos _, h.1, hlast, fun i hi => ?_⟩
      cases i with
      | zero => exact hfirst
      | succ i => exact hnext i (Nat.lt_of_succ_lt_succ hi)

theorem Tiled.le_lo {l : List Boundary} {lo : ℕ} (h : Tiled lo l) : ∀ r ∈ l, lo ≤ r.lo := by
  induction l generalizing lo with
  | nil => exact h.elim
  | cons r l ih =>
    cases l with
    | nil =>
      intro r' hr'
      rw [mem_singleton.mp hr', h.1]
    | cons r' rs =>
      intro r'' hr''
      rcases mem_cons.mp hr'' with rfl | hr''
      · exact h.1.ge
      · have := ih h.2.2 r'' hr''
        have := h.2.1
        omega

/-- A range ends before any later one begins. -/
theorem Tiled.pairwise {l : List Boundary} {lo : ℕ} (h : Tiled lo l) :
    l.Pairwise fun r r' => r.hi < r'.lo := by
  induction l generalizing lo with
  | nil => exact h.elim
  | cons r l ih =>
    cases l with
    | nil => exact pairwise_singleton ..
    | cons r' rs => exact pairwise_cons.mpr ⟨h.2.2.le_lo, ih h.2.2⟩

/-- The search of `find_boundary` for `n`. -/
abbrev GaplessAt (l : List Boundary) (n : ℕ) : Prop :=
  Gapless (fun i => decide (n < (rangeAt l i).lo)) (fun i => decide ((rangeAt l i).hi < n)) l.length

theorem gaplessAt_of_tiled {l : List Boundary} (h : Tiled 0 l) (hn : n ≤ usizeMax) :
    GaplessAt l n := by
  obtain ⟨hpos, hfirst, hlast, hnext⟩ := h.spec
  refine ⟨hpos, ?_, ?_, fun i hi habove => ?_⟩
  · rw [hfirst]
    exact decide_eq_false (Nat.not_lt_zero n)
  · rw [hlast]
    exact decide_eq_false (Nat.not_lt.mpr hn)
  · have := of_decide_eq_true habove
    rw [hnext i hi]
    exact decide_eq_false (by omega)

theorem findBoundary_of_gapless (h : GaplessAt b.boundary n) :
    ∃ (i : ℕ) (r : Boundary), b.boundary[i]? = some r ∧ r.lo ≤ n ∧ n ≤ r.hi ∧
      b.findBoundary n = some r.url := by
  obtain ⟨mid, hmid⟩ := exists_search h
  obtain ⟨hlt, hlo, hhi⟩ := search_spec hmid
  refine ⟨mid, rangeAt b.boundary mid, ?_, Nat.not_lt.mp (of_decide_eq_false hlo),
    Nat.not_lt.mp (of_decide_eq_false hhi),
    congrArg (Option.map fun mid => (rangeAt b.boundary mid).url) hmid⟩
  rw [rangeAt, getD_eq_getElem _ _ hlt, getElem?_eq_getElem hlt]

/-- The range that the table keeps for a length; where every range holds it, the one in the
middle. -/
def Assigns (b : Bucket) (n : ℕ) (r : Boundary) : Prop :=
  if Stacked b.boundary then b.boundary[b.boundary.length / 2]? = some r
  else r ∈ b.boundary ∧ r.lo ≤ n ∧ n ≤ r.hi

/-- The layouts of a table that a bucket comes by. -/
def Laid (l : List Boundary) : Prop := Tiled 0 l ∨ Stacked l

theorem findBoundary_of_nil (h : b.boundary = []) : b.findBoundary n = none := by
  unfold findBoundary
  rw [h]
  rfl

theorem findBoundary_of_stacked (h : Stacked b.boundary) (hn : n ≤ usizeMax) {r : Boundary}
    (hr : b.boundary[b.boundary.length / 2]? = some r) : b.findBoundary n = some r.url := by
  have hlt : b.boundary.length / 2 < b.boundary.length := (List.getElem?_eq_some_iff.mp hr).1
  have hmid : b.boundary.getD (b.boundary.length / 2) ⟨"", 0, 0⟩ = r := by
    rw [getD_eq_getElem?_getD, hr, Option.getD_some]
  obtain ⟨hlo, hhi⟩ := h r (mem_of_getElem? hr)
  -- the first range that is looked at holds the length
  simp only [findBoundary, search, Nat.sub_zero, Nat.zero_add, if_pos (Nat.zero_lt_of_lt hlt), hmid,
    hlo, hhi, Nat.not_lt_zero, Nat.not_lt.mpr hn, decide_false, Bool.false_eq_true, if_false,
    Option.map_some]

theorem findBoundary_of_tiled (h : Tiled 0 b.boundary) (hn : n ≤ usizeMax) {r : Boundary}
    (hr : r ∈ b.boundary) (hlo : r.lo ≤ n) (hhi : n ≤ r.hi) : b.findBoundary n = some r.url := by
  obtain ⟨i, r', hi, hlo', hhi', hfind⟩ := findBoundary_of_gapless (gaplessAt_of_tiled h hn)
  obtain ⟨j, hj⟩ := mem_iff_getElem?.mp hr
  obtain ⟨hilt, rfl⟩ := List.getElem?_eq_some_iff.mp hi
  obtain ⟨hjlt, rfl⟩ := List.getElem?_eq_some_iff.mp hj
  have hapart := pairwise_iff_getElem.mp h.pairwise
  obtain rfl : i = j := by
    rcases Nat.lt_trichotomy i j with hij | rfl | hij
    · have := hapart i j hilt hjlt hij
      omega
    · rfl
    · have := hapart j i hjlt hilt hij
      omega
  exact hfind

/-- `find_boundary` finds the range that the table keeps for a length. -/
theorem findBoundary_of_assigns (h : Laid b.boundary) (hn : n ≤ usizeMax) {r : Boundary}
    (hr : b.Assigns n r) : b.findBoundary n = some r.url := by
  unfold Assigns at hr
  split_ifs at hr with hstack
  · exact findBoundary_of_stacked hstack hn hr
  · exact findBoundary_of_tiled (h.resolve_right hstack) hn hr.1 hr.2.1 hr.2.2

theorem exists_assigns (h : Laid b.boundary) (hn : n ≤ usizeMax) (hne : b.boundary ≠ []) :
    ∃ r ∈ b.boundary, b.Assigns n r := by
  have hpos := length_pos_of_ne_nil hne
  unfold Assigns
  by_cases hstack : Stacked b.boundary
  · have hlt : b.boundary.length / 2 < b.boundary.length := by omega
    exact ⟨_, getElem_mem hlt, by rw [if_pos hstack, getElem?_eq_getElem hlt]⟩
  · obtain ⟨_, r, hr, hlo, hhi, -⟩ :=
      findBoundary_of_gapless (gaplessAt_of_tiled (h.resolve_right hstack) hn)
    exact ⟨r, mem_of_getElem? hr, by rw [if_neg hstack]; exact ⟨mem_of_getElem? hr, hlo, hhi⟩⟩

/-- The ranges of `init_prefill_worker_urls` for `cnt` workers. -/
def initRange (gap cnt : ℕ) : String × ℕ → Boundary := fun (url, i) =>
  { url
    lo := i * gap
    hi := if i = cnt - 1 then usizeMax else wrappingPred ((i + 1) * gap) }

/-- The workers begin without characters; the requests and the total load stay. -/
theorem init_spec (b : Bucket) (urls : List String) :
    (b.initPrefillWorkerUrls urls).prefillWorkerUrls = urls ∧
      (b.initPrefillWorkerUrls urls).charsPerUrl = Dict.ofList (urls.map fun url => (url, 0)) ∧
      (b.initPrefillWorkerUrls urls).requestList = b.requestList ∧
      (b.initPrefillWorkerUrls urls).loadTotal = b.loadTotal := by
  unfold initPrefillWorkerUrls
  dsimp only
  split_ifs <;> exact ⟨rfl, rfl, rfl, rfl⟩

theorem lMax_init (hne : urls ≠ []) : (b.initPrefillWorkerUrls urls).lMax = usizeMax := by
  rw [initPrefillWorkerUrls, if_neg (mt eq_nil_of_length_eq_zero hne)]

theorem boundary_init (hne : urls ≠ []) : (b.initPrefillWorkerUrls urls).boundary =
    urls.zipIdx.map (initRange (b.lMax / urls.length) urls.length) := by
  rw [initPrefillWorkerUrls, if_neg (mt eq_nil_of_length_eq_zero hne)]
  rfl

theorem rangeAt_init {gap cnt i : ℕ} (hi : i < urls.length) :
    rangeAt (urls.zipIdx.map (initRange gap cnt)) i = initRange gap cnt (urls[i], i) := by
  rw [rangeAt, getD_eq_getElem _ _ (by simpa using hi)]
  simp

theorem wrappingPred_succ {x : ℕ} (h : x < usizeMax) : wrappingPred (x + 1) = x := by
  rw [wrappingPred, add_right_comm, add_assoc, Nat.add_mod_right,
    Nat.mod_eq_of_lt (Nat.lt_succ_of_lt h)]

theorem tiled_initRange {gap cnt k : ℕ} (hgap : 0 < gap) (hmax : cnt * gap ≤ usizeMax)
    (hne : urls ≠ []) (hcnt : k + urls.length = cnt) :
    Tiled (k * gap) ((urls.zipIdx k).map (initRange gap cnt)) := by
  induction urls generalizing k with
  | nil => exact absurd rfl hne
  | cons url urls ih =>
    cases urls with
    | nil =>
      rw [length_singleton] at hcnt
      exact ⟨rfl, if_pos (show k = cnt - 1 by omega)⟩
    | cons next urls =>
      have hrest := ih (k := k + 1) (cons_ne_nil _ _) (by rw [← hcnt, length_cons (a := url)]; omega)
      rw [length_cons, length_cons] at hcnt
      -- the end of the range does not wrap
      have hle : (k + 1) * gap ≤ usizeMax :=
        (Nat.mul_le_mul_right gap (by omega)).trans hmax
      obtain ⟨x, hx⟩ : ∃ x, (k + 1) * gap = x + 1 :=
        Nat.exists_eq_succ_of_ne_zero (Nat.mul_pos k.succ_pos hgap).ne'
      have hhi : (initRange gap cnt (url, k)).hi = x := by
        rw [initRange, if_neg (by omega), hx, wrappingPred_succ (by omega)]
      refine ⟨rfl, ?_, ?_⟩
      · show k * gap ≤ (initRange gap cnt (url, k)).hi
        rw [hhi]
        rw [Nat.succ_mul] at hx
        omega
      · show Tiled ((initRange gap cnt (url, k)).hi + 1) _
        rw [hhi, ← hx]
        exact hrest

/-- A table that is split from scratch is tiled, or stacked when the gap is zero. -/
theorem laid_init (hne : urls ≠ []) (hmax : b.lMax ≤ usizeMax) :
    Laid (b.initPrefillWorkerUrls urls).boundary := by
  rw [boundary_init hne]
  rcases Nat.eq_zero_or_pos (b.lMax / urls.length) with hzero | hgap
  · refine .inr fun r hr => ?_
    obtain ⟨⟨url, i⟩, -, rfl⟩ := mem_map.mp hr
    rw [hzero]
    refine ⟨Nat.mul_zero i, ?_⟩
    simp only [initRange, Nat.mul_zero]
    split_ifs <;> rfl
  · have htiled := tiled_initRange (k := 0) hgap ((Nat.mul_div_le ..).trans hmax) hne (Nat.zero_add _)
    rw [Nat.zero_mul] at htiled
    exact .inl htiled

/-! ## Tables -/

/-- The table of a bucket. If it has workers, its loads and ranges are theirs. (A worker with an
empty URL is never picked.) -/
structure Sound (b : Bucket) : Prop where
  lMax_le : b.lMax ≤ usizeMax
  keys : b.prefillWorkerUrls ≠ [] → "" ∉ b.prefillWorkerUrls →
    ∀ url v, b.charsPerUrl.get? url = some v → url ∈ b.prefillWorkerUrls
  laid : Laid b.boundary
  urls : b.prefillWorkerUrls ≠ [] → b.boundary.map Boundary.url = b.prefillWorkerUrls

theorem sound_new (period : ℕ) : Sound { period } :=
  ⟨show 4096 ≤ usizeMax by decide, fun h => absurd rfl h, .inr nofun, fun h => absurd rfl h⟩

/-- A table with workers has one for every length. -/
theorem Sound.exists_findBoundary (h : b.Sound) (hne : b.prefillWorkerUrls ≠ [])
    (hn : n ≤ usizeMax) : ∃ url ∈ b.prefillWorkerUrls, b.findBoundary n = some url := by
  have hbound : b.boundary ≠ [] := by
    intro hnil
    rw [← h.urls hne, hnil] at hne
    exact hne rfl
  obtain ⟨r, hr, hassigns⟩ := exists_assigns h.laid hn hbound
  refine ⟨r.url, ?_, findBoundary_of_assigns h.laid hn hassigns⟩
  rw [← h.urls hne]
  exact mem_map_of_mem hr

theorem sound_initPrefillWorkerUrls (hmax : b.lMax ≤ usizeMax) (urls : List String) :
    (b.initPrefillWorkerUrls urls).Sound := by
  rcases eq_or_ne urls [] with rfl | hne
  · exact ⟨hmax, fun h => absurd rfl h, .inr nofun, fun h => absurd rfl h⟩
  obtain ⟨hurls, hchars, -⟩ := b.init_spec urls
  refine ⟨(lMax_init hne).le, fun _ _ url v hv => ?_, laid_init hne hmax, fun _ => ?_⟩
  · rw [hchars] at hv
    obtain ⟨url', hurl', heq⟩ := mem_map.mp (Dict.mem_of_get?_ofList hv)
    cases heq
    exact hurls.symm ▸ hurl'
  · rw [boundary_init hne, hurls, map_map]
    exact zipIdx_map_fst 0 urls

variable {chars : Dict String ℕ} {v : ℕ}

/-- The characters of the requests that went to a worker. -/
def sentTo (reqs : List SequencerRequest) (url : String) : ℕ :=
  (reqs.map fun req => if req.prefillWorkerUrl = url then req.charCnt else 0).sum

/-- The characters of all requests. -/
def sentTotal (reqs : List SequencerRequest) : ℕ := (reqs.map (·.charCnt)).sum

/-- The characters of an expired request are taken from its worker. -/
def discharge (chars : Dict String ℕ) (req : SequencerRequest) : Dict String ℕ :=
  match chars.get? req.prefillWorkerUrl with
  | some count => chars.set req.prefillWorkerUrl (count - req.charCnt)
  | none => chars

theorem get?_discharge (req : SequencerRequest) : (discharge chars req).get? url =
    (chars.get? url).map (· - if req.prefillWorkerUrl = url then req.charCnt else 0) := by
  unfold discharge
  by_cases hurl : req.prefillWorkerUrl = url
  · subst hurl
    cases hcount : chars.get? req.prefillWorkerUrl with
    | none => exact hcount
    | some count => simp
  · rw [if_neg hurl]
    split
    · simp [Dict.get?_set_of_ne (Ne.symm hurl)]
    · simp

/-- Expired requests are taken off the front, and their characters off the loads. -/
theorem expire_spec (period now : ℕ) (reqs : List SequencerRequest) (loads : Dict ℕ ℕ)
    (chars : Dict String ℕ) (removed : ℕ) : ∃ gone,
    reqs = gone ++ (expire period now reqs loads chars removed).1 ∧
      (expire period now reqs loads chars removed).2.2.2 = removed + sentTotal gone ∧
      ∀ url, (expire period now reqs loads chars removed).2.2.1.get? url =
        (chars.get? url).map (· - sentTo gone url) := by
  induction reqs generalizing loads chars removed with
  | nil => exact ⟨[], rfl, rfl, fun url => by simp [sentTo, expire]⟩
  | cons req reqs ih =>
    rw [expire]
    split_ifs
    · obtain ⟨gone, hreqs, hremoved, hget⟩ :=
        ih (loads.erase req.id) (discharge chars req) (removed + req.charCnt)
      refine ⟨req :: gone, congrArg (req :: ·) hreqs, hremoved.trans (add_assoc ..),
        fun url => (hget url).trans ?_⟩
      rw [get?_discharge, Option.map_map]
      exact congrArg (Option.map · _) (funext fun v => Nat.sub_sub ..)
    · exact ⟨[], rfl, rfl, fun url => by simp [sentTo]⟩

theorem sound_postProcessRequest (h : b.Sound) {charCnt : ℕ} {pick : String}
    (hpick : b.prefillWorkerUrls ≠ [] → "" ∉ b.prefillWorkerUrls → pick ∈ b.prefillWorkerUrls) :
    (b.postProcessRequest charCnt pick now id).Sound := by
  refine ⟨h.lMax_le, fun hne hempty url v hv => ?_, h.laid, h.urls⟩
  obtain ⟨_, -, -, hget⟩ := expire_spec b.period now b.requestList
    b.tReqLoads (b.charsPerUrl.set pick ((b.charsPerUrl.get? pick).getD 0 + charCnt)) 0
  obtain ⟨v', hv', -⟩ := Option.map_eq_some_iff.mp ((hget url).symm.trans hv)
  rw [Dict.get?_set] at hv'
  split_ifs at hv' with heq
  · rw [heq]
    exact hpick hne hempty
  · exact h.keys hne hempty url v' hv'

theorem get?_foldl_erase (gone : List (String × ℕ)) :
    (gone.foldl (fun chars e => chars.erase e.1) chars).get? url =
      if url ∈ gone.map Prod.fst then none else chars.get? url := by
  induction gone generalizing chars with
  | nil => rfl
  | cons e gone ih =>
    rw [foldl_cons, ih, Dict.get?_erase, map_cons]
    by_cases h : url = e.1
    · simp [h]
    · simp only [mem_cons, h, if_false, false_or]

theorem get?_foldl_add (urls : List String) :
    (urls.foldl (fun chars url => if (chars.get? url).isSome then chars else chars.set url 0)
      chars).get? url =
      (chars.get? url).or (if url ∈ urls then some 0 else none) := by
  induction urls generalizing chars with
  | nil => simp
  | cons url' urls ih =>
    rw [foldl_cons, ih]
    by_cases h : url = url'
    · subst h
      cases hget : chars.get? url <;> simp [hget]
    · split_ifs <;> simp_all [Dict.get?_set_of_ne h]

theorem get?_updateWorkersCnt (h : b.updateWorkersCnt.charsPerUrl.get? url = some v)
    (hurl : url ∉ b.prefillWorkerUrls) : b.charsPerUrl.get? url = some v := by
  have hget := (get?_foldl_erase _).symm.trans h
  rw [get?_foldl_add, if_neg hurl, Option.or_none] at hget
  split_ifs at hget
  exact hget

theorem sound_updateWorkersCnt (h : b.Sound) : b.updateWorkersCnt.Sound := by
  refine ⟨h.lMax_le, fun hne hempty url v hv => ?_, h.laid, h.urls⟩
  by_contra hurl
  exact hurl (h.keys hne hempty url v (get?_updateWorkersCnt hv hurl))

theorem sound_adjustBoundary (h : b.Sound) : b.adjustBoundary.Sound := by
  have hcnt := sound_updateWorkersCnt h
  unfold adjustBoundary
  dsimp only
  split_ifs with h₁ h₂ h₃
  · exact h
  · exact hcnt
  · exact hcnt
  · have hne : b.prefillWorkerUrls ≠ [] := fun hnil => h₂ (congrArg length hnil)
    obtain ⟨hurls, htiled⟩ := newBoundary_spec
      (b.updateWorkersCnt.loadTotal / b.updateWorkersCnt.bucketCnt) b.prefillWorkerUrls
      (b.updateWorkersCnt.tReqLoads.entries.map Prod.snd).mergeSort 0
    exact ⟨hcnt.lMax_le, hcnt.keys, .inl (htiled hne), fun _ => hurls⟩

theorem minUrls_ne_nil {config : BucketConfig} (h : b.isImbalanced config = true) :
    b.minUrls ≠ [] := by
  rw [isImbalanced, Bool.and_eq_true, decide_eq_true_eq] at h
  have hloads : b.loads ≠ [] := by
    intro hnil
    rw [maxLoad, hnil] at h
    simp at h
  obtain ⟨m, hm⟩ := Option.isSome_iff_exists.mp (isSome_min?_of_mem (head_mem hloads))
  have hmin : b.minLoad = m := by rw [minLoad, hm, Option.getD_some]
  obtain ⟨e, he, heq⟩ := mem_map.mp (min?_mem hm)
  apply ne_nil_of_mem (a := e.1)
  exact mem_map_of_mem (mem_filter.mpr ⟨he, by simp [hmin, heq]⟩)

/-- The URLs of `min_by_key` are those with the least load. -/
theorem mem_minUrls_iff : url ∈ b.minUrls ↔ ∃ v, b.charsPerUrl.get? url = some v ∧
    ∀ url' v', b.charsPerUrl.get? url' = some v' → v ≤ v' := by
  have hmem : ∀ {url v}, b.charsPerUrl.get? url = some v → v ∈ b.loads := fun hget =>
    mem_map_of_mem (f := Prod.snd) (Dict.mem_entries_iff.mpr hget)
  have hleast : ∀ {v}, v ∈ b.loads → b.minLoad ∈ b.loads ∧ ∀ v' ∈ b.loads, b.minLoad ≤ v' := by
    intro v hv
    obtain ⟨m, hm⟩ := Option.isSome_iff_exists.mp (isSome_min?_of_mem hv)
    rw [minLoad, hm, Option.getD_some]
    exact min?_eq_some_iff.mp hm
  constructor
  · intro hurl
    obtain ⟨⟨url, v⟩, he, rfl⟩ := mem_map.mp hurl
    obtain ⟨he, hv⟩ := mem_filter.mp he
    have hget := Dict.mem_entries_iff.mp he
    obtain rfl : v = b.minLoad := of_decide_eq_true hv
    exact ⟨b.minLoad, hget, fun url' v' hget' => (hleast (hmem hget)).2 v' (hmem hget')⟩
  · rintro ⟨v, hget, hle⟩
    obtain ⟨hmin, hmin_le⟩ := hleast (hmem hget)
    obtain ⟨⟨url', v'⟩, he', hv'⟩ := mem_map.mp hmin
    have hv : v = b.minLoad :=
      le_antisymm (hv' ▸ hle url' v' (Dict.mem_entries_iff.mp he')) (hmin_le v (hmem hget))
    refine mem_map.mpr ⟨(url, v), mem_filter.mpr ⟨Dict.mem_entries_iff.mpr hget, ?_⟩, rfl⟩
    exact decide_eq_true hv

theorem mem_of_mem_minUrls (h : b.Sound) (hne : b.prefillWorkerUrls ≠ [])
    (hempty : "" ∉ b.prefillWorkerUrls) (hurl : url ∈ b.minUrls) : url ∈ b.prefillWorkerUrls := by
  obtain ⟨⟨_, v⟩, he, rfl⟩ := mem_map.mp hurl
  exact h.keys hne hempty _ v (Dict.mem_entries_iff.mp (mem_filter.mp he).1)

end Bucket

/-! ## Reachable states -/

namespace BucketPolicy

variable {p : BucketPolicy} {b : Bucket} {workers : List Worker} {charCount : ℕ} {url : String}

/-- Every table is sound. -/
def Sound (p : BucketPolicy) : Prop := ∀ modelKey b, p.buckets.get? modelKey = some b → b.Sound

section

variable (h : p.Sound)
include h

theorem Sound.entry (modelKey : String) : (p.entry modelKey).Sound := by
  rw [BucketPolicy.entry]
  cases hb : p.buckets.get? modelKey with
  | none => exact Bucket.sound_new _
  | some b => exact h modelKey b hb

theorem Sound.setBucket {modelKey : String} (hb : b.Sound) : (p.setBucket modelKey b).Sound := by
  intro k b' hb'
  rw [BucketPolicy.setBucket, Dict.get?_set] at hb'
  split_ifs at hb'
  · cases hb'
    exact hb
  · exact h k b' hb'

theorem Sound.initPrefillWorkerUrls (ws : List Worker) : (p.initPrefillWorkerUrls ws).Sound := by
  unfold BucketPolicy.initPrefillWorkerUrls
  generalize (ws.map fun w => normalizeModelKey w.modelId).dedup = modelKeys
  induction modelKeys generalizing p with
  | nil => exact h
  | cons k ks ih =>
    exact ih (h.setBucket (Bucket.sound_initPrefillWorkerUrls (h.entry k).lMax_le _))

theorem Sound.addPrefillUrl (w : Worker) : (p.addPrefillUrl w).Sound :=
  h.setBucket (Bucket.sound_initPrefillWorkerUrls (h.entry _).lMax_le _)

theorem Sound.removePrefillUrl (w : Worker) : (p.removePrefillUrl w).Sound := by
  unfold BucketPolicy.removePrefillUrl
  dsimp only
  cases hb : p.buckets.get? (normalizeModelKey w.modelId) with
  | none => exact h
  | some b =>
    have hmax := (h _ b hb).lMax_le
    refine h.setBucket ?_
    split_ifs with hlen
    · exact Bucket.sound_initPrefillWorkerUrls hmax _
    · -- no worker is left
      have hnil : b.prefillWorkerUrls.filter (· ≠ w.url) = [] :=
        eq_nil_of_length_eq_zero (by omega)
      exact ⟨hmax, fun hne => absurd hnil hne, (h _ b hb).laid, fun hne => absurd hnil hne⟩

/-- A table with workers offers only its own. -/
theorem mem_of_mem_picks (hcount : charCount ≤ usizeMax) (hb : p.bucketFor workers = some b)
    (hne : b.prefillWorkerUrls ≠ []) (hempty : "" ∉ b.prefillWorkerUrls)
    (hurl : url ∈ p.picks workers charCount) : url ∈ b.prefillWorkerUrls := by
  obtain ⟨w, -, hget⟩ := Option.bind_eq_some_iff.mp hb
  have hsound := h _ b hget
  unfold picks at hurl
  rw [hb] at hurl
  dsimp only at hurl
  by_cases himb : b.isImbalanced p.config = true
  · rw [if_pos himb, if_neg (by simpa using Bucket.minUrls_ne_nil himb)] at hurl
    exact Bucket.mem_of_mem_minUrls hsound hne hempty hurl
  · obtain ⟨url', hmem, hfind⟩ := hsound.exists_findBoundary hne hcount
    rw [if_neg himb, hfind] at hurl
    dsimp only at hurl
    rw [if_neg fun heq : url' = "" => hempty (heq ▸ hmem), mem_singleton] at hurl
    exact hurl ▸ hmem

theorem Sound.selectWorker (hcount : charCount ≤ usizeMax)
    (hurl : url ∈ p.picks workers charCount) :
    (p.selectWorker workers charCount now id url).2.Sound := by
  unfold BucketPolicy.selectWorker
  cases hw : workers.find? Worker.available with
  | none => exact h
  | some w =>
    dsimp only
    cases hb : p.buckets.get? (normalizeModelKey w.modelId) with
    | none => exact h
    | some b =>
      have hfor : p.bucketFor workers = some b := by rw [bucketFor, hw]; exact hb
      exact h.setBucket (Bucket.sound_postProcessRequest (h _ b hb) fun hne hempty =>
        mem_of_mem_picks h hcount hfor hne hempty hurl)

end

end BucketPolicy

/-- Tables are sound in every reachable state. -/
theorem sound_of_reach {config : BucketConfig} {p : BucketPolicy}
    (h : Lts.Reach (system config) Lts.Free p) : p.Sound := by
  refine h.invariant ?_ fun p a q hp _ hstep => ?_
  · rintro p rfl modelKey b hb
    cases hb
  · cases a with
    | init ws =>
      cases hstep
      exact hp.initPrefillWorkerUrls ws
    | add w =>
      cases hstep
      exact hp.addPrefillUrl w
    | remove w =>
      cases hstep
      exact hp.removePrefillUrl w
    | select ws charCount now id pick =>
      simp only [system] at hstep
      split_ifs at hstep with hpick
      cases hstep
      exact hp.selectWorker hpick.1 hpick.2
    | adjust modelKey =>
      obtain ⟨b, hb, rfl⟩ := Option.map_eq_some_iff.mp hstep
      exact hp.setBucket (Bucket.sound_adjustBoundary (hp _ b hb))

/-! ## What a call returns -/

namespace BucketPolicy

variable {p : BucketPolicy} {workers : List Worker} {charCount : ℕ}

/-- The first worker with the URL, which the call returns, is healthy. -/
def Resolves (workers : List Worker) (url : String) : Prop :=
  ∃ w, workers.find? (·.url = url) = some w ∧ w.available = true

/-- Whatever is drawn, the call returns the index of a healthy worker. -/
def SelectsHealthy (p : BucketPolicy) (workers : List Worker) (charCount : ℕ) : Prop :=
  ∀ now id, ∀ pick ∈ p.picks workers charCount, ∃ i w,
    (p.selectWorker workers charCount now id pick).1 = some i ∧ workers[i]? = some w ∧
      w.available = true

section

variable (h : ∃ w ∈ workers, w.available = true)
include h

theorem selectWorker_healthy_iff {pick : String} :
    (∃ i w, (p.selectWorker workers charCount now id pick).1 = some i ∧
      workers[i]? = some w ∧ w.available = true) ↔ Resolves workers pick := by
  obtain ⟨w, hw, hav⟩ := h
  obtain ⟨w', hfind⟩ := Option.isSome_iff_exists.mp
    (find?_isSome.mpr ⟨w, hw, hav⟩ : (workers.find? Worker.available).isSome = true)
  rw [Resolves, find?_eq_bind_findIdx?_getElem?, selectWorker, hfind]
  simp only [Option.bind_eq_some_iff]
  constructor
  · rintro ⟨i, w, hi, hget, hav⟩
    exact ⟨w, ⟨i, hi, hget⟩, hav⟩
  · rintro ⟨w, ⟨i, hi, hget⟩, hav⟩
    exact ⟨i, w, hi, hget, hav⟩

theorem selectsHealthy_iff : p.SelectsHealthy workers charCount ↔
      ∀ url ∈ p.picks workers charCount, Resolves workers url := by
  constructor
  · intro hsel url hurl
    exact (selectWorker_healthy_iff h).mp (hsel 0 0 url hurl)
  · intro hres now id pick hpick
    exact (selectWorker_healthy_iff h).mpr (hres pick hpick)

theorem picks_ne_nil : p.picks workers charCount ≠ [] := by
  have hhealthy : (workers.filter Worker.available).map Worker.url ≠ [] := by
    obtain ⟨w, hw, hav⟩ := h
    exact ne_nil_of_mem (mem_map_of_mem (mem_filter.mpr ⟨hw, hav⟩))
  unfold picks
  cases p.bucketFor workers with
  | none => exact hhealthy
  | some b =>
    dsimp only
    split_ifs with himb hmin
    · exact hhealthy
    · simpa using hmin
    · cases b.findBoundary charCount with
      | none => exact hhealthy
      | some url =>
        dsimp only
        split_ifs
        · exact hhealthy
        · exact cons_ne_nil _ _

end

theorem resolves_of_nodup (h : (workers.map Worker.url).Nodup) {w : Worker} (hw : w ∈ workers)
    (hav : w.available = true) : Resolves workers w.url := by
  obtain ⟨w', hfind⟩ := Option.isSome_iff_exists.mp
    (find?_isSome.mpr ⟨w, hw, by simp⟩ :
      (workers.find? fun w' => decide (w'.url = w.url)).isSome = true)
  have hurl := find?_some hfind
  rw [decide_eq_true_eq] at hurl
  obtain rfl := inj_on_of_nodup_map h (mem_of_find?_eq_some hfind) hw hurl
  exact ⟨w', hfind, hav⟩

/-- Every healthy worker of the list is the first one with its URL, so that one that is drawn by its
URL is found again. -/
def HealthyFirst (workers : List Worker) : Prop :=
  ∀ w ∈ workers, w.available = true → Resolves workers w.url

theorem forall_healthyUrls_iff : (∀ url ∈ (workers.filter Worker.available).map Worker.url,
    Resolves workers url) ↔ HealthyFirst workers := by
  simp only [mem_map, mem_filter, forall_exists_index, and_imp, HealthyFirst]
  constructor
  · exact fun hall w hw hav => hall _ w hw hav rfl
  · rintro hall _ w hw hav rfl
    exact hall w hw hav

/-- What the table of the model has for a request of the length are healthy workers of the list:
all workers with the least load if the loads are imbalanced, the worker of its range if they are
not. Where there is no table, no range or no URL, the URLs of the healthy workers are their own. -/
def TableHealthy (p : BucketPolicy) (workers : List Worker) (charCount : ℕ) : Prop :=
  match p.bucketFor workers with
  | none => HealthyFirst workers
  | some b =>
    if b.isImbalanced p.config then
      ∀ url v, b.charsPerUrl.get? url = some v →
        (∀ url' v', b.charsPerUrl.get? url' = some v' → v ≤ v') → Resolves workers url
    else
      (b.boundary = [] → HealthyFirst workers) ∧ ∀ r, b.Assigns charCount r →
        if r.url = "" then HealthyFirst workers else Resolves workers r.url

theorem forall_picks_iff (h : p.Sound) (hcount : charCount ≤ usizeMax) :
    (∀ url ∈ p.picks workers charCount, Resolves workers url) ↔
      p.TableHealthy workers charCount := by
  unfold picks TableHealthy
  cases hb : p.bucketFor workers with
  | none => exact forall_healthyUrls_iff
  | some b =>
    obtain ⟨w, -, hget⟩ := Option.bind_eq_some_iff.mp hb
    have hsound := h _ b hget
    dsimp only
    by_cases himb : b.isImbalanced p.config = true
    · rw [if_pos himb, if_pos himb, if_neg (by simpa using Bucket.minUrls_ne_nil himb)]
      simp only [Bucket.mem_minUrls_iff, forall_exists_index, and_imp]
    · rw [if_neg himb, if_neg himb]
      rcases eq_or_ne b.boundary [] with hnil | hne
      · -- no range is assigned
        have hassigns : ∀ r, ¬ b.Assigns charCount r := by
          intro r hr
          unfold Bucket.Assigns at hr
          rw [hnil, if_pos (show Bucket.Stacked [] from forall_mem_nil _)] at hr
          cases hr
        rw [Bucket.findBoundary_of_nil hnil]
        exact forall_healthyUrls_iff.trans
          ⟨fun hall => ⟨fun _ => hall, fun r hr => absurd hr (hassigns r)⟩, fun hall => hall.1 hnil⟩
      · obtain ⟨r, -, hr⟩ := Bucket.exists_assigns hsound.laid hcount hne
        have hfind := Bucket.findBoundary_of_assigns hsound.laid hcount hr
        -- the ranges that hold the length have one URL
        have hurl : ∀ r', b.Assigns charCount r' → r'.url = r.url := fun r' hr' =>
          Option.some.inj ((Bucket.findBoundary_of_assigns hsound.laid hcount hr').symm.trans hfind)
        rw [hfind]
        dsimp only
        by_cases hempty : r.url = ""
        · rw [if_pos hempty, forall_healthyUrls_iff]
          refine ⟨fun hall => ⟨fun _ => hall, fun r' hr' => ?_⟩, fun hall => ?_⟩
          · rw [if_pos ((hurl r' hr').trans hempty)]
            exact hall
          · have := hall.2 r hr
            rwa [if_pos hempty] at this
        · rw [if_neg hempty, forall_mem_singleton]
          refine ⟨fun hres => ⟨fun hnil => absurd hnil hne, fun r' hr' => ?_⟩, fun hall => ?_⟩
          · rw [hurl r' hr', if_neg hempty]
            exact hres
          · have := hall.2 r hr
            rwa [if_neg hempty] at this

/-- In every reachable state, a call whose list has a healthy worker draws some URL, and returns a
healthy worker for every draw iff what the table of the model has for the length of its request are
healthy workers. So it does if the model has no table and URLs are distinct, and for every length if
all workers of its table are healthy. -/
theorem select_worker_healthy_iff (config : BucketConfig) (p : BucketPolicy)
    (hp : Lts.Reach (system config) Lts.Free p) (workers : List Worker) (charCount : ℕ)
    (hcount : charCount ≤ usizeMax) (h : ∃ w ∈ workers, w.available = true) :
    p.picks workers charCount ≠ [] ∧
      (p.SelectsHealthy workers charCount ↔ p.TableHealthy workers charCount) ∧
      (p.bucketFor workers = none → (workers.map Worker.url).Nodup →
        p.SelectsHealthy workers charCount) ∧
      ∀ b, p.bucketFor workers = some b → b.prefillWorkerUrls ≠ [] → "" ∉ b.prefillWorkerUrls →
        (∀ url ∈ b.prefillWorkerUrls, Resolves workers url) →
          p.SelectsHealthy workers charCount := by
  have hsound := sound_of_reach hp
  have hiff := (selectsHealthy_iff h).trans (forall_picks_iff hsound hcount)
  refine ⟨picks_ne_nil h, hiff, fun hnone hnodup => hiff.mpr ?_, fun b hb hne hempty hres => ?_⟩
  · unfold TableHealthy
    rw [hnone]
    exact fun w hw hav => resolves_of_nodup hnodup hw hav
  · rw [selectsHealthy_iff h]
    intro url hurl
    exact hres url (mem_of_mem_picks hsound hcount hb hne hempty hurl)

/-- The workers of a call, of which the first may be unhealthy. -/
def twoWorkers (firstHealthy : Bool) : List Worker :=
  [{ url := "http://w1:8000", isHealthy := firstHealthy }, { url := "http://w2:8000" }]

/-- The policy after two workers have been added. -/
def twoAdded : BucketPolicy :=
  (({ config := { exceedsRelThreshold := fun _ _ => true }, buckets := .empty } :
    BucketPolicy).addPrefillUrl { url := "http://w1:8000" }).addPrefillUrl
      { url := "http://w2:8000" }

theorem reach_twoAdded :
    Lts.Reach (system { exceedsRelThreshold := fun _ _ => true }) Lts.Free twoAdded :=
  .step (a := .add { url := "http://w2:8000" })
    (.step (a := .add { url := "http://w1:8000" }) (.init rfl) trivial rfl) trivial rfl

/-- The first worker is unhealthy: a request whose length is in the range of the second is served, a
short one is not. -/
theorem select_worker_healthy_iff_second :
    twoAdded.SelectsHealthy (twoWorkers false) (2 ^ 63) ∧
      ¬ twoAdded.SelectsHealthy (twoWorkers false) 5 := by
  obtain ⟨b, hb, hbal, hbound⟩ : ∃ b, twoAdded.bucketFor (twoWorkers false) = some b ∧
      b.isImbalanced twoAdded.config = false ∧ b.boundary = [⟨"http://w1:8000", 0, 2 ^ 63 - 2⟩,
        ⟨"http://w2:8000", 2 ^ 63 - 1, usizeMax⟩] := ⟨_, rfl, by decide, by decide⟩
  have hassigns : ∀ n r, b.Assigns n r ↔ r ∈ b.boundary ∧ r.lo ≤ n ∧ n ≤ r.hi := by
    intro n r
    rw [Bucket.Assigns, if_neg]
    rw [hbound]
    decide
  have hiff := fun n hn => (select_worker_healthy_iff _ twoAdded reach_twoAdded (twoWorkers false) n
    hn ⟨_, mem_cons_of_mem _ mem_cons_self, rfl⟩).2.1
  simp only [TableHealthy, hb, hbal, Bool.false_eq_true, if_false, hassigns, hbound] at hiff
  constructor
  · refine (hiff _ (by decide)).mpr ⟨fun hnil => absurd hnil (cons_ne_nil _ _), ?_⟩
    rintro r ⟨hr, -, hhi⟩
    rcases mem_pair.mp hr with rfl | rfl
    · exact absurd hhi (by decide)
    · exact ⟨_, rfl, rfl⟩
  · intro hsel
    obtain ⟨w, hw, hav⟩ := ((hiff _ (by decide)).mp hsel).2 _ ⟨mem_cons_self, by decide, by decide⟩
    cases hw
    cases hav

/-- A worker that is not healthy any more keeps its range: a short request goes to it, though
another worker is healthy. -/
theorem select_unhealthy :
    Lts.Reach (system { exceedsRelThreshold := fun _ _ => true }) Lts.Free twoAdded ∧
      "http://w1:8000" ∈ twoAdded.picks (twoWorkers false) 5 ∧
      (twoAdded.selectWorker (twoWorkers false) 5 0 0 "http://w1:8000").1 = some 0 ∧
      ((twoWorkers false)[0]?.map Worker.available = some false) ∧
      ((twoWorkers false)[1]?.map Worker.available = some true) ∧
      ¬ twoAdded.SelectsHealthy (twoWorkers false) 5 := by
  have hpick : "http://w1:8000" ∈ twoAdded.picks (twoWorkers false) 5 := by decide
  refine ⟨reach_twoAdded, hpick, by decide, rfl, rfl, fun h => ?_⟩
  obtain ⟨i, w, hi, hget, hav⟩ := h 0 0 _ hpick
  have hzero : (twoAdded.selectWorker (twoWorkers false) 5 0 0 "http://w1:8000").1 = some 0 := by
    decide
  obtain rfl := Option.some.inj (hzero.symm.trans hi)
  cases hget
  cases hav

end BucketPolicy

end MegatronDPU.Gateway
