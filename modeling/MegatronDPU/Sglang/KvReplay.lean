import MegatronDPU.Lib.Transition
import MegatronDPU.Sglang.KvEvents

/-!
# Replaying the events of whole runs

A page hash is made of the tokens of the page and of the hash before it, but not of the extra key.
The same tokens under two extra keys are two nodes with one hash, and the event for the first that
is evicted takes the hash away from the replay while the other node still has it.
-/

namespace MegatronDPU.Radix

open Pages Finset Function List Option

variable {H B : Type} {P : Params H B} {c : RadixCache H B} {T : Trie ℕ ChildKey}

/-! ## Runs -/

/-- The calls of a radix cache. -/
inductive Call
  | insert (key : RadixKey) (value : List ℕ)
  | matchPrefix (key : RadixKey)
  | evict (numTokens : ℕ)
  | reset

theorem good_reset (c : RadixCache H B) : Good P (P.reset c) (.single c.counter) := by
  have hgood : ∀ events, Good P
      { c.alloc { (TreeNode.empty : TreeNode H) with lockRef := 1, hashValue := some [] } with
        rootNode := c.counter
        evictableSize := 0
        protectedSize := 0
        evictableLeaves := []
        kvEventQueue := events } (.single c.counter) := by
    intro events
    have hheap : update c.heap c.counter
        { (TreeNode.empty : TreeNode H) with lockRef := 1, hashValue := some [] } c.counter =
        { (TreeNode.empty : TreeNode H) with lockRef := 1, hashValue := some [] } :=
      update_self ..
    refine ⟨⟨rfl, ?_, ?_, ?_, ?_, ?_, ?_⟩, ⟨fun n hn => absurd hn (by simp), nodup_nil⟩,
      ⟨?_, fun n hn h0 => absurd (Finset.mem_singleton.mp hn) h0⟩⟩
    · intro n hn
      rw [Finset.mem_singleton.mp hn]
      exact Nat.lt_succ_self _
    · intro n hn ck m
      rw [Finset.mem_singleton.mp hn]
      refine iff_of_false ?_ fun hm => hm.ne_root (Finset.mem_singleton.mp hm.mem)
      simp only [RadixCache.alloc]
      rw [hheap]
      simp [TreeNode.empty]
    iterate 2 exact fun n hn h0 => absurd (Finset.mem_singleton.mp hn) h0
    · exact congrArg (fun node : TreeNode H => node.key.length) hheap
    · exact (congrArg TreeNode.lockRef hheap).symm ▸ one_pos
    · exact congrArg TreeNode.hashValue hheap
  rw [Params.reset, Params.recordAllClearedEvent]
  split_ifs
  · exact hgood _
  · exact hgood _

/-- The cache after `__init__`. -/
def initial (P : Params H B) : RadixCache H B :=
  P.reset ⟨fun _ => TreeNode.empty, 0, 0, 0, 0, [], []⟩

def step (P : Params H B) (c : RadixCache H B) : Call → Option (RadixCache H B)
  | .insert key value => (P.insert c key value).toOption.map Prod.fst
  | .matchPrefix key => (P.matchPrefix c key).toOption.map Prod.fst
  | .evict numTokens => (P.evict c numTokens).toOption.map Prod.fst
  | .reset => some (P.reset c)

/-- A cache under any calls. -/
def system (P : Params H B) : Lts.System (RadixCache H B) Call where
  init := fun c => c = initial P
  step := step P

/-- The pages of tokens from the root to the end of the node. -/
inductive Word (P : Params H B) (c : RadixCache H B) : ℕ → List (List Token) → Prop
  | root : Word P c c.rootNode []
  | child {p n : ℕ} {ck : ChildKey} {w : List (List Token)} : Word P c p w →
      (c.heap p).children.get? ck = some n →
      Word P c n (w ++ pages P.pageSize (c.heap n).key.tokenIds)

/-- The pages `r` from the root end in the node. -/
def HoldsPages (P : Params H B) (c : RadixCache H B) (n : ℕ) (r : List (List Token)) : Prop :=
  ∃ p ck w, Word P c p w ∧ (c.heap p).children.get? ck = some n ∧ w.length < r.length ∧
    r <+: w ++ pages P.pageSize (c.heap n).key.tokenIds

theorem map_snd_path (h : Represents P c T) {n : ℕ} (hn : n ∈ T.live) (h0 : n ≠ T.root) :
    (T.path n).map Prod.snd =
      (T.path (T.parent n)).map Prod.snd ++ pages P.pageSize (c.heap n).key.tokenIds := by
  rw [T.path_eq hn h0, map_append, h.edge n hn h0, map_snd_letters]

theorem word_iff (h : Represents P c T) {n : ℕ} {w : List (List Token)} :
    Word P c n w ↔ n ∈ T.live ∧ (T.path n).map Prod.snd = w := by
  constructor
  · intro hw
    induction hw with
    | root =>
      rw [h.root, T.path_root]
      exact ⟨T.root_mem, rfl⟩
    | child _ hget ih =>
      have hchild := (h.children _ ih.1 _ _).mp hget
      refine ⟨hchild.mem, ?_⟩
      rw [map_snd_path h hchild.mem hchild.ne_root, hchild.parent_eq, ih.2]
  · rintro ⟨hn, rfl⟩
    induction hlen : (T.path n).length using Nat.strong_induction_on generalizing n with
    | _ len ih =>
      by_cases h0 : n = T.root
      · rw [h0, T.path_root, ← h.root]
        exact .root
      · have hp := T.parent_mem n hn h0
        obtain ⟨ck, hck⟩ := T.isChild_parent hn h0
        have hlt := T.path_lt n hn h0
        rw [map_snd_path h hn h0]
        exact .child (ih _ (hlen ▸ hlt) hp rfl) ((h.children _ hp ck n).mpr hck)

theorem holdsPages_iff (h : Represents P c T) {n : ℕ} {r : List (List Token)} :
    HoldsPages P c n r ↔ ∃ q, T.Holds n q ∧ q.map Prod.snd = r := by
  constructor
  · rintro ⟨p, ck, w, hw, hget, hlt, hpre⟩
    obtain ⟨hp, rfl⟩ := (word_iff h).mp hw
    have hchild := (h.children p hp ck n).mp hget
    rw [← hchild.parent_eq, ← map_snd_path h hchild.mem hchild.ne_root] at hpre
    have hlen := hpre.length_le
    rw [length_map] at hlen hlt
    refine ⟨(T.path n).take r.length, ⟨hchild.mem, hchild.ne_root, ?_, ?_⟩, ?_⟩
    · rw [length_take, min_eq_left hlen, hchild.parent_eq]
      exact hlt
    · exact take_prefix _ _
    · rw [map_take]
      exact (prefix_iff_eq_take.mp hpre).symm
  · rintro ⟨q, hq, rfl⟩
    have hp := T.parent_mem n hq.mem hq.ne_root
    obtain ⟨ck, hck⟩ := T.isChild_parent hq.mem hq.ne_root
    refine ⟨T.parent n, ck, _, (word_iff h).mpr ⟨hp, rfl⟩, (h.children _ hp ck n).mpr hck, ?_, ?_⟩
    · rw [length_map, length_map]
      exact hq.parent_lt
    · rw [← map_snd_path h hq.mem hq.ne_root]
      exact hq.isPrefix.map Prod.snd

/-- No pages of a node that the call evicts are also those of a node that it leaves in the tree. -/
def Kept (P : Params H B) (c : RadixCache H B) : Call → Prop
  | .evict numTokens => ∀ c', step P c (.evict numTokens) = some c' → ∀ x r, HoldsPages P c x r →
      ¬ InTree c' x → ∀ y, ¬ HoldsPages P c' y r
  | _ => True

/-! ## Hashes tell words apart -/

theorem getLast?_chain_concat (hasher : Hasher H B) (l : List (List Token)) (page : List Token) :
    (hasher.chain none (l ++ [page])).getLast? =
      some (hasher.getHashStr page (hasher.chain none l).getLast?) := by
  rw [chain_append, or_none]
  exact getLast?_concat

theorem chain_inj {hasher : Hasher H B} (hinj : Injective fun e : List Token × Option H =>
      hasher.hashStrToInt64 (hasher.getHashStr e.1 e.2)) {l m : List (List Token)}
    (heq : (hasher.chain none l).getLast? = (hasher.chain none m).getLast?) : l = m := by
  induction l using reverseRecOn generalizing m with
  | nil =>
    induction m using reverseRecOn with
    | nil => rfl
    | append_singleton m page =>
      rw [getLast?_chain_concat] at heq
      exact absurd heq (by simp [Hasher.chain])
  | append_singleton l page ih =>
    induction m using reverseRecOn with
    | nil =>
      rw [getLast?_chain_concat] at heq
      exact absurd heq (by simp [Hasher.chain])
    | append_singleton m page' =>
      rw [getLast?_chain_concat, getLast?_chain_concat, Option.some.injEq] at heq
      have hpair : (page, (hasher.chain none l).getLast?) =
          (page', (hasher.chain none m).getLast?) := hinj (congrArg hasher.hashStrToInt64 heq)
      rw [Prod.mk.injEq] at hpair
      rw [ih hpair.2, hpair.1]

variable (hinj : Injective fun e : List Token × Option H =>
  P.hasher.hashStrToInt64 (P.hasher.getHashStr e.1 e.2))

include hinj in
theorem wordHash_inj {w v : List ChildKey} {b : B} (hw : wordHash P w = some b)
    (hv : wordHash P v = some b) : w.map Prod.snd = v.map Prod.snd := by
  rw [wordHash, pathHashes] at hw hv
  generalize w.map Prod.snd = l at *
  generalize v.map Prod.snd = m at *
  induction l using reverseRecOn with
  | nil => exact absurd hw (by simp [Hasher.chain])
  | append_singleton l page _ =>
    induction m using reverseRecOn with
    | nil => exact absurd hv (by simp [Hasher.chain])
    | append_singleton m page' _ =>
      rw [getLast?_chain_concat, map_some, Option.some.injEq] at hw hv
      have hpair : (page, (P.hasher.chain none l).getLast?) =
          (page', (P.hasher.chain none m).getLast?) := hinj (hw.trans hv.symm)
      rw [Prod.mk.injEq] at hpair
      rw [chain_inj hinj hpair.2, hpair.1]

/-! ## Agreement -/

section Agreement

variable [DecidableEq B]

theorem agrees_reset (henable : P.enableKvCacheEvents = true) (c : RadixCache H B) :
    Agrees P (P.reset c) := by
  intro b
  have hqueue : (P.reset c).kvEventQueue = c.kvEventQueue ++ [.allBlocksCleared] := by
    rw [Params.reset, Params.recordAllClearedEvent, if_pos henable]
    rfl
  rw [hqueue, hasHash_iff (good_reset c), replay, foldl_append]
  refine iff_of_false (notMem_empty b) ?_
  rintro ⟨n, r, hr, -⟩
  exact Trie.not_holds_single hr

include hinj in
theorem agrees_evict_iff (h : Good P c T) (ha : Agrees P c) {c' : RadixCache H B}
    {T' : Trie ℕ ChildKey} (he : Evicted P c c' T T') :
    Agrees P c' ↔ ∀ x r, HoldsPages P c x r → ¬ InTree c' x → ∀ y, ¬ HoldsPages P c' y r := by
  constructor
  · -- a word that is evicted here and kept there is in the tree but not in the replay
    intro ha' x r hx hout y hy
    obtain ⟨q, hq, rfl⟩ := (holdsPages_iff h.represents).mp hx
    obtain ⟨q', hq', heq⟩ := (holdsPages_iff he.good.represents).mp hy
    rw [inTree_iff he.good.represents] at hout
    obtain ⟨b, hb⟩ : ∃ b, wordHash P q = some b := by
      have hpos := hq.parent_lt
      rw [wordHash, getLast?_eq_getElem?, getElem?_eq_getElem (by rw [length_pathHashes]; omega)]
      exact ⟨_, rfl⟩
    have hb' : wordHash P q' = some b := by
      rw [← hb, wordHash, wordHash, pathHashes, pathHashes, heq]
    have hmem := (ha' b).mpr ((hasHash_iff he.good b).mpr ⟨y, q', hq', hb'⟩)
    exact ((he.replay b).mp hmem).2 ⟨x, q, ⟨hq, hout⟩, hb⟩
  · intro hkept b
    rw [he.replay b, ha b, hasHash_iff h, hasHash_iff he.good]
    constructor
    · rintro ⟨⟨n, r, hr, hb⟩, hnot⟩
      have hn : n ∈ T'.live := by
        by_contra hout
        exact hnot ⟨n, r, ⟨hr, hout⟩, hb⟩
      exact ⟨n, r, (he.holds n r).mpr ⟨hr, hn⟩, hb⟩
    · rintro ⟨n, r, hr, hb⟩
      refine ⟨⟨n, r, ((he.holds n r).mp hr).1, hb⟩, ?_⟩
      rintro ⟨x, q, ⟨hq, hout⟩, hb'⟩
      refine hkept x (q.map Prod.snd) ((holdsPages_iff h.represents).mpr ⟨q, hq, rfl⟩) ?_ n
        ((holdsPages_iff he.good.represents).mpr ⟨r, hr, wordHash_inj hinj hb hb'⟩)
      rwa [inTree_iff he.good.represents]

theorem matchPrefix_spec (hs : 0 < P.pageSize) (h : Good P c T) (key : RadixKey) :
    ∃ r T', P.matchPrefix c key = .ok r ∧ Good P r.1 T' ∧ (Agrees P c → Agrees P r.1) := by
  rw [Params.matchPrefix]
  simp only
  split_ifs
  · exact ⟨_, T, rfl, h, id⟩
  · exact ⟨_, T, rfl, h, id⟩
  · exact matchLoop_spec hs h (h.represents.root ▸ T.root_mem) (Nat.lt_succ_self _) _
  · exact ⟨_, T, rfl, h, id⟩
  · exact matchLoop_spec hs h (h.represents.root ▸ T.root_mem) (Nat.lt_succ_self _) _

section

variable (hs : 0 < P.pageSize) (henable : P.enableKvCacheEvents = true)
include hs henable

theorem evict_spec (h : Good P c T) (numTokens : ℕ) :
    ∃ r T', P.evict c numTokens = .ok r ∧ Evicted P c r.1 T T' := by
  rw [Params.evict]
  split_ifs
  · exact ⟨_, T, rfl, .refl h⟩
  · refine evictLoop_spec hs henable numTokens h ?_ h.leaves.leaf h.leaves.nodup 0
    have hsub : T.live ⊆ range c.counter :=
      fun n hn => Finset.mem_range.mpr (h.represents.lt_counter n hn)
    have hcard := card_le_card hsub
    rw [card_range] at hcard
    omega

theorem insert_spec (h : Good P c T) (key : RadixKey) (value : List ℕ) :
    ∃ r T', P.insert c key value = .ok r ∧ Good P r.1 T' ∧
      (Agrees P c → Agrees P r.1) := by
  rw [Params.insert]
  by_cases hdisable : P.disable = true
  · exact ⟨_, T, if_pos hdisable, h, id⟩
  · rw [if_neg hdisable]
    exact insertLoop_spec hs henable h (h.represents.root ▸ T.root_mem) (Nat.lt_succ_self _) _ _

include hinj in
theorem step_spec (h : Good P c T) (ha : Agrees P c) (call : Call) :
    ∃ c' T', step P c call = some c' ∧ Good P c' T' ∧
      (Agrees P c' ↔ Kept P c call) := by
  cases call with
  | insert key value =>
    obtain ⟨r, T', hrun, hgood, hagrees⟩ := insert_spec hs henable h key value
    exact ⟨r.1, T', by rw [step, hrun]; rfl, hgood, iff_of_true (hagrees ha) trivial⟩
  | matchPrefix key =>
    obtain ⟨r, T', hrun, hgood, hagrees⟩ := matchPrefix_spec hs h key
    exact ⟨r.1, T', by rw [step, hrun]; rfl, hgood, iff_of_true (hagrees ha) trivial⟩
  | evict numTokens =>
    obtain ⟨r, T', hrun, he⟩ := evict_spec hs henable h numTokens
    have hstep : step P c (.evict numTokens) = some r.1 := by
      rw [step, hrun]
      rfl
    refine ⟨r.1, T', hstep, he.good, (agrees_evict_iff hinj h ha he).trans ?_⟩
    rw [Kept, hstep]
    constructor
    · rintro hkept c' hc'
      obtain rfl := some.inj hc'
      exact hkept
    · exact fun hkept => hkept r.1 rfl
  | reset =>
    exact ⟨P.reset c, _, rfl, good_reset c, iff_of_true (agrees_reset henable c) trivial⟩

end

end Agreement

/-! ## Runs that agree, and one that does not -/

def smallParams : Params (List (Option (List Token))) (List (Option (List Token))) where
  pageSize := 1
  isEagle := false
  disable := false
  enableKvCacheEvents := true
  hasher :=
    { getHashStr := fun page prior =>
        match prior with
        | none => [some page]
        | some h => some page :: none :: h
      hashStrToInt64 := id }
  choose := fun _ _ => 0

theorem smallParams_injective :
    Injective fun e : List Token × Option (List (Option (List Token))) =>
      smallParams.hasher.hashStrToInt64 (smallParams.hasher.getHashStr e.1 e.2) := by
  rintro ⟨page, prior⟩ ⟨page', prior'⟩ heq
  have heq : smallParams.hasher.getHashStr page prior =
      smallParams.hasher.getHashStr page' prior' := heq
  cases prior <;> cases prior' <;> simp_all [smallParams]

/-- A token under an extra key, and two sequences under none that begin with the token and are
split after it. -/
def splitCalls : List Call :=
  [.insert ⟨[.id 5], some "lora", false⟩ [3], .insert ⟨[.id 5, .id 6], none, false⟩ [0, 1],
    .insert ⟨[.id 5, .id 7], none, false⟩ [0, 2]]

end MegatronDPU.Radix
