import MegatronDPU.Sglang.RadixShape

/-!
# The events of the radix cache

With events enabled, the cache reports the pages it stores and removes by their hashes. Whoever
replays the events should have the page hashes that are in the tree.

1. `Hashed`: the hashes of a node are those of the words it holds, also after splits.
2. `insertLoop_spec`, `matchLoop_spec`, `evictLoop_spec`: the calls return, and what they do to the
   replayed set.
-/

namespace MegatronDPU.Radix

open Pages Finset Function List Option
open Params (hashed hashedPages parentHash updateLeafStatus)

variable {H B : Type} {P : Params H B} {c : RadixCache H B} {T : Trie ℕ ChildKey}

/-! ## Hashes of words -/

section Chain

variable (hasher : Hasher H B)

theorem length_chain (prior : Option H) (l : List (List Token)) :
    (hasher.chain prior l).length = l.length := by
  induction l generalizing prior with
  | nil => rfl
  | cons page l ih => rw [Hasher.chain, length_cons, ih, length_cons]

theorem take_chain (prior : Option H) (l : List (List Token)) (k : ℕ) :
    (hasher.chain prior l).take k = hasher.chain prior (l.take k) := by
  induction l generalizing prior k with
  | nil => rw [take_nil, Hasher.chain, take_nil]
  | cons page l ih =>
    cases k with
    | zero => rfl
    | succ k => rw [Hasher.chain, take_succ_cons, ih, take_succ_cons, Hasher.chain]

theorem chain_append (prior : Option H) (l m : List (List Token)) : hasher.chain prior (l ++ m) =
      hasher.chain prior l ++ hasher.chain ((hasher.chain prior l).getLast?.or prior) m := by
  induction l generalizing prior with
  | nil => rfl
  | cons page l ih =>
    rw [cons_append, Hasher.chain, ih, Hasher.chain, cons_append]
    congr 2
    rw [getLast?_cons]
    cases (hasher.chain (some (hasher.getHashStr page prior)) l).getLast? <;> rfl

end Chain

/-- The hashes of the pages on a path. -/
def pathHashes (P : Params H B) (w : List ChildKey) : List H :=
  P.hasher.chain none (w.map Prod.snd)

/-- The block hash of the last page of a path. -/
def wordHash (P : Params H B) (w : List ChildKey) : Option B :=
  (pathHashes P w).getLast?.map P.hasher.hashStrToInt64

theorem length_pathHashes (w : List ChildKey) : (pathHashes P w).length = w.length := by
  rw [pathHashes, length_chain, length_map]

theorem take_pathHashes (w : List ChildKey) (k : ℕ) :
    (pathHashes P w).take k = pathHashes P (w.take k) := by
  rw [pathHashes, take_chain, ← map_take, pathHashes]

theorem pathHashes_append (w v : List ChildKey) : pathHashes P (w ++ v) =
    pathHashes P w ++ P.hasher.chain (pathHashes P w).getLast? (v.map Prod.snd) := by
  rw [pathHashes, map_append, chain_append, or_none]
  rfl

variable {k child : ℕ}

theorem getElem?_pathHashes {w : List ChildKey} (hk : k < w.length) :
    (pathHashes P w)[k]? = (pathHashes P (w.take (k + 1))).getLast? := by
  rw [← take_pathHashes, getLast?_eq_getElem?, length_take, length_pathHashes,
    min_eq_left hk, Nat.add_sub_cancel, getElem?_take_of_lt (Nat.lt_succ_self k)]

/-- What follows the word of the parent are the hashes of the words that the node holds. -/
theorem mem_drop_pathHashes {n : ℕ} (hn : n ∈ T.live) (h0 : n ≠ T.root) (b : B) :
    (∃ x ∈ (pathHashes P (T.path n)).drop (T.path (T.parent n)).length,
        P.hasher.hashStrToInt64 x = b) ↔
      ∃ r, T.Holds n r ∧ wordHash P r = some b := by
  constructor
  · rintro ⟨x, hx, rfl⟩
    obtain ⟨i, hi⟩ := getElem?_of_mem hx
    rw [getElem?_drop] at hi
    have hlt := (List.getElem?_eq_some_iff.mp hi).1
    rw [length_pathHashes] at hlt
    refine ⟨(T.path n).take ((T.path (T.parent n)).length + i + 1), ⟨hn, h0, ?_, ?_⟩, ?_⟩
    · rw [length_take]
      omega
    · exact take_prefix _ _
    · rw [wordHash, ← getElem?_pathHashes hlt, hi]
      rfl
  · rintro ⟨r, hr, hb⟩
    obtain ⟨x, hx, rfl⟩ := Option.map_eq_some_iff.mp hb
    have hlen := hr.isPrefix.length_le
    have hlt := hr.parent_lt
    have htake : r = (T.path n).take (r.length - 1 + 1) := by
      rw [Nat.sub_add_cancel (by omega)]
      exact prefix_iff_eq_take.mp hr.isPrefix
    rw [htake, ← getElem?_pathHashes (by omega)] at hx
    refine ⟨x, mem_of_getElem? (i := r.length - 1 - (T.path (T.parent n)).length) ?_, rfl⟩
    rw [getElem?_drop, Nat.add_sub_cancel' (by omega)]
    exact hx

/-- Each node has the hashes of its own pages on its path. -/
structure Hashed (P : Params H B) (c : RadixCache H B) (T : Trie ℕ ChildKey) : Prop where
  root : (c.heap T.root).hashValue = some []
  node : ∀ n ∈ T.live, n ≠ T.root → (c.heap n).hashValue =
    some ((pathHashes P (T.path n)).drop (T.path (T.parent n)).length)

/-- The cache represents the tree, with the right leaves and hashes. -/
structure Good (P : Params H B) (c : RadixCache H B) (T : Trie ℕ ChildKey) : Prop where
  represents : Represents P c T
  leaves : Leaves c T
  hashed : Hashed P c T

theorem Good.queue (h : Good P c T) (events : List (KvEvent B)) :
    Good P { c with kvEventQueue := events } T :=
  ⟨⟨h.represents.root, h.represents.lt_counter, h.represents.children, h.represents.parent,
      h.represents.edge, h.represents.root_key, h.represents.root_lock⟩,
    ⟨fun n hn => ⟨(h.leaves.leaf n hn).mem, (h.leaves.leaf n hn).ne_root,
      (h.leaves.leaf n hn).children⟩, h.leaves.nodup⟩,
    ⟨h.hashed.root, h.hashed.node⟩⟩

theorem map_snd_hashedPages (h : Good P c T) {n : ℕ} (hn : n ∈ T.live) (h0 : n ≠ T.root) :
    (P.hashedPages c n).map Prod.snd =
      (pathHashes P (T.path n)).drop (T.path (T.parent n)).length := by
  rw [hashedPages, h.hashed.node n hn h0, getD_some]
  refine map_snd_zip ?_
  have hlen : (letters P.pageSize (c.heap n).key).length =
      (pages P.pageSize (c.heap n).key.tokenIds).length := length_letters
  rw [← hlen, ← h.represents.edge n hn h0, length_drop, length_pathHashes, Trie.edge, length_drop]

theorem hashed_splitNode (hs : 0 < P.pageSize) (h : Represents P c T) (hh : Hashed P c T)
    (hn : child ∈ T.live) (h0 : child ≠ T.root) (hk0 : 0 < k) (hk : k < (T.edge child).length) :
    Hashed P (P.splitNode c child (k * P.pageSize)).1
      (T.split child c.counter k hn h0 h.counter_notMem hk0 hk) := by
  have hparent := h.parent child hn h0
  have hp := T.parent_mem child hn h0
  have hpages : (if P.pageSize = 1 then k * P.pageSize else k * P.pageSize / P.pageSize) = k := by
    split_ifs with h1
    · rw [h1, mul_one]
    · exact Nat.mul_div_cancel k hs
  have hpath := T.path_eq hn h0
  refine ⟨?_, fun m hm hm0 => ?_⟩
  · show ((P.splitNode c child (k * P.pageSize)).1.heap T.root).hashValue = some []
    rw [(rest_splitNode_of_ne _ h hn h0 T.root_mem h0.symm).hashValue]
    exact hh.root
  · rcases mem_insert.mp hm with rfl | hm'
    · rw [heap_splitNode_new _ hparent (h.ne_counter hn) (h.ne_counter hp), Trie.path_split_new,
        Trie.parent_split_new, Trie.path_split_of_mem hp, hh.node child hn h0]
      simp only [splitNodeHashValue, hpages]
      rw [take_drop, take_pathHashes, hpath, take_length_add_append]
    · by_cases hmc : m = child
      · rw [hmc, heap_splitNode_child _ hparent (h.ne_counter hn) (T.parent_ne hn h0),
          Trie.path_split_of_mem hn, Trie.parent_split_self, Trie.path_split_new,
          hh.node child hn h0]
        simp only [splitNodeHashValue, hpages]
        rw [drop_drop, length_append, length_take, min_eq_left hk.le]
      · rw [(rest_splitNode_of_ne _ h hn h0 hm' hmc).hashValue, Trie.path_split_of_mem hm',
          Trie.parent_split_of_ne hm' hmc, Trie.path_split_of_mem (T.parent_mem m hm' hm0)]
        exact hh.node m hm' hm0

theorem good_splitNode (hs : 0 < P.pageSize) (h : Good P c T) (hn : child ∈ T.live)
    (h0 : child ≠ T.root) (hk0 : 0 < k) (hk : k < (T.edge child).length) :
    Good P (P.splitNode c child (k * P.pageSize)).1
      (T.split child c.counter k hn h0 h.represents.counter_notMem hk0 hk) :=
  ⟨represents_splitNode hs h.represents hn h0 hk0 hk,
    leaves_splitNode hs h.represents hn h0 h.leaves hk0 hk,
    hashed_splitNode hs h.represents h.hashed hn h0 hk0 hk⟩

/-- The hash `b` is one of a node in the tree. -/
def HasHash (P : Params H B) (c : RadixCache H B) (b : B) : Prop :=
  ∃ n, InTree c n ∧ ∃ x ∈ (c.heap n).hashValue.getD [], P.hasher.hashStrToInt64 x = b

theorem hasHash_iff (h : Good P c T) (b : B) :
    HasHash P c b ↔ ∃ n r, T.Holds n r ∧ wordHash P r = some b := by
  constructor
  · rintro ⟨n, hn, hx⟩
    rw [inTree_iff h.represents] at hn
    by_cases h0 : n = T.root
    · rw [h0, h.hashed.root] at hx
      exact absurd hx (by simp)
    · rw [h.hashed.node n hn h0] at hx
      exact ⟨n, (mem_drop_pathHashes hn h0 b).mp hx⟩
  · rintro ⟨n, r, hr, hb⟩
    refine ⟨n, (inTree_iff h.represents).mpr hr.mem, ?_⟩
    rw [h.hashed.node n hr.mem hr.ne_root]
    exact (mem_drop_pathHashes hr.mem hr.ne_root b).mpr ⟨r, hr, hb⟩

/-! ## A new leaf -/

theorem hashed_eq (c : RadixCache H B) (n : ℕ) : ∃ f : ℕ → Option (List H), P.hashed c n =
    { c with heap := fun m => { c.heap m with hashValue := f m } } := by
  rw [hashed]
  split
  · refine ⟨update (fun m => (c.heap m).hashValue) n (some (P.computeNodeHashValues c n)), ?_⟩
    rw [RadixCache.update]
    congr 1
    funext m
    by_cases hmn : m = n
    · rw [hmn, update_self, update_self]
    · rw [update_of_ne hmn, update_of_ne hmn]
  · exact ⟨fun m => (c.heap m).hashValue, rfl⟩

theorem represents_hashed (h : Represents P c T) (n : ℕ) : Represents P (P.hashed c n) T := by
  obtain ⟨f, heq⟩ := hashed_eq (P := P) c n
  rw [heq]
  exact ⟨h.root, h.lt_counter, h.children, h.parent, h.edge, h.root_key, h.root_lock⟩

theorem leaves_hashed (hl : Leaves c T) (n : ℕ) : Leaves (P.hashed c n) T := by
  obtain ⟨f, heq⟩ := hashed_eq (P := P) c n
  rw [heq]
  refine ⟨fun m hm => ?_, hl.nodup⟩
  obtain ⟨hmem, h0, hchildren⟩ := hl.leaf m hm
  exact ⟨hmem, h0, hchildren⟩

theorem kvEventQueue_hashed (n : ℕ) : (P.hashed c n).kvEventQueue = c.kvEventQueue := by
  obtain ⟨f, heq⟩ := hashed_eq (P := P) c n
  rw [heq]

theorem getLast?_hashValue (hh : Hashed P c T) {n : ℕ} (hn : n ∈ T.live) :
    ((c.heap n).hashValue.getD []).getLast? = (pathHashes P (T.path n)).getLast? := by
  by_cases h0 : n = T.root
  · rw [h0, hh.root, T.path_root]
    rfl
  · have hlt := T.path_lt n hn h0
    rw [hh.node n hn h0, getD_some, getLast?_drop, length_pathHashes, if_neg (by omega)]

/-- A node below `n` gets the hashes that continue those of `n`, wherever `n` is as it was. -/
theorem parentHash_eq (hs : 0 < P.pageSize) (h : Represents P c T) (hh : Hashed P c T) {n m : ℕ}
    (hn : n ∈ T.live) {c' : RadixCache H B} (hm : (c'.heap m).parent = some n)
    (hkey : (c'.heap n).key = (c.heap n).key)
    (hvalue : (c'.heap n).hashValue = (c.heap n).hashValue) :
    parentHash c' m = (pathHashes P (T.path n)).getLast? := by
  rw [← getLast?_hashValue hh hn, parentHash, hm]
  simp only [hkey, hvalue]
  by_cases h0 : n = T.root
  · simp only [h0, hh.root, h.root_key]
    rfl
  · have hpos := h.key_pos hs hn h0
    have hlt := T.path_lt n hn h0
    simp only [hh.node n hn h0, getD_some]
    rw [if_pos ⟨hpos, by rw [length_drop, length_pathHashes]; omega⟩]

section AddLeaf

variable {n : ℕ} {key : RadixKey}

variable (P c n key) in
def linked (value : List ℕ) : RadixCache H B :=
  updateLeafStatus (updateLeafStatus (P.linkLeaf c n key value) n) c.counter

theorem linked_fields (value : List ℕ) :
    (linked P c n key value).heap = (P.linkLeaf c n key value).heap ∧
    (linked P c n key value).kvEventQueue = c.kvEventQueue := by
  obtain ⟨l, hl⟩ := updateLeafStatus_eq (P.linkLeaf c n key value) n
  obtain ⟨l', hl'⟩ := updateLeafStatus_eq
    (updateLeafStatus (P.linkLeaf c n key value) n) c.counter
  rw [linked, hl', hl]
  exact ⟨rfl, rfl⟩

theorem hashValue_linked (hs : 0 < P.pageSize) (h : Good P c T) (hn : n ∈ T.live) (value : List ℕ) :
    ((P.hashed (linked P c n key value) c.counter).heap c.counter).hashValue =
      some ((pathHashes P (T.path n ++ letters P.pageSize key)).drop (T.path n).length) := by
  have hnc := h.represents.ne_counter hn
  have hheap : (linked P c n key value).heap = (P.linkLeaf c n key value).heap :=
    (linked_fields value).1
  have hnew : (P.linkLeaf c n key value).heap c.counter = _ := heap_linkLeaf_new hnc
  have hrest := rest_linkLeaf (P := P) (c := c) key value hnc hnc
  have hprior : parentHash (linked P c n key value) c.counter =
      (pathHashes P (T.path n)).getLast? := by
    refine parentHash_eq hs h.represents h.hashed hn ?_ ?_ ?_
    · rw [hheap, hnew]
    · rw [hheap, hrest.key]
    · rw [hheap, hrest.hashValue]
  have hunset : ((linked P c n key value).heap c.counter).hashValue = none := by
    rw [hheap, hnew]
    rfl
  rw [hashed, hunset]
  simp only [RadixCache.update, update_self, Params.computeNodeHashValues]
  rw [hprior, hheap, hnew, pathHashes_append, map_snd_letters, drop_left' (length_pathHashes _)]

theorem hashValue_linked_of_ne (hn : n ≠ c.counter) (value : List ℕ) {m : ℕ} (hm : m ≠ c.counter) :
    ((P.hashed (linked P c n key value) c.counter).heap m).hashValue = (c.heap m).hashValue := by
  have hheap : (linked P c n key value).heap = (P.linkLeaf c n key value).heap :=
    (linked_fields value).1
  have hother : (P.hashed (linked P c n key value) c.counter).heap m =
      (linked P c n key value).heap m := by
    rw [hashed]
    split
    · exact update_of_ne hm ..
    · rfl
  rw [hother, hheap, (rest_linkLeaf key value hn hm).hashValue]

variable (hs : 0 < P.pageSize) (h : Good P c T) (hn : n ∈ T.live) (hkey : 0 < key.length)
  (hnone : (c.heap n).children.get? (getChildKey P.pageSize key) = none)

theorem good_linked (value : List ℕ) : Good P (P.hashed (linked P c n key value) c.counter)
    (leafTrie hs h.represents hn hkey hnone) := by
  have hnc := h.represents.ne_counter hn
  refine ⟨?_, ?_, ?_, fun m hm hm0 => ?_⟩
  · exact represents_hashed (represents_updateLeafStatus (represents_updateLeafStatus
      (represents_linkLeaf hs h.represents hn hkey hnone value) n) c.counter) c.counter
  · exact leaves_hashed (leaves_linkLeaf hs h.represents hn hkey hnone h.leaves) c.counter
  · show ((P.hashed (linked P c n key value) c.counter).heap T.root).hashValue = some []
    rw [hashValue_linked_of_ne hnc value (h.represents.ne_counter T.root_mem)]
    exact h.hashed.root
  · rcases mem_insert.mp hm with rfl | hm'
    · rw [hashValue_linked hs h hn, leafTrie, Trie.path_addLeaf_self, Trie.parent_addLeaf_self,
        Trie.path_addLeaf_of_mem hn]
    · rw [hashValue_linked_of_ne hnc value (h.represents.ne_counter hm'), leafTrie,
        Trie.path_addLeaf_of_mem hm',
        Trie.parent_addLeaf_of_mem hm', Trie.path_addLeaf_of_mem (T.parent_mem m hm' hm0)]
      exact h.hashed.node m hm' hm0

end AddLeaf

/-! ## Replaying events -/

section Replay

variable [DecidableEq B]

/-- A receiver of events. -/
def applyEvent (stored : Finset B) : KvEvent B → Finset B
  | .blockStored b _ _ _ => insert b stored
  | .blockRemoved b => stored.erase b
  | .allBlocksCleared => ∅

/-- The blocks that a receiver believes stored. -/
def replay (events : List (KvEvent B)) : Finset B := events.foldl applyEvent ∅

theorem mem_replay_store (events : List (KvEvent B)) (parent : Option B)
    (l : List (List Token × H)) (b : B) :
    b ∈ replay (events ++ P.storeEvents parent l) ↔
      b ∈ replay events ∨ ∃ x ∈ l.map Prod.snd, P.hasher.hashStrToInt64 x = b := by
  induction l generalizing events parent with
  | nil => simp [Params.storeEvents]
  | cons e l ih =>
    obtain ⟨page, x⟩ := e
    rw [Params.storeEvents, append_cons, ih]
    have hfirst : b ∈ replay (events ++ [.blockStored (P.hasher.hashStrToInt64 x) parent page
        page.length]) ↔ b = P.hasher.hashStrToInt64 x ∨ b ∈ replay events := by
      rw [replay, foldl_append]
      exact mem_insert
    rw [hfirst, List.map_cons, exists_mem_cons_iff, eq_comm]
    tauto

theorem mem_replay_remove (events : List (KvEvent B)) (l : List (List Token × H)) (b : B) :
    b ∈ replay (events ++ l.map fun e => .blockRemoved (P.hasher.hashStrToInt64 e.2)) ↔
      b ∈ replay events ∧ ¬ ∃ x ∈ l.map Prod.snd, P.hasher.hashStrToInt64 x = b := by
  induction l generalizing events with
  | nil => simp
  | cons e l ih =>
    rw [List.map_cons, append_cons, ih]
    have hfirst : b ∈ replay (events ++ [.blockRemoved (P.hasher.hashStrToInt64 e.2)]) ↔
        b ≠ P.hasher.hashStrToInt64 e.2 ∧ b ∈ replay events := by
      rw [replay, foldl_append]
      exact mem_erase
    rw [hfirst, List.map_cons, exists_mem_cons_iff, ne_comm, not_or, and_assoc]
    exact and_left_comm

/-- The replay of the events so far gives the page hashes in the tree. -/
def Agrees (P : Params H B) (c : RadixCache H B) : Prop :=
  ∀ b, b ∈ replay c.kvEventQueue ↔ HasHash P c b

/-! ## Splits and leaves -/

theorem agrees_splitNode (hs : 0 < P.pageSize) (h : Good P c T) (hn : child ∈ T.live)
    (h0 : child ≠ T.root) (hk0 : 0 < k) (hk : k < (T.edge child).length) (ha : Agrees P c) :
    Agrees P (P.splitNode c child (k * P.pageSize)).1 := by
  intro b
  obtain ⟨-, -, -, -, hqueue⟩ := splitNode_fields (P := P) (k * P.pageSize)
    (h.represents.parent child hn h0)
  rw [hqueue, ha b, hasHash_iff h, hasHash_iff (good_splitNode hs h hn h0 hk0 hk)]
  constructor
  · rintro ⟨n, r, hr, hb⟩
    obtain ⟨m, hm⟩ : ∃ m, (T.split child c.counter k hn h0 h.represents.counter_notMem hk0 hk).Holds
        m r := Trie.exists_holds_split.mpr ⟨n, hr⟩
    exact ⟨m, r, hm, hb⟩
  · rintro ⟨n, r, hr, hb⟩
    obtain ⟨m, hm⟩ := Trie.exists_holds_split.mp ⟨n, hr⟩
    exact ⟨m, r, hm, hb⟩

variable (hs : 0 < P.pageSize) (henable : P.enableKvCacheEvents = true)

include hs henable in
theorem addLeaf_spec (h : Good P c T) {n : ℕ} {key : RadixKey} (hn : n ∈ T.live)
    (hkey : 0 < key.length) (hnone : (c.heap n).children.get? (getChildKey P.pageSize key) = none)
    (value : List ℕ) :
    Good P (P.addLeaf c n key value) (leafTrie hs h.represents hn hkey hnone) ∧
      (Agrees P c → Agrees P (P.addLeaf c n key value)) := by
  have hgood := good_linked hs h hn hkey hnone value
  have hrecord : P.addLeaf c n key value = { P.hashed (linked P c n key value) c.counter with
        kvEventQueue := (P.hashed (linked P c n key value) c.counter).kvEventQueue ++
          P.storeEvents (P.parentBlockHash (P.hashed (linked P c n key value) c.counter) c.counter)
            (P.hashedPages (P.hashed (linked P c n key value) c.counter) c.counter) } := by
    rw [Params.addLeaf]
    exact if_pos henable
  have hlive : c.counter ∈ (leafTrie hs h.represents hn hkey hnone).live :=
    mem_insert_self _ _
  have h0 : c.counter ≠ (leafTrie hs h.represents hn hkey hnone).root :=
    (h.represents.ne_counter T.root_mem).symm
  rw [hrecord]
  refine ⟨hgood.queue _, fun ha b => ?_⟩
  rw [mem_replay_store, kvEventQueue_hashed, (linked_fields value).2, ha b,
    map_snd_hashedPages hgood hlive h0, mem_drop_pathHashes hlive h0, hasHash_iff h,
    hasHash_iff (hgood.queue _)]
  constructor
  · rintro (⟨m, r, hr, hb⟩ | ⟨r, hr, hb⟩)
    · exact ⟨m, r, Trie.holds_addLeaf.mpr (.inl hr), hb⟩
    · exact ⟨c.counter, r, hr, hb⟩
  · rintro ⟨m, r, hr, hb⟩
    rcases Trie.holds_addLeaf.mp hr with hold | ⟨rfl, -⟩
    · exact .inl ⟨m, r, hold, hb⟩
    · exact .inr ⟨r, hr, hb⟩

/-! ## Matching and inserting -/

variable {fuel x : ℕ}

include hs henable in
theorem insertLoop_spec (h : Good P c T) {n : ℕ} (hn : n ∈ T.live) {key : RadixKey}
    (hfuel : key.length < fuel) (value : List ℕ) (total : ℕ) :
    ∃ r T', P.insertLoop fuel c n key value total = .ok r ∧
      Good P r.1 T' ∧ (Agrees P c → Agrees P r.1) := by
  induction fuel generalizing c T n key value total with
  | zero => exact absurd hfuel (by omega)
  | succ fuel ih =>
    rw [Params.insertLoop]
    split_ifs with hkey
    · cases hget : (c.heap n).children.get? (getChildKey P.pageSize key) with
      | none =>
        obtain ⟨hgood, hagrees⟩ := addLeaf_spec hs henable h hn hkey hget value
        exact ⟨_, _, rfl, hgood, hagrees⟩
      | some child =>
        obtain ⟨⟨hlive, h0⟩, k, hk, hmatch, hlt⟩ :=
          exists_keyMatch hs h.represents hn hkey hget
        have hrest := length_drop_lt (P := P) hs hkey hk
        simp only [hmatch, bind, Except.bind]
        split_ifs with hsplit
        · have hk' := hlt.mp hsplit
          have hgood := good_splitNode hs h hlive h0 hk hk'
          rw [(splitNode_fields (k * P.pageSize) (h.represents.parent child hlive h0)).1]
          obtain ⟨r, T', hrun, hgood', hagrees⟩ := ih hgood (mem_insert_self _ _)
            (show (key.drop (k * P.pageSize)).length < fuel by omega)
            (value.drop (k * P.pageSize)) (total + k * P.pageSize)
          exact ⟨r, T', hrun, hgood', fun ha =>
            hagrees (agrees_splitNode hs h hlive h0 hk hk' ha)⟩
        · exact ih h hlive (by omega) _ _
    · exact ⟨_, T, rfl, h, id⟩

theorem matchLoop_spec (hs : 0 < P.pageSize) (h : Good P c T) {n : ℕ} (hn : n ∈ T.live)
    {key : RadixKey} (hfuel : key.length < fuel) (value : List ℕ) :
    ∃ r T', P.matchLoop fuel c n key value = .ok r ∧ Good P r.1 T' ∧
      (Agrees P c → Agrees P r.1) := by
  induction fuel generalizing n key value with
  | zero => exact absurd hfuel (by omega)
  | succ fuel ih =>
    rw [Params.matchLoop]
    split_ifs with hkey
    · cases hget : (c.heap n).children.get? (getChildKey P.pageSize key) with
      | none => exact ⟨_, T, rfl, h, id⟩
      | some child =>
        obtain ⟨⟨hlive, h0⟩, k, hk, hmatch, hlt⟩ :=
          exists_keyMatch hs h.represents hn hkey hget
        have hrest := length_drop_lt (P := P) hs hkey hk
        simp only [hmatch, bind, Except.bind]
        split_ifs with hsplit
        · have hk' := hlt.mp hsplit
          exact ⟨_, _, rfl, good_splitNode hs h hlive h0 hk hk',
            agrees_splitNode hs h hlive h0 hk hk'⟩
        · exact ih hlive (by omega) _
    · exact ⟨_, T, rfl, h, id⟩

/-! ## Evicting -/

/-- A part of the tree is left, and the replay has lost the blocks of the rest. -/
structure Evicted (P : Params H B) (c c' : RadixCache H B) (T T' : Trie ℕ ChildKey) : Prop where
  good : Good P c' T'
  live : T'.live ⊆ T.live
  holds : ∀ n r, T'.Holds n r ↔ T.Holds n r ∧ n ∈ T'.live
  replay : ∀ b, b ∈ replay c'.kvEventQueue ↔ b ∈ replay c.kvEventQueue ∧
    ¬ ∃ x r, (T.Holds x r ∧ x ∉ T'.live) ∧ wordHash P r = some b

theorem Evicted.refl (h : Good P c T) : Evicted P c c T T where
  good := h
  live := Finset.Subset.refl _
  holds := fun n r => ⟨fun hr => ⟨hr, hr.mem⟩, fun hr => hr.1⟩
  replay := by
    intro b
    refine ⟨fun hb => ⟨hb, ?_⟩, fun hb => hb.1⟩
    rintro ⟨x, r, ⟨hr, hx⟩, -⟩
    exact hx hr.mem

theorem Evicted.trans {c₁ c₂ c₃ : RadixCache H B} {T₁ T₂ T₃ : Trie ℕ ChildKey}
    (h : Evicted P c₁ c₂ T₁ T₂) (h' : Evicted P c₂ c₃ T₂ T₃) : Evicted P c₁ c₃ T₁ T₃ where
  good := h'.good
  live := h'.live.trans h.live
  holds := by
    intro n r
    rw [h'.holds, h.holds]
    exact ⟨fun hr => ⟨hr.1.1, hr.2⟩, fun hr => ⟨⟨hr.1, h'.live hr.2⟩, hr.2⟩⟩
  replay := by
    intro b
    rw [h'.replay, h.replay, and_assoc]
    refine and_congr_right fun _ => ?_
    constructor
    · rintro ⟨hfirst, hsecond⟩ ⟨x, r, ⟨hr, hx⟩, hb⟩
      by_cases hx₂ : x ∈ T₂.live
      · exact hsecond ⟨x, r, ⟨(h.holds x r).mpr ⟨hr, hx₂⟩, hx⟩, hb⟩
      · exact hfirst ⟨x, r, ⟨hr, hx₂⟩, hb⟩
    · intro hnot
      refine ⟨?_, ?_⟩
      · rintro ⟨x, r, ⟨hr, hx⟩, hb⟩
        exact hnot ⟨x, r, ⟨hr, fun hx₃ => hx (h'.live hx₃)⟩, hb⟩
      · rintro ⟨x, r, ⟨hr, hx⟩, hb⟩
        exact hnot ⟨x, r, ⟨((h.holds x r).mp hr).1, hx⟩, hb⟩

/-- The cache after the leaf `x` is deleted. -/
def deleted (P : Params H B) (c : RadixCache H B) (x p : ℕ) : RadixCache H B :=
  updateLeafStatus (P.unlinkLeaf c x p) p

section

omit [DecidableEq B]

theorem deleted_fields (x p : ℕ) : (deleted P c x p).heap = (P.unlinkLeaf c x p).heap ∧
    (deleted P c x p).kvEventQueue = c.kvEventQueue := by
  obtain ⟨l, hl⟩ := updateLeafStatus_eq (P.unlinkLeaf c x p) p
  rw [deleted, hl]
  exact ⟨rfl, rfl⟩

theorem good_deleted (hs : 0 < P.pageSize) (h : Good P c T) (hx : Leaf c T x) :
    Good P (deleted P c x (T.parent x))
      (T.removeLeaf x hx.ne_root (hx.not_isChild h.represents)) := by
  have hhash : ∀ m, ((deleted P c x (T.parent x)).heap m).hashValue = (c.heap m).hashValue := by
    intro m
    rw [(deleted_fields x (T.parent x)).1]
    exact (rest_unlinkLeaf _ m).hashValue
  refine ⟨represents_updateLeafStatus (represents_unlinkLeaf hs h.represents hx) _,
    leaves_deleteLeaf hs h.represents hx h.leaves, ?_, fun m hm hm0 => ?_⟩
  · rw [hhash]
    exact h.hashed.root
  · rw [hhash]
    exact h.hashed.node m (mem_of_mem_erase hm) hm0

theorem recordRemoveEvent_deleted (henable : P.enableKvCacheEvents = true) (h : Good P c T)
    (hx : Leaf c T x) :
    P.recordRemoveEvent (deleted P c x (T.parent x)) x =
      { deleted P c x (T.parent x) with
        kvEventQueue := c.kvEventQueue ++
          (P.hashedPages c x).map fun e => .blockRemoved (P.hasher.hashStrToInt64 e.2) } := by
  obtain ⟨hheap, hqueue⟩ := deleted_fields (P := P) (c := c) x (T.parent x)
  obtain ⟨hkey, -, -, hvalue⟩ := rest_unlinkLeaf (P := P) (c := c) (n := x) (T.parent x) x
  have hhashed : P.hashed (deleted P c x (T.parent x)) x = deleted P c x (T.parent x) := by
    rw [hashed, hheap, hvalue, h.hashed.node x hx.mem hx.ne_root]
  have hpages : P.hashedPages (deleted P c x (T.parent x)) x = P.hashedPages c x := by
    rw [hashedPages, hheap, hkey, hvalue, hashedPages]
  rw [Params.recordRemoveEvent, if_pos henable]
  simp only [hhashed, hpages, hqueue]

end

include hs henable in
theorem evicted_recordRemoveEvent (h : Good P c T) (hx : Leaf c T x) :
    Evicted P c (P.recordRemoveEvent (deleted P c x (T.parent x)) x) T
      (T.removeLeaf x hx.ne_root (hx.not_isChild h.represents)) := by
  have hgood := good_deleted hs h hx
  rw [recordRemoveEvent_deleted henable h hx]
  refine ⟨hgood.queue _, erase_subset _ _, fun n r => ?_, fun b => ?_⟩
  · rw [Trie.holds_removeLeaf]
    refine and_congr_right fun hr => ?_
    exact ⟨fun hne => mem_erase.mpr ⟨hne, hr.mem⟩, fun hmem => (mem_erase.mp hmem).1⟩
  · rw [mem_replay_remove, map_snd_hashedPages h hx.mem hx.ne_root,
      mem_drop_pathHashes hx.mem hx.ne_root]
    refine and_congr_right fun _ => not_congr ⟨?_, ?_⟩
    · rintro ⟨r, hr, hb⟩
      exact ⟨x, r, ⟨hr, notMem_erase x _⟩, hb⟩
    · rintro ⟨y, r, ⟨hr, hy⟩, hb⟩
      have hyx : y = x := by
        by_contra hne
        exact hy (mem_erase.mpr ⟨hne, hr.mem⟩)
      exact ⟨r, hyx ▸ hr, hb⟩

/-- The candidates of the next round: the others, and the parent if it has become a leaf. -/
def nextCandidates (c : RadixCache H B) (p : ℕ) (others : List ℕ) : List ℕ :=
  if (c.heap p).children.entries = [] ∧ (c.heap p).lockRef = 0 then others ++ [p] else others

omit [DecidableEq B] in
theorem leaf_nextCandidates (hs : 0 < P.pageSize) (h : Good P c T) {candidates : List ℕ}
    (hleaf : ∀ y ∈ candidates, Leaf c T y) (hnodup : candidates.Nodup) {i : ℕ}
    (hget : candidates[i]? = some x) (hx : Leaf c T x) :
    (∀ y ∈ nextCandidates (deleted P c x (T.parent x)) (T.parent x) (candidates.eraseIdx i),
      Leaf (deleted P c x (T.parent x))
        (T.removeLeaf x hx.ne_root (hx.not_isChild h.represents)) y) ∧
    (nextCandidates (deleted P c x (T.parent x)) (T.parent x) (candidates.eraseIdx i)).Nodup := by
  have hheap := (deleted_fields (P := P) (c := c) x (T.parent x)).1
  have hp := T.parent_mem x hx.mem hx.ne_root
  have herase : ∀ y ∈ candidates.eraseIdx i, y ∈ candidates ∧ y ≠ x := by
    intro y hy
    obtain ⟨hi, rfl⟩ := List.getElem?_eq_some_iff.mp hget
    have hperm := getElem_cons_eraseIdx_perm hi
    have hnd := nodup_cons.mp (hperm.nodup_iff.mpr hnodup)
    exact ⟨mem_of_mem_eraseIdx hy, fun heq => hnd.1 (heq ▸ hy)⟩
  have hothers : ∀ y ∈ candidates.eraseIdx i, Leaf (deleted P c x (T.parent x))
      (T.removeLeaf x hx.ne_root (hx.not_isChild h.represents)) y := by
    intro y hy
    obtain ⟨hmem, hne⟩ := herase y hy
    obtain ⟨hlive, h0, hchildren⟩ := hx.unlinkLeaf hs h.represents (hleaf y hmem) hne
    exact ⟨hlive, h0, by rw [hheap]; exact hchildren⟩
  have hnd : (candidates.eraseIdx i).Nodup := hnodup.sublist (eraseIdx_sublist _ _)
  rw [nextCandidates]
  split_ifs with hpush
  · refine ⟨fun y hy => ?_, nodup_append.mpr ⟨hnd, nodup_singleton _, ?_⟩⟩
    · rcases mem_append.mp hy with hy | hy
      · exact hothers y hy
      · obtain rfl := List.mem_singleton.mp hy
        refine ⟨mem_erase.mpr ⟨T.parent_ne hx.mem hx.ne_root, hp⟩, fun heq => ?_, hpush.1⟩
        have hlock := (good_deleted hs h hx).represents.root_lock
        have hroot : T.parent x = T.root := heq
        rw [hroot] at hpush hlock
        exact absurd hpush.2 hlock.ne'
    · -- the parent was no leaf before
      intro y hy z hz heq
      obtain rfl := List.mem_singleton.mp hz
      have hpleaf := hleaf _ (heq ▸ (herase y hy).1)
      obtain ⟨ck, hck⟩ := T.isChild_parent hx.mem hx.ne_root
      exact hpleaf.not_isChild h.represents x ck hck
  · exact ⟨hothers, hnd⟩

include hs henable in
theorem evictLoop_spec (numTokens : ℕ) (h : Good P c T) (hfuel : T.live.card < fuel)
    {candidates : List ℕ} (hleaf : ∀ y ∈ candidates, Leaf c T y) (hnodup : candidates.Nodup)
    (numEvicted : ℕ) :
    ∃ r T', P.evictLoop numTokens fuel c candidates numEvicted = .ok r ∧
      Evicted P c r.1 T T' := by
  induction fuel generalizing c T candidates numEvicted with
  | zero => exact absurd hfuel (by omega)
  | succ fuel ih =>
    rw [Params.evictLoop]
    cases hget : candidates[P.choose c candidates % candidates.length]? with
    | none => exact ⟨_, T, rfl, .refl h⟩
    | some x =>
      have hx := hleaf x (mem_of_getElem? hget)
      simp only
      split_ifs with hmore
      · have hstep := evicted_recordRemoveEvent hs henable h hx
        obtain ⟨hcand, hnd⟩ := leaf_nextCandidates hs h hleaf hnodup hget hx
        have hparent : ((deleted P c x (T.parent x)).heap x).parent = some (T.parent x) := by
          rw [(deleted_fields x (T.parent x)).1, (rest_unlinkLeaf _ x).parent]
          exact h.represents.parent x hx.mem hx.ne_root
        have hcard : (T.live.erase x).card < fuel := by
          have := card_erase_lt_of_mem hx.mem
          omega
        -- the candidates are leaves also with the events recorded
        have hcand' : ∀ y ∈ nextCandidates (deleted P c x (T.parent x)) (T.parent x)
            (candidates.eraseIdx (P.choose c candidates % candidates.length)),
            Leaf (P.recordRemoveEvent (deleted P c x (T.parent x)) x)
              (T.removeLeaf x hx.ne_root (hx.not_isChild h.represents)) y := by
          intro y hy
          rw [recordRemoveEvent_deleted henable h hx]
          obtain ⟨hlive, h0, hchildren⟩ := hcand y hy
          exact ⟨hlive, h0, hchildren⟩
        obtain ⟨r, T', hrun, hrest⟩ :=
          ih hstep.good hcard hcand' hnd (numEvicted + (c.heap x).value.length)
        refine ⟨r, T', ?_, hstep.trans hrest⟩
        rw [deleteLeaf_eq hs h.represents hx, ← hrun]
        show P.evictLoop numTokens fuel _ _ _ = _
        rw [← deleted, hparent]
        rfl
      · exact ⟨_, T, rfl, .refl h⟩

end Replay

end MegatronDPU.Radix
