import MegatronDPU.Lib.Trie
import MegatronDPU.Sglang.RadixCache

/-!
# The shape of the radix cache

The heap of a radix cache represents a trie whose letters are pages with their extra key:
`Represents`. The letter a node's edge starts with is its key among the children of its parent.
-/

namespace MegatronDPU.Radix

open Pages Finset Function List Option
open Params (linkLeaf splitNode updateLeafStatus)

variable {H B : Type} {P : Params H B} {c : RadixCache H B} {T : Trie ℕ ChildKey}

/-! ## Pages of keys -/

/-- A key as a word: a letter for each page. -/
def letters (pageSize : ℕ) (key : RadixKey) : List ChildKey :=
  (pages pageSize key.tokenIds).map (Prod.mk key.extraKey)

section Letters

variable {size : ℕ} {key key0 key1 : RadixKey}

theorem length_letters : (letters size key).length = (pages size key.tokenIds).length :=
  length_map _

theorem map_snd_letters : (letters size key).map Prod.snd = pages size key.tokenIds := by
  rw [letters, List.map_map]
  exact map_id _

theorem findIdx_zip_ne (l m : List Token) :
    (zip l m).findIdx (fun k => k.1 ≠ k.2) = common l m := by
  fun_induction common l m with
  | case1 l b m ih =>
    rw [zip_cons_cons, findIdx_cons, ih]
    simp
  | case2 a l b m hne =>
    rw [zip_cons_cons, findIdx_cons]
    simp [hne]
  | case3 l m h =>
    cases l with
    | nil => rfl
    | cons a l =>
      cases m with
      | nil => rfl
      | cons b m => exact absurd rfl (h a l b m rfl)

section

variable (hs : 0 < size)
include hs

theorem letters_take (k : ℕ) : letters size (key.take (k * size)) = (letters size key).take k := by
  rw [letters, letters, RadixKey.take, pages_take hs, map_take]

theorem letters_drop (k : ℕ) : letters size (key.drop (k * size)) = (letters size key).drop k := by
  rw [letters, letters, RadixKey.drop, pages_drop hs, map_drop]

theorem letters_eq_nil_iff : letters size key = [] ↔ key.length = 0 := by
  rw [letters, map_eq_nil_iff, pages_eq_nil_iff hs, RadixKey.length, length_eq_zero_iff]

theorem head?_letters (hkey : 0 < key.length) :
    (letters size key).head? = some (getChildKey size key) := by
  rw [letters, head?_map, head?_pages hs (length_pos_iff.mp hkey)]
  rfl

theorem lt_length_letters_iff {k : ℕ} : k < (letters size key).length ↔ k * size < key.length := by
  rw [length_letters, lt_length_pages_iff hs, RadixKey.length]

/-- The pages before `i` agree; the loop goes on from there. -/
theorem matchPages_eq (l m : List Token) {n k : ℕ} (hn : min l.length m.length ≤ k * size + n)
    (hk : k ≤ (pages size l).length) (htake : (pages size l).take k = (pages size m).take k) :
    matchPages size l m n (k * size) = common (pages size l) (pages size m) * size := by
  induction n generalizing k with
  | zero => rw [matchPages, common_pages_of_end hs hk htake (by omega)]
  | succ n ih =>
    rw [matchPages]
    split_ifs with hlt hne
    · rw [common_eq hk htake (.inl ?_)]
      rw [getElem?_pages hs, getElem?_pages hs, if_pos (by omega), if_pos (by omega)]
      exact fun heq => hne (some.inj heq)
    · have hpage : (pages size l)[k]? = (pages size m)[k]? := by
        rw [getElem?_pages hs, getElem?_pages hs, if_pos (by omega), if_pos (by omega),
          not_not.mp hne]
      have hnext := ih (k := k + 1) (by rw [Nat.succ_mul]; omega)
        ((lt_length_pages_iff hs).mpr (by omega))
        (by rw [take_add_one, take_add_one, htake, hpage])
      rwa [Nat.succ_mul] at hnext
    · rw [common_pages_of_end hs hk htake hlt]

/-- The matched length is that of the common pages; it may pass the end of a short last page. -/
theorem keyMatch_eq (hextra : key0.extraKey = key1.extraKey) :
    keyMatch size key0 key1 = .ok (common (letters size key0) (letters size key1) * size) := by
  have hcheck : checkExtraKey key0 key1 = .ok () := if_neg fun h => h hextra
  have hletters : common (letters size key0) (letters size key1) =
      common (pages size key0.tokenIds) (pages size key1.tokenIds) := by
    rw [letters, letters, hextra]
    exact common_map (Prod.mk_right_injective key1.extraKey) _ _
  rw [hletters, keyMatch]
  split_ifs with h1
  · subst h1
    rw [keyMatchPageSize1, hcheck, pages_one, pages_one,
      common_map (fun a b h => List.singleton_inj.mp h), mul_one]
    exact congrArg Except.ok (findIdx_zip_ne _ _)
  · have h := matchPages_eq hs key0.tokenIds key1.tokenIds (k := 0)
      (n := min key0.length key1.length) (by rw [zero_mul, zero_add]; exact le_rfl)
      (Nat.zero_le _) rfl
    rw [zero_mul] at h
    rw [keyMatchPaged, hcheck, ← h]
    rfl

end

end Letters

/-! ## The trie of a heap -/

/-- The heap holds the nodes of the trie, linked in both directions, with their edges as keys. -/
structure Represents (P : Params H B) (c : RadixCache H B) (T : Trie ℕ ChildKey) : Prop where
  root : c.rootNode = T.root
  lt_counter : ∀ n ∈ T.live, n < c.counter
  children : ∀ n ∈ T.live, ∀ ck m, (c.heap n).children.get? ck = some m ↔ T.IsChild n ck m
  parent : ∀ n ∈ T.live, n ≠ T.root → (c.heap n).parent = some (T.parent n)
  edge : ∀ n ∈ T.live, n ≠ T.root → T.edge n = letters P.pageSize (c.heap n).key
  root_key : (c.heap T.root).key.length = 0
  root_lock : 0 < (c.heap T.root).lockRef

/-- The node `a` is `b`, up to the children and the value. -/
structure Keeps (a b : TreeNode H) : Prop where
  key : a.key = b.key
  parent : a.parent = b.parent
  lockRef : a.lockRef = b.lockRef
  hashValue : a.hashValue = b.hashValue

/-- A live node other than the root that has no child. -/
structure Leaf (c : RadixCache H B) (T : Trie ℕ ChildKey) (n : ℕ) : Prop where
  mem : n ∈ T.live
  ne_root : n ≠ T.root
  children : (c.heap n).children.entries = []

/-- The evictable leaves are leaves of the tree. -/
structure Leaves (c : RadixCache H B) (T : Trie ℕ ChildKey) : Prop where
  leaf : ∀ n ∈ c.evictableLeaves, Leaf c T n
  nodup : c.evictableLeaves.Nodup

section Represents

variable (hs : 0 < P.pageSize) (h : Represents P c T)
include hs h

theorem Represents.key_pos {n : ℕ} (hn : n ∈ T.live) (h0 : n ≠ T.root) :
    0 < (c.heap n).key.length := by
  refine pos_of_ne_zero fun hzero => T.edge_ne_nil hn h0 ?_
  rw [h.edge n hn h0]
  exact (letters_eq_nil_iff hs).mpr hzero

theorem Represents.head?_edge {n : ℕ} (hn : n ∈ T.live) (h0 : n ≠ T.root) :
    (T.edge n).head? = some (getChildKey P.pageSize (c.heap n).key) := by
  rw [h.edge n hn h0, head?_letters hs (h.key_pos hs hn h0)]

end Represents

theorem Represents.counter_notMem (h : Represents P c T) : c.counter ∉ T.live :=
  fun hmem => lt_irrefl _ (h.lt_counter _ hmem)

theorem Represents.ne_counter (h : Represents P c T) {m : ℕ} (hm : m ∈ T.live) : m ≠ c.counter :=
  fun heq => h.counter_notMem (heq ▸ hm)

/-- The nodes that are reached from the root through the children. -/
inductive InTree (c : RadixCache H B) : ℕ → Prop
  | root : InTree c c.rootNode
  | child {p n : ℕ} {ck : ChildKey} : InTree c p → (c.heap p).children.get? ck = some n → InTree c n

theorem inTree_iff (h : Represents P c T) {n : ℕ} : InTree c n ↔ n ∈ T.live := by
  constructor
  · intro hn
    induction hn with
    | root => exact h.root ▸ T.root_mem
    | child _ hget ih => exact ((h.children _ ih _ _).mp hget).mem
  · -- by induction on the length of the path, as parents have shorter ones
    intro hn
    induction hlen : (T.path n).length using Nat.strong_induction_on generalizing n with
    | _ len ih =>
      by_cases h0 : n = T.root
      · rw [h0, ← h.root]
        exact .root
      · have hpar := T.parent_mem n hn h0
        obtain ⟨ck, hck⟩ := T.isChild_parent hn h0
        have hlt := T.path_lt n hn h0
        exact .child (ih _ (hlen ▸ hlt) hpar rfl) ((h.children _ hpar ck n).mpr hck)

/-! ## Splitting a node -/

variable {m : ℕ}

section Split

variable {child p : ℕ} (splitLen : ℕ)

section

variable (hparent : (c.heap child).parent = some p)
include hparent

theorem splitNode_fields : (P.splitNode c child splitLen).2 = c.counter ∧
    (P.splitNode c child splitLen).1.rootNode = c.rootNode ∧
    (P.splitNode c child splitLen).1.counter = c.counter + 1 ∧
    (P.splitNode c child splitLen).1.evictableLeaves = c.evictableLeaves ∧
    (P.splitNode c child splitLen).1.kvEventQueue = c.kvEventQueue := by
  rw [splitNode, hparent]
  exact ⟨rfl, rfl, rfl, rfl, rfl⟩

theorem heap_splitNode_new (hchild : child ≠ c.counter) (hp : p ≠ c.counter) :
    (P.splitNode c child splitLen).1.heap c.counter =
      { children := Dict.empty.set
          (getChildKey P.pageSize ((c.heap child).key.drop splitLen)) child
        parent := some p
        key := (c.heap child).key.take splitLen
        value := (c.heap child).value.take splitLen
        lockRef := (c.heap child).lockRef
        hashValue := (splitNodeHashValue (c.heap child).hashValue splitLen P.pageSize).1 } := by
  rw [splitNode, hparent]
  simp only [RadixCache.update, RadixCache.alloc]
  rw [update_of_ne hp.symm, update_of_ne hchild.symm, update_self]

theorem heap_splitNode_child (hchild : child ≠ c.counter) (hp : p ≠ child) :
    (P.splitNode c child splitLen).1.heap child =
      { c.heap child with
        parent := some c.counter
        key := (c.heap child).key.drop splitLen
        value := (c.heap child).value.drop splitLen
        hashValue := (splitNodeHashValue (c.heap child).hashValue splitLen P.pageSize).2 } := by
  rw [splitNode, hparent]
  simp only [RadixCache.update, RadixCache.alloc]
  rw [update_of_ne hp.symm, update_self, update_of_ne hchild]

theorem heap_splitNode_parent (hp : p ≠ c.counter) (hpc : p ≠ child) :
    (P.splitNode c child splitLen).1.heap p =
      { c.heap p with
        children := (c.heap p).children.set (getChildKey P.pageSize (c.heap child).key)
          c.counter } := by
  rw [splitNode, hparent]
  simp only [RadixCache.update, RadixCache.alloc]
  rw [update_self, update_of_ne hpc, update_of_ne hp]

theorem heap_splitNode_of_ne (hm : m ≠ c.counter) (hmc : m ≠ child) (hmp : m ≠ p) :
    (P.splitNode c child splitLen).1.heap m = c.heap m := by
  rw [splitNode, hparent]
  simp only [RadixCache.update, RadixCache.alloc]
  rw [update_of_ne hmp, update_of_ne hmc, update_of_ne hm]

end

variable {k : ℕ} (hs : 0 < P.pageSize) (h : Represents P c T) (hn : child ∈ T.live)
  (h0 : child ≠ T.root)
include h hn h0

theorem children_splitNode_of_ne (hm : m ∈ T.live) (hmp : m ≠ T.parent child) :
    ((P.splitNode c child splitLen).1.heap m).children = (c.heap m).children := by
  have hparent := h.parent child hn h0
  by_cases hmc : m = child
  · rw [hmc, heap_splitNode_child _ hparent (h.ne_counter hn) (T.parent_ne hn h0)]
  · rw [heap_splitNode_of_ne _ hparent (h.ne_counter hm) hmc hmp]

theorem rest_splitNode_of_ne (hm : m ∈ T.live) (hmc : m ≠ child) :
    Keeps ((P.splitNode c child splitLen).1.heap m) (c.heap m) := by
  have hparent := h.parent child hn h0
  by_cases hmp : m = T.parent child
  · rw [hmp, heap_splitNode_parent _ hparent (h.ne_counter (T.parent_mem child hn h0))
      (T.parent_ne hn h0)]
    exact ⟨rfl, rfl, rfl, rfl⟩
  · rw [heap_splitNode_of_ne _ hparent (h.ne_counter hm) hmc hmp]
    exact ⟨rfl, rfl, rfl, rfl⟩

include hs

section

variable (hk0 : 0 < k) (hk : k < (T.edge child).length)
include hk0 hk

theorem children_splitNode_new (ck : ChildKey) (m : ℕ) :
    ((P.splitNode c child (k * P.pageSize)).1.heap c.counter).children.get? ck = some m ↔
      (T.split child c.counter k hn h0 h.counter_notMem hk0 hk).IsChild c.counter ck m := by
  have hparent := h.parent child hn h0
  have hnew := h.counter_notMem
  have hchild := h.ne_counter hn
  have hpnew := h.ne_counter (T.parent_mem child hn h0)
  have hdrop : 0 < ((c.heap child).key.drop (k * P.pageSize)).length := by
    rw [h.edge child hn h0, lt_length_letters_iff hs] at hk
    rw [RadixKey.length, RadixKey.drop, length_drop]
    exact Nat.sub_pos_of_lt hk
  have hsecond : ((T.edge child).drop k).head? =
      some (getChildKey P.pageSize ((c.heap child).key.drop (k * P.pageSize))) := by
    rw [h.edge child hn h0, ← letters_drop hs, head?_letters hs hdrop]
  rw [heap_splitNode_new _ hparent hchild hpnew]
  rw [Dict.get?_set, Dict.get?_empty]
  by_cases hmc : m = child
  · rw [hmc, Trie.isChild_split_self, hsecond, Option.some.injEq]
    split_ifs with hck
    · exact ⟨fun _ => ⟨rfl, hck.symm⟩, fun _ => rfl⟩
    · exact ⟨fun hf => absurd hf (by simp), fun hf => absurd hf.2.symm hck⟩
  · have hnot : ¬ (T.split child c.counter k hn h0 hnew hk0 hk).IsChild c.counter ck m := by
      by_cases hmn : m = c.counter
      · rw [hmn, Trie.isChild_split_new]
        exact fun hf => hpnew hf.1
      · rw [Trie.isChild_split_of_ne hmn hmc]
        intro hf
        exact hnew (hf.parent_eq ▸ T.parent_mem m hf.mem hf.ne_root)
    refine iff_of_false ?_ hnot
    split_ifs
    · exact fun hf => hmc (some.inj hf).symm
    · simp

theorem children_splitNode_parent (ck : ChildKey) (m : ℕ) :
    ((P.splitNode c child splitLen).1.heap (T.parent child)).children.get? ck = some m ↔
      (T.split child c.counter k hn h0 h.counter_notMem hk0 hk).IsChild (T.parent child) ck m := by
  have hnew := h.counter_notMem
  have hp := T.parent_mem child hn h0
  have hpnew := h.ne_counter hp
  have hfirst := h.head?_edge hs hn h0
  rw [heap_splitNode_parent _ (h.parent child hn h0) hpnew (T.parent_ne hn h0)]
  rw [Dict.get?_set]
  by_cases hmn : m = c.counter
  · rw [hmn, Trie.isChild_split_new, hfirst, Option.some.injEq]
    split_ifs with hck
    · exact ⟨fun _ => ⟨rfl, hck.symm⟩, fun _ => rfl⟩
    · refine iff_of_false (fun hf => ?_) fun hf => hck hf.2.symm
      exact hnew ((h.children _ hp ck _).mp hf).mem
  · by_cases hmc : m = child
    · rw [hmc, Trie.isChild_split_self]
      refine iff_of_false (fun hf => ?_) fun hf => hpnew hf.1.symm
      split_ifs at hf with hck
      · exact hmn (hmc.trans (some.inj hf).symm)
      · have hhead := ((h.children _ hp ck _).mp hf).head?_edge
        rw [hfirst] at hhead
        exact hck (some.inj hhead).symm
    · rw [Trie.isChild_split_of_ne hmn hmc]
      split_ifs with hck
      · refine iff_of_false (fun hf => hmn (some.inj hf).symm) fun hf => hmc ?_
        exact T.isChild_unique hf ⟨hn, h0, rfl, hfirst.trans (congrArg some hck.symm)⟩
      · exact h.children _ hp ck m

theorem children_splitNode {n : ℕ}
    (hmem : n ∈ (T.split child c.counter k hn h0 h.counter_notMem hk0 hk).live) (ck : ChildKey)
    (m : ℕ) : ((P.splitNode c child (k * P.pageSize)).1.heap n).children.get? ck = some m ↔
      (T.split child c.counter k hn h0 h.counter_notMem hk0 hk).IsChild n ck m := by
  have hnew := h.counter_notMem
  rcases mem_insert.mp hmem with rfl | hn'
  · exact children_splitNode_new hs h hn h0 hk0 hk ck m
  · by_cases hnp : n = T.parent child
    · subst hnp
      exact children_splitNode_parent _ hs h hn h0 hk0 hk ck m
    · rw [children_splitNode_of_ne _ h hn h0 hn' hnp, h.children n hn' ck m]
      by_cases hmn : m = c.counter
      · rw [hmn, Trie.isChild_split_new]
        exact iff_of_false (fun hf => hnew hf.mem) fun hf => hnp hf.1.symm
      · by_cases hmc : m = child
        · rw [hmc, Trie.isChild_split_self]
          exact iff_of_false (fun hf => hnp hf.parent_eq.symm) fun hf => hnew (hf.1 ▸ hn')
        · rw [Trie.isChild_split_of_ne hmn hmc]

theorem represents_splitNode : Represents P (P.splitNode c child (k * P.pageSize)).1
      (T.split child c.counter k hn h0 h.counter_notMem hk0 hk) := by
  have hparent := h.parent child hn h0
  have hchild := h.ne_counter hn
  have hpnew := h.ne_counter (T.parent_mem child hn h0)
  have hpc := T.parent_ne hn h0
  have hedge := h.edge child hn h0
  have hroot := rest_splitNode_of_ne (P := P) (k * P.pageSize) h hn h0 T.root_mem h0.symm
  obtain ⟨-, hfroot, hfcounter, -, -⟩ := splitNode_fields (P := P) (k * P.pageSize) hparent
  refine ⟨hfroot.trans h.root, ?_, fun n hmem => children_splitNode hs h hn h0 hk0 hk hmem, ?_, ?_,
    hroot.key ▸ h.root_key, hroot.lockRef ▸ h.root_lock⟩
  · intro m hm
    rw [hfcounter]
    rcases mem_insert.mp hm with rfl | hm'
    · exact Nat.lt_succ_self _
    · exact Nat.lt_succ_of_lt (h.lt_counter m hm')
  · intro m hm hm0
    rcases mem_insert.mp hm with rfl | hm'
    · rw [heap_splitNode_new _ hparent hchild hpnew, Trie.parent_split_new]
    · by_cases hmc : m = child
      · rw [hmc, heap_splitNode_child _ hparent hchild hpc, Trie.parent_split_self]
      · rw [(rest_splitNode_of_ne _ h hn h0 hm' hmc).parent, Trie.parent_split_of_ne hm' hmc]
        exact h.parent m hm' hm0
  · intro m hm hm0
    rcases mem_insert.mp hm with rfl | hm'
    · rw [heap_splitNode_new _ hparent hchild hpnew, Trie.edge_split_new, hedge, letters_take hs]
    · by_cases hmc : m = child
      · rw [hmc, heap_splitNode_child _ hparent hchild hpc, Trie.edge_split_self, hedge,
          letters_drop hs]
      · rw [(rest_splitNode_of_ne _ h hn h0 hm' hmc).key, Trie.edge_split_of_ne hm' hm0 hmc]
        exact h.edge m hm' hm0

end

theorem leaves_splitNode (hl : Leaves c T) (hk0 : 0 < k) (hk : k < (T.edge child).length) :
    Leaves (P.splitNode c child (k * P.pageSize)).1
      (T.split child c.counter k hn h0 h.counter_notMem hk0 hk) := by
  obtain ⟨-, -, -, hfleaves, -⟩ :=
    splitNode_fields (P := P) (k * P.pageSize) (h.parent child hn h0)
  refine ⟨fun m hm => ?_, hfleaves ▸ hl.nodup⟩
  rw [hfleaves] at hm
  obtain ⟨hm', hm0, hleaf⟩ := hl.leaf m hm
  refine ⟨mem_insert_of_mem hm', hm0, ?_⟩
  rw [children_splitNode_of_ne _ h hn h0 hm' fun heq => ?_]
  · exact hleaf
  · -- the parent of the child is not a leaf
    have hget := (h.children m hm' _ child).mpr ⟨hn, h0, heq.symm, h.head?_edge hs hn h0⟩
    exact Dict.entries_eq_nil_iff.mp hleaf _ _ hget

end Split

/-! ## Candidates for eviction -/

theorem updateLeafStatus_eq (c : RadixCache H B) (n : ℕ) :
    ∃ leaves, updateLeafStatus c n = { c with evictableLeaves := leaves } := by
  rw [updateLeafStatus]
  split_ifs
  · exact ⟨_, rfl⟩
  · exact ⟨c.evictableLeaves, rfl⟩
  · exact ⟨_, rfl⟩

theorem represents_updateLeafStatus (h : Represents P c T) (n : ℕ) :
    Represents P (updateLeafStatus c n) T := by
  obtain ⟨leaves, heq⟩ := updateLeafStatus_eq c n
  rw [heq]
  exact ⟨h.root, h.lt_counter, h.children, h.parent, h.edge, h.root_key, h.root_lock⟩

theorem leaves_updateLeafStatus (h : Represents P c T) {n : ℕ} (hn : n ∈ T.live)
    (hleaf : ∀ m ∈ c.evictableLeaves, m ≠ n → Leaf c T m) (hnodup : c.evictableLeaves.Nodup) :
    Leaves (updateLeafStatus c n) T := by
  rw [updateLeafStatus]
  split_ifs with hno hmem
  · refine ⟨fun m hm => ?_, hnodup.filter _⟩
    obtain ⟨hm, hne⟩ := List.mem_filter.mp hm
    obtain ⟨hlive, h0, hchildren⟩ := hleaf m hm (of_decide_eq_true hne)
    exact ⟨hlive, h0, hchildren⟩
  all_goals
    obtain ⟨hlock, hchildren⟩ := not_or.mp hno
    have hn0 : n ≠ T.root := fun heq => hlock (heq ▸ h.root_lock)
    have hself : Leaf c T n := ⟨hn, hn0, not_not.mp hchildren⟩
  · refine ⟨fun m hm => ?_, hnodup⟩
    by_cases hmn : m = n
    · exact hmn ▸ hself
    · exact hleaf m hm hmn
  · refine ⟨fun m hm => ?_, ?_⟩
    · rcases mem_append.mp hm with hm | hm
      · obtain ⟨hlive, h0, hchildren⟩ := hleaf m hm fun heq => hmem (heq ▸ hm)
        exact ⟨hlive, h0, hchildren⟩
      · obtain rfl := List.mem_singleton.mp hm
        exact ⟨hself.mem, hself.ne_root, hself.children⟩
    · exact nodup_append.mpr ⟨hnodup, nodup_singleton n, by
        intro a ha b hb
        rw [List.mem_singleton.mp hb]
        exact fun heq => hmem (heq ▸ ha)⟩

/-! ## A new leaf -/

section LinkLeaf

variable {n : ℕ} {key : RadixKey} {value : List ℕ}

theorem heap_linkLeaf_new (hn : n ≠ c.counter) : (P.linkLeaf c n key value).heap c.counter =
    { (TreeNode.empty : TreeNode H) with parent := some n, key := key, value := value } := by
  rw [linkLeaf]
  simp only [RadixCache.update, RadixCache.alloc]
  rw [update_of_ne hn.symm, update_self]

theorem heap_linkLeaf_self (hn : n ≠ c.counter) : (P.linkLeaf c n key value).heap n =
    { c.heap n with
      children := (c.heap n).children.set (getChildKey P.pageSize key) c.counter } := by
  rw [linkLeaf]
  simp only [RadixCache.update, RadixCache.alloc]
  rw [update_self, update_of_ne hn]

theorem heap_linkLeaf_of_ne (hm : m ≠ c.counter) (hmn : m ≠ n) :
    (P.linkLeaf c n key value).heap m = c.heap m := by
  rw [linkLeaf]
  simp only [RadixCache.update, RadixCache.alloc]
  rw [update_of_ne hmn, update_of_ne hm]

theorem rest_linkLeaf (key : RadixKey) (value : List ℕ) (hn : n ≠ c.counter) (hm : m ≠ c.counter) :
    Keeps ((P.linkLeaf c n key value).heap m) (c.heap m) := by
  by_cases hmn : m = n
  · rw [hmn, heap_linkLeaf_self hn]
    exact ⟨rfl, rfl, rfl, rfl⟩
  · rw [heap_linkLeaf_of_ne hm hmn]
    exact ⟨rfl, rfl, rfl, rfl⟩

theorem Represents.free (hs : 0 < P.pageSize) (h : Represents P c T) (hn : n ∈ T.live)
    (hkey : 0 < key.length) (hnone : (c.heap n).children.get? (getChildKey P.pageSize key) = none)
    (m : ℕ) (ck : ChildKey) (hm : T.IsChild n ck m) :
    (letters P.pageSize key).head? ≠ some ck := by
  rw [head?_letters hs hkey]
  intro heq
  rw [some.inj heq, (h.children n hn ck m).mpr hm] at hnone
  exact absurd hnone (by simp)

variable (hs : 0 < P.pageSize) (h : Represents P c T) (hn : n ∈ T.live) (hkey : 0 < key.length)
  (hnone : (c.heap n).children.get? (getChildKey P.pageSize key) = none)

def leafTrie : Trie ℕ ChildKey :=
  T.addLeaf n c.counter (letters P.pageSize key) hn h.counter_notMem
    (fun hnil => hkey.ne' ((letters_eq_nil_iff hs).mp hnil)) (h.free hs hn hkey hnone)

theorem children_linkLeaf {p : ℕ} (hp : p ∈ (leafTrie hs h hn hkey hnone).live) (ck : ChildKey)
    (m : ℕ) : ((P.linkLeaf c n key value).heap p).children.get? ck = some m ↔
      (leafTrie hs h hn hkey hnone).IsChild p ck m := by
  have hnew := h.counter_notMem
  have hnc := h.ne_counter hn
  have hchild : ∀ {p m}, T.IsChild p ck m → m ≠ c.counter := fun hm => h.ne_counter hm.mem
  rcases mem_insert.mp hp with rfl | hp'
  · rw [heap_linkLeaf_new hnc]
    show (Dict.empty : Dict ChildKey ℕ).get? ck = some m ↔ _
    rw [Dict.get?_empty]
    refine iff_of_false (by simp) fun hm => ?_
    by_cases hmn : m = c.counter
    · subst hmn
      exact hnc (Trie.isChild_addLeaf_self.mp hm).1
    · have hm := (Trie.isChild_addLeaf_of_ne hmn).mp hm
      exact hnew (hm.parent_eq ▸ T.parent_mem m hm.mem hm.ne_root)
  · by_cases hpn : p = n
    · subst hpn
      rw [heap_linkLeaf_self hnc]
      rw [Dict.get?_set]
      by_cases hmn : m = c.counter
      · rw [hmn, leafTrie, Trie.isChild_addLeaf_self, head?_letters hs hkey, Option.some.injEq]
        split_ifs with hck
        · exact ⟨fun _ => ⟨rfl, hck.symm⟩, fun _ => rfl⟩
        · refine iff_of_false (fun hf => ?_) fun hf => hck hf.2.symm
          exact hchild ((h.children p hn ck _).mp hf) rfl
      · rw [leafTrie, Trie.isChild_addLeaf_of_ne hmn]
        split_ifs with hck
        · refine iff_of_false (fun hf => hmn (some.inj hf).symm) fun hf => ?_
          rw [hck] at hf
          rw [(h.children p hn _ m).mpr hf] at hnone
          exact absurd hnone (by simp)
        · exact h.children p hn ck m
    · rw [heap_linkLeaf_of_ne (h.ne_counter hp') hpn, h.children p hp' ck m]
      by_cases hmn : m = c.counter
      · rw [hmn, leafTrie, Trie.isChild_addLeaf_self]
        exact iff_of_false (fun hf => hchild hf rfl) fun hf => hpn hf.1.symm
      · rw [leafTrie, Trie.isChild_addLeaf_of_ne hmn]

theorem represents_linkLeaf (value : List ℕ) :
    Represents P (P.linkLeaf c n key value) (leafTrie hs h hn hkey hnone) := by
  have hnc := h.ne_counter hn
  have hroot := rest_linkLeaf (P := P) key value hnc (h.ne_counter T.root_mem)
  refine ⟨h.root, ?_, fun p hp => children_linkLeaf hs h hn hkey hnone hp, ?_, ?_,
    hroot.key ▸ h.root_key, hroot.lockRef ▸ h.root_lock⟩
  · intro m hm
    rcases mem_insert.mp hm with rfl | hm'
    · exact Nat.lt_succ_self _
    · exact Nat.lt_succ_of_lt (h.lt_counter m hm')
  · intro m hm hm0
    rcases mem_insert.mp hm with rfl | hm'
    · rw [heap_linkLeaf_new hnc, leafTrie, Trie.parent_addLeaf_self]
    · rw [(rest_linkLeaf _ _ hnc (h.ne_counter hm')).parent, leafTrie,
        Trie.parent_addLeaf_of_mem hm']
      exact h.parent m hm' hm0
  · intro m hm hm0
    rcases mem_insert.mp hm with rfl | hm'
    · rw [heap_linkLeaf_new hnc, leafTrie, Trie.edge_addLeaf_self]
    · rw [(rest_linkLeaf _ _ hnc (h.ne_counter hm')).key, leafTrie,
        Trie.edge_addLeaf_of_mem hm' hm0]
      exact h.edge m hm' hm0

theorem leaves_linkLeaf (hl : Leaves c T) :
    Leaves (updateLeafStatus (updateLeafStatus (P.linkLeaf c n key value) n)
      c.counter) (leafTrie hs h hn hkey hnone) := by
  have hrep := represents_linkLeaf hs h hn hkey hnone value
  have hfirst : Leaves (updateLeafStatus (P.linkLeaf c n key value) n)
      (leafTrie hs h hn hkey hnone) := by
    refine leaves_updateLeafStatus hrep (mem_insert_of_mem hn) (fun m hm hmn => ?_) hl.nodup
    obtain ⟨hm', hm0, hchildren⟩ := hl.leaf m hm
    refine ⟨mem_insert_of_mem hm', hm0, ?_⟩
    rw [heap_linkLeaf_of_ne (h.ne_counter hm') hmn]
    exact hchildren
  exact leaves_updateLeafStatus (represents_updateLeafStatus hrep n) (mem_insert_self _ _)
    (fun m hm _ => hfirst.leaf m hm) hfirst.nodup

end LinkLeaf

/-! ## A leaf less -/

section UnlinkLeaf

variable {n : ℕ}

theorem heap_unlinkLeaf_parent (p : ℕ) : (P.unlinkLeaf c n p).heap p = { c.heap p with
      children := (c.heap p).children.erase (getChildKey P.pageSize (c.heap n).key) } :=
  update_self ..

theorem heap_unlinkLeaf_of_ne {p : ℕ} (hmp : m ≠ p) : (P.unlinkLeaf c n p).heap m = c.heap m :=
  update_of_ne hmp ..

theorem rest_unlinkLeaf (p m : ℕ) : Keeps ((P.unlinkLeaf c n p).heap m) (c.heap m) := by
  by_cases hmp : m = p
  · rw [hmp, heap_unlinkLeaf_parent]
    exact ⟨rfl, rfl, rfl, rfl⟩
  · rw [heap_unlinkLeaf_of_ne hmp]
    exact ⟨rfl, rfl, rfl, rfl⟩

theorem Leaf.not_isChild (h : Represents P c T) (hl : Leaf c T n) (m : ℕ) (ck : ChildKey) :
    ¬ T.IsChild n ck m := fun hm =>
  Dict.entries_eq_nil_iff.mp hl.children ck m ((h.children n hl.mem ck m).mpr hm)

section

variable (hs : 0 < P.pageSize) (h : Represents P c T) (hl : Leaf c T n)
include hs h hl

theorem represents_unlinkLeaf : Represents P (P.unlinkLeaf c n (T.parent n))
      (T.removeLeaf n hl.ne_root (hl.not_isChild h)) := by
  have hfirst := h.head?_edge hs hl.mem hl.ne_root
  have hroot := rest_unlinkLeaf (P := P) (c := c) (n := n) (T.parent n) T.root
  refine ⟨h.root, fun m hm => h.lt_counter m (mem_of_mem_erase hm), ?_, ?_, ?_,
    hroot.key ▸ h.root_key, hroot.lockRef ▸ h.root_lock⟩
  · intro p hp ck m
    have hp' := mem_of_mem_erase hp
    rw [Trie.isChild_removeLeaf]
    by_cases hpn : p = T.parent n
    · subst hpn
      rw [heap_unlinkLeaf_parent]
      rw [Dict.get?_erase]
      split_ifs with hck
      · refine iff_of_false (by simp) fun hm => hm.2 ?_
        exact T.isChild_unique hm.1
          ⟨hl.mem, hl.ne_root, rfl, hfirst.trans (congrArg some hck.symm)⟩
      · rw [h.children _ hp' ck m]
        refine ⟨fun hm => ⟨hm, ?_⟩, fun hm => hm.1⟩
        rintro rfl
        exact hck (some.inj (hm.head?_edge.symm.trans hfirst))
    · rw [heap_unlinkLeaf_of_ne hpn, h.children p hp' ck m]
      refine ⟨fun hm => ⟨hm, ?_⟩, fun hm => hm.1⟩
      rintro rfl
      exact hpn hm.parent_eq.symm
  · intro m hm hm0
    rw [(rest_unlinkLeaf _ m).parent]
    exact h.parent m (mem_of_mem_erase hm) hm0
  · intro m hm hm0
    rw [(rest_unlinkLeaf _ m).key]
    exact h.edge m (mem_of_mem_erase hm) hm0

theorem Leaf.unlinkLeaf (hm : Leaf c T m) (hmn : m ≠ n) :
    Leaf (P.unlinkLeaf c n (T.parent n)) (T.removeLeaf n hl.ne_root (hl.not_isChild h)) m := by
  refine ⟨mem_erase.mpr ⟨hmn, hm.mem⟩, hm.ne_root, ?_⟩
  rw [heap_unlinkLeaf_of_ne fun heq => ?_]
  · exact hm.children
  · exact hm.not_isChild h n _ ⟨hl.mem, hl.ne_root, heq.symm, h.head?_edge hs hl.mem hl.ne_root⟩

theorem deleteLeaf_eq : P.deleteLeaf c n =
      .ok (updateLeafStatus (P.unlinkLeaf c n (T.parent n)) (T.parent n)) := by
  have hparent := T.parent_mem n hl.mem hl.ne_root
  have hget := (h.children _ hparent _ n).mpr
    ⟨hl.mem, hl.ne_root, rfl, h.head?_edge hs hl.mem hl.ne_root⟩
  rw [Params.deleteLeaf, h.parent n hl.mem hl.ne_root]
  exact if_pos hget

theorem leaves_deleteLeaf (hls : Leaves c T) :
    Leaves (updateLeafStatus (P.unlinkLeaf c n (T.parent n)) (T.parent n))
      (T.removeLeaf n hl.ne_root (hl.not_isChild h)) := by
  refine leaves_updateLeafStatus (represents_unlinkLeaf hs h hl)
    (mem_erase.mpr ⟨T.parent_ne hl.mem hl.ne_root, T.parent_mem n hl.mem hl.ne_root⟩)
    (fun m hm _ => ?_) (hls.nodup.filter _)
  obtain ⟨hm, hmn⟩ := List.mem_filter.mp hm
  exact hl.unlinkLeaf hs h (hls.leaf m hm) (of_decide_eq_true hmn)

end

end UnlinkLeaf

/-! ## Descending -/

theorem exists_keyMatch (hs : 0 < P.pageSize) (h : Represents P c T) {n child : ℕ} {key : RadixKey}
    (hn : n ∈ T.live) (hkey : 0 < key.length)
    (hget : (c.heap n).children.get? (getChildKey P.pageSize key) = some child) :
    (child ∈ T.live ∧ child ≠ T.root) ∧ ∃ k, 0 < k ∧
      keyMatch P.pageSize (c.heap child).key key = .ok (k * P.pageSize) ∧
      (k * P.pageSize < (c.heap child).key.length ↔ k < (T.edge child).length) := by
  have hchild := (h.children n hn _ child).mp hget
  have hhead := h.head?_edge hs hchild.mem hchild.ne_root
  rw [hchild.head?_edge] at hhead
  have hextra : (c.heap child).key.extraKey = key.extraKey :=
    (congrArg Prod.fst (some.inj hhead)).symm
  refine ⟨⟨hchild.mem, hchild.ne_root⟩, common (letters P.pageSize (c.heap child).key)
    (letters P.pageSize key), common_pos ?_ ?_, keyMatch_eq hs hextra, ?_⟩
  · rw [← h.edge child hchild.mem hchild.ne_root]
    exact T.edge_ne_nil hchild.mem hchild.ne_root
  · rw [← h.edge child hchild.mem hchild.ne_root, hchild.head?_edge, head?_letters hs hkey]
  · rw [h.edge child hchild.mem hchild.ne_root, lt_length_letters_iff hs]

theorem length_drop_lt (hs : 0 < P.pageSize) {key : RadixKey} (hkey : 0 < key.length) {k : ℕ}
    (hk : 0 < k) : (key.drop (k * P.pageSize)).length < key.length := by
  have hpos := mul_pos hk hs
  rw [RadixKey.length, RadixKey.drop, length_drop]
  rw [RadixKey.length] at hkey ⊢
  omega

end MegatronDPU.Radix
