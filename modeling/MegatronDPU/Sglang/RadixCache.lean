import MegatronDPU.Lib.Dict
import MegatronDPU.Lib.Pages

/-!
# The radix cache

`RadixCache` keeps the keys of requests in a radix tree. The model has a heap of nodes by number,
and a node is in the tree if it is reached from the root through `children`.

Left out are the access times, hit counts and priorities of the nodes, which only the eviction
strategies read: which candidate is evicted next is a parameter. Values are never `None` here, so no
node is `evicted`. A call that would fail or not end gives a `RadixError`.
-/

namespace MegatronDPU.Radix

/-! ## Keys -/

/-- A token id, or the pair of two that follow each other in the keys of EAGLE. -/
inductive Token
  | id (t : ℕ)
  | pair (a b : Token)
  deriving DecidableEq, Repr

/-- `RadixKey`. -/
structure RadixKey where
  tokenIds : List Token
  extraKey : Option String
  isBigram : Bool
  deriving DecidableEq, Repr

def RadixKey.length (key : RadixKey) : ℕ := key.tokenIds.length

/-- `key[:n]`. A slice is not marked as made of bigrams. -/
def RadixKey.take (key : RadixKey) (n : ℕ) : RadixKey :=
  ⟨key.tokenIds.take n, key.extraKey, false⟩

/-- `key[n:]`. -/
def RadixKey.drop (key : RadixKey) (n : ℕ) : RadixKey :=
  ⟨key.tokenIds.drop n, key.extraKey, false⟩

/-- `convert_to_bigram_key`. -/
def convertToBigramKey (tokens : List Token) : List Token :=
  match tokens with
  | .pair _ _ :: _ => tokens
  | _ => List.zipWith .pair tokens tokens.tail

/-- `maybe_bigram_convert`. -/
def maybeBigramConvert (isEagle : Bool) (key : RadixKey) : RadixKey :=
  if isEagle && !key.isBigram then
    { key with tokenIds := convertToBigramKey key.tokenIds, isBigram := true }
  else key

/-- The errors that a call can raise. -/
inductive RadixError
  | extraKey (key0 key1 : Option String)
  | noChild
  | noEnd
  deriving DecidableEq, Repr

/-- `_check_extra_key`. -/
def checkExtraKey (key0 key1 : RadixKey) : Except RadixError Unit :=
  if key0.extraKey ≠ key1.extraKey then .error (.extraKey key0.extraKey key1.extraKey) else .ok ()

/-- `_key_match_page_size1`. -/
def keyMatchPageSize1 (key0 key1 : RadixKey) : Except RadixError ℕ := do
  checkExtraKey key0 key1
  return (List.zip key0.tokenIds key1.tokenIds).findIdx fun k => k.1 ≠ k.2

/-- The loop over whole pages; `n` bounds its rounds. -/
def matchPages (pageSize : ℕ) (l m : List Token) : ℕ → ℕ → ℕ
  | 0, i => i
  | n + 1, i =>
    if i < min l.length m.length then
      if (l.drop i).take pageSize ≠ (m.drop i).take pageSize then i
      else matchPages pageSize l m n (i + pageSize)
    else i

/-- `_key_match_paged`. -/
def keyMatchPaged (pageSize : ℕ) (key0 key1 : RadixKey) : Except RadixError ℕ := do
  checkExtraKey key0 key1
  return matchPages pageSize key0.tokenIds key1.tokenIds (min key0.length key1.length) 0

def keyMatch (pageSize : ℕ) (key0 key1 : RadixKey) : Except RadixError ℕ :=
  if pageSize = 1 then keyMatchPageSize1 key0 key1 else keyMatchPaged pageSize key0 key1

/-- The extra key and the first page. With pages of one token the source has the token in place of
the page; without an extra key, the page in place of the pair. -/
abbrev ChildKey := Option String × List Token

/-- `get_child_key`. -/
def getChildKey (pageSize : ℕ) (key : RadixKey) : ChildKey :=
  (key.extraKey, key.tokenIds.take pageSize)

/-! ## Nodes, hashes and events -/

/-- `getHashStr` of the tokens of a page after the hash of the page before it, and the number that
the events carry for a hash. Token ids are such that `getHashStr` takes them. -/
structure Hasher (H B : Type) where
  getHashStr : List Token → Option H → H
  hashStrToInt64 : H → B

/-- `TreeNode`. Nodes refer to each other by their place in the heap. -/
structure TreeNode (H : Type) where
  children : Dict ChildKey ℕ
  parent : Option ℕ
  key : RadixKey
  value : List ℕ
  lockRef : ℕ
  hashValue : Option (List H)

/-- The events of the cache. -/
inductive KvEvent (B : Type)
  | blockStored (blockHash : B) (parentBlockHash : Option B) (tokenIds : List Token)
      (blockSize : ℕ)
  | blockRemoved (blockHash : B)
  | allBlocksCleared
  deriving DecidableEq, Repr

/-- The cache, with a heap for its nodes. -/
structure RadixCache (H B : Type) where
  heap : ℕ → TreeNode H
  counter : ℕ
  rootNode : ℕ
  evictableSize : ℤ
  protectedSize : ℤ
  evictableLeaves : List ℕ
  kvEventQueue : List (KvEvent B)

/-- What the constructor of the cache is given. -/
structure Params (H B : Type) where
  pageSize : ℕ
  isEagle : Bool
  disable : Bool
  enableKvCacheEvents : Bool
  hasher : Hasher H B
  /-- The place in the heap of candidates of the node to evict next. -/
  choose : RadixCache H B → List ℕ → ℕ

variable {H B : Type}

def TreeNode.empty : TreeNode H := ⟨.empty, none, ⟨[], none, false⟩, [], 0, none⟩

namespace RadixCache

variable (c : RadixCache H B)

def update (n : ℕ) (f : TreeNode H → TreeNode H) : RadixCache H B :=
  { c with heap := Function.update c.heap n (f (c.heap n)) }

def alloc (node : TreeNode H) : RadixCache H B :=
  { c with heap := Function.update c.heap c.counter node, counter := c.counter + 1 }

end RadixCache

/-- The hashes of pages, each with the one before. -/
def Hasher.chain (hasher : Hasher H B) : Option H → List (List Token) → List H
  | _, [] => []
  | prior, page :: pages =>
    let h := hasher.getHashStr page prior
    h :: chain hasher (some h) pages

/-- `split_node_hash_value`. -/
def splitNodeHashValue (childHashValue : Option (List H)) (splitLen pageSize : ℕ) :
    Option (List H) × Option (List H) :=
  match childHashValue with
  | none => (none, none)
  | some hashes =>
    let splitPages := if pageSize = 1 then splitLen else splitLen / pageSize
    (some (hashes.take splitPages), some (hashes.drop splitPages))

namespace Params

variable (P : Params H B) (c : RadixCache H B)

/-- The last hash of the node's parent, if the parent has a key. -/
def parentHash (n : ℕ) : Option H :=
  match (c.heap n).parent with
  | none => none
  | some p =>
    match (c.heap p).hashValue with
    | none => none
    | some hashes =>
      if 0 < (c.heap p).key.length ∧ 0 < hashes.length then hashes.getLast? else none

/-- `compute_node_hash_values`. -/
def computeNodeHashValues (n : ℕ) : List H :=
  P.hasher.chain (parentHash c n) (Pages.pages P.pageSize (c.heap n).key.tokenIds)

def hashed (n : ℕ) : RadixCache H B :=
  match (c.heap n).hashValue with
  | none => c.update n fun node => { node with hashValue := some (P.computeNodeHashValues c n) }
  | some _ => c

/-- A stored event for each page. -/
def storeEvents : Option B → List (List Token × H) → List (KvEvent B)
  | _, [] => []
  | parent, (page, h) :: rest =>
    let blockHash := P.hasher.hashStrToInt64 h
    .blockStored blockHash parent page page.length :: storeEvents (some blockHash) rest

def hashedPages (n : ℕ) : List (List Token × H) :=
  List.zip (Pages.pages P.pageSize (c.heap n).key.tokenIds) ((c.heap n).hashValue.getD [])

/-- The last hash of the node's parent, if the parent is not the root. -/
def parentBlockHash (n : ℕ) : Option B :=
  match (c.heap n).parent with
  | none => none
  | some p =>
    if p ≠ c.rootNode then ((c.heap p).hashValue.getD []).getLast?.map P.hasher.hashStrToInt64
    else none

/-- `_record_store_event`. -/
def recordStoreEvent (n : ℕ) : RadixCache H B :=
  if P.enableKvCacheEvents then
    let c := P.hashed c n
    { c with
      kvEventQueue := c.kvEventQueue ++ P.storeEvents (P.parentBlockHash c n) (P.hashedPages c n) }
  else c

/-- `_record_remove_event`. -/
def recordRemoveEvent (n : ℕ) : RadixCache H B :=
  if P.enableKvCacheEvents then
    let c := P.hashed c n
    { c with
      kvEventQueue := c.kvEventQueue ++
        (P.hashedPages c n).map fun e => .blockRemoved (P.hasher.hashStrToInt64 e.2) }
  else c

def recordAllClearedEvent : RadixCache H B :=
  if P.enableKvCacheEvents then { c with kvEventQueue := c.kvEventQueue ++ [.allBlocksCleared] }
  else c

/-! ## Changes of the tree -/

/-- `reset`. -/
def reset : RadixCache H B :=
  let root : TreeNode H :=
    { (TreeNode.empty : TreeNode H) with lockRef := 1, hashValue := some [] }
  P.recordAllClearedEvent
    { c.alloc root with
      rootNode := c.counter
      evictableSize := 0
      protectedSize := 0
      evictableLeaves := [] }

/-- `_update_leaf_status`. -/
def updateLeafStatus (n : ℕ) : RadixCache H B :=
  if 0 < (c.heap n).lockRef ∨ (c.heap n).children.entries ≠ [] then
    { c with evictableLeaves := c.evictableLeaves.filter (· ≠ n) }
  else if n ∈ c.evictableLeaves then c
  else { c with evictableLeaves := c.evictableLeaves ++ [n] }

/-- The new node takes the first part of the key of `child` and the place below its parent. -/
def splitNode (child splitLen : ℕ) : RadixCache H B × ℕ :=
  let node := c.heap child
  let new := c.counter
  let hashes := splitNodeHashValue node.hashValue splitLen P.pageSize
  let c := c.alloc
    { children := Dict.empty.set (getChildKey P.pageSize (node.key.drop splitLen)) child
      parent := node.parent
      key := node.key.take splitLen
      value := node.value.take splitLen
      lockRef := node.lockRef
      hashValue := hashes.1 }
  let c := c.update child fun node =>
    { node with
      parent := some new
      key := node.key.drop splitLen
      value := node.value.drop splitLen
      hashValue := hashes.2 }
  match node.parent with
  | none => (c, new)
  | some p =>
    (c.update p fun parent =>
      { parent with children := parent.children.set (getChildKey P.pageSize node.key) new }, new)

/-- A new node below `n`. -/
def linkLeaf (n : ℕ) (key : RadixKey) (value : List ℕ) : RadixCache H B :=
  let new := c.counter
  let c := c.alloc
    { (TreeNode.empty : TreeNode H) with parent := some n, key := key, value := value }
  let c := c.update n fun node =>
    { node with children := node.children.set (getChildKey P.pageSize key) new }
  { c with evictableSize := c.evictableSize + key.length }

/-- The end of `_insert_helper`: a leaf with what is left of the key. -/
def addLeaf (n : ℕ) (key : RadixKey) (value : List ℕ) : RadixCache H B :=
  let new := c.counter
  let c := updateLeafStatus (updateLeafStatus (P.linkLeaf c n key value) n) new
  P.recordStoreEvent c new

/-- The node `n` out of the children of `p` and the candidates. -/
def unlinkLeaf (n p : ℕ) : RadixCache H B :=
  let node := c.heap n
  let c := c.update p fun parent =>
    { parent with children := parent.children.erase (getChildKey P.pageSize node.key) }
  { c with
    evictableSize := c.evictableSize - node.key.length
    evictableLeaves := c.evictableLeaves.filter (· ≠ n) }

/-- `_delete_leaf`. -/
def deleteLeaf (n : ℕ) : Except RadixError (RadixCache H B) :=
  let node := c.heap n
  match node.parent with
  | none => .error .noChild
  | some p =>
    let key := getChildKey P.pageSize node.key
    if (c.heap p).children.get? key = some n then .ok (updateLeafStatus (P.unlinkLeaf c n p) p)
    else .error .noChild

/-! ## Calls -/

/-- The loop of `_match_prefix_helper`; `fuel` bounds its rounds. -/
def matchLoop : ℕ → RadixCache H B → ℕ → RadixKey → List ℕ →
    Except RadixError (RadixCache H B × List ℕ × ℕ)
  | 0, _, _, _, _ => .error .noEnd
  | fuel + 1, c, n, key, value =>
    if 0 < key.length then
      match (c.heap n).children.get? (getChildKey P.pageSize key) with
      | none => .ok (c, value, n)
      | some child => do
        let prefixLen ← keyMatch P.pageSize (c.heap child).key key
        if prefixLen < (c.heap child).key.length then
          let r := P.splitNode c child prefixLen
          return (r.1, value ++ (r.1.heap r.2).value, r.2)
        else
          matchLoop fuel c child (key.drop prefixLen) (value ++ (c.heap child).value)
    else .ok (c, value, n)

/-- The tree, the values of the matched part and its last node. -/
def matchPrefix (key : RadixKey) : Except RadixError (RadixCache H B × List ℕ × ℕ) :=
  let key := maybeBigramConvert P.isEagle key
  if P.disable ∨ key.length = 0 then .ok (c, [], c.rootNode)
  else
    let key :=
      if P.pageSize ≠ 1 then key.take (key.length / P.pageSize * P.pageSize) else key
    if key.length = 0 then .ok (c, [], c.rootNode)
    else P.matchLoop (key.length + 1) c c.rootNode key []

/-- The loop of `_insert_helper`, with the length matched so far. -/
def insertLoop : ℕ → RadixCache H B → ℕ → RadixKey → List ℕ → ℕ →
    Except RadixError (RadixCache H B × ℕ)
  | 0, _, _, _, _, _ => .error .noEnd
  | fuel + 1, c, n, key, value, total =>
    if 0 < key.length then
      match (c.heap n).children.get? (getChildKey P.pageSize key) with
      | none => .ok (P.addLeaf c n key value, total)
      | some child => do
        let prefixLen ← keyMatch P.pageSize (c.heap child).key key
        let key := key.drop prefixLen
        let value := value.drop prefixLen
        if prefixLen < (c.heap child).key.length then
          let r := P.splitNode c child prefixLen
          insertLoop fuel r.1 r.2 key value (total + prefixLen)
        else insertLoop fuel c child key value (total + prefixLen)
    else .ok (c, total)

/-- `insert`. -/
def insert (key : RadixKey) (value : List ℕ) : Except RadixError (RadixCache H B × ℕ) :=
  if P.disable then .ok (c, 0)
  else
    let converted := maybeBigramConvert P.isEagle key
    let value := if P.isEagle && !key.isBigram then value.take converted.length else value
    P.insertLoop (converted.length + 1) c c.rootNode converted value 0

/-- The loop of `evict` over the heap of candidates. -/
def evictLoop (numTokens : ℕ) : ℕ → RadixCache H B → List ℕ → ℕ →
    Except RadixError (RadixCache H B × ℕ)
  | 0, _, _, _ => .error .noEnd
  | fuel + 1, c, candidates, numEvicted =>
    match candidates[P.choose c candidates % candidates.length]? with
    | none => .ok (c, numEvicted)
    | some x =>
      if numEvicted < numTokens then do
        let candidates := candidates.eraseIdx (P.choose c candidates % candidates.length)
        let numEvicted := numEvicted + (c.heap x).value.length
        let c ← P.deleteLeaf c x
        let candidates :=
          match (c.heap x).parent with
          | none => candidates
          | some p =>
            if (c.heap p).children.entries = [] ∧ (c.heap p).lockRef = 0 then candidates ++ [p]
            else candidates
        evictLoop numTokens fuel (P.recordRemoveEvent c x) candidates numEvicted
      else .ok (c, numEvicted)

/-- The tree and the number of tokens evicted. A round takes a node out of the tree, so there are no
more rounds than nodes were ever made. -/
def evict (numTokens : ℕ) : Except RadixError (RadixCache H B × ℕ) :=
  if P.disable then .ok (c, 0)
  else P.evictLoop numTokens (c.counter + 1) c c.evictableLeaves 0

end Params

end MegatronDPU.Radix
