import Mathlib.Tactic

/-!
# Compressed tries

The nodes of a trie over an alphabet are kept with the word that leads to each of them. A node other
than the root continues the word of its parent, and siblings continue it with different letters, so
every word is held by at most one node, the one on whose edge it ends (`holds_unique`).
-/

/-- A radix tree: each live node has a path that extends the path of its parent. -/
structure Trie (ν α : Type*) where
  root : ν
  live : Finset ν
  parent : ν → ν
  path : ν → List α
  root_mem : root ∈ live
  path_root : path root = []
  parent_mem : ∀ n ∈ live, n ≠ root → parent n ∈ live
  path_extends : ∀ n ∈ live, n ≠ root → path (parent n) <+: path n
  path_lt : ∀ n ∈ live, n ≠ root → (path (parent n)).length < (path n).length
  child_unique : ∀ n ∈ live, ∀ m ∈ live, n ≠ root → m ≠ root → parent n = parent m →
    (path n)[(path (parent n)).length]? = (path m)[(path (parent m)).length]? → n = m

namespace Trie

open Finset Function List

variable {ν α : Type*} (T : Trie ν α) {n m : ν} {r : List α}

/-- The part of the path that a node adds. -/
def edge (n : ν) : List α := (T.path n).drop (T.path (T.parent n)).length

/-- The word `r` ends on the edge of `n`. -/
@[mk_iff]
structure Holds (n : ν) (r : List α) : Prop where
  mem : n ∈ T.live
  ne_root : n ≠ T.root
  parent_lt : (T.path (T.parent n)).length < r.length
  isPrefix : r <+: T.path n

/-- The node `m` is below `p`, by an edge that starts with `a`. -/
@[mk_iff]
structure IsChild (p : ν) (a : α) (m : ν) : Prop where
  mem : m ∈ T.live
  ne_root : m ≠ T.root
  parent_eq : T.parent m = p
  head?_edge : (T.edge m).head? = some a

section

variable (hn : n ∈ T.live) (h0 : n ≠ T.root)
include hn h0

theorem path_eq : T.path n = T.path (T.parent n) ++ T.edge n := by
  obtain ⟨rest, hrest⟩ := T.path_extends n hn h0
  rw [edge, ← hrest, drop_left]

theorem path_parent_prefix (k : ℕ) : T.path (T.parent n) ++ (T.edge n).take k <+: T.path n := by
  rw [T.path_eq hn h0]
  exact (prefix_append_right_inj _).mpr ( take_prefix _ _)

theorem edge_ne_nil : T.edge n ≠ [] := by
  have hlt := T.path_lt n hn h0
  rw [← length_pos_iff, edge, length_drop]
  omega

theorem getElem?_path : (T.path n)[(T.path (T.parent n)).length]? = (T.edge n).head? := by
  rw [T.path_eq hn h0, getElem?_append_right le_rfl, Nat.sub_self, head?_eq_getElem?]

theorem isChild_parent : ∃ a, T.IsChild (T.parent n) a n := by
  obtain ⟨a, ha⟩ := Option.ne_none_iff_exists'.mp
    fun hnone => T.edge_ne_nil hn h0 (head?_eq_none_iff.mp hnone)
  exact ⟨a, hn, h0, rfl, ha⟩

end

theorem isChild_unique {p : ν} {a : α} (hn : T.IsChild p a n) (hm : T.IsChild p a m) : n = m := by
  refine T.child_unique n hn.mem m hm.mem hn.ne_root hm.ne_root
    (hn.parent_eq.trans hm.parent_eq.symm) ?_
  rw [T.getElem?_path hn.mem hn.ne_root, T.getElem?_path hm.mem hm.ne_root, hn.head?_edge,
    hm.head?_edge]

theorem parent_ne (hn : n ∈ T.live) (h0 : n ≠ T.root) : T.parent n ≠ n := by
  intro heq
  have hlt := T.path_lt n hn h0
  rw [heq] at hlt
  exact lt_irrefl _ hlt

/-- The tree of a root alone. -/
def single (n : ν) : Trie ν α where
  root := n
  live := {n}
  parent := fun _ => n
  path := fun _ => []
  root_mem := Finset.mem_singleton_self n
  path_root := rfl
  parent_mem := fun _ _ _ => Finset.mem_singleton_self n
  path_extends := fun _ _ _ => prefix_refl _
  path_lt := fun _ hm h0 => absurd (Finset.mem_singleton.mp hm) h0
  child_unique := fun _ ha _ _ ha0 _ _ _ => absurd (Finset.mem_singleton.mp ha) ha0

theorem not_holds_single : ¬ (single n : Trie ν α).Holds m r :=
  fun h => h.ne_root (Finset.mem_singleton.mp h.mem)

/-! ## A new leaf -/

section Operations

variable [DecidableEq ν] {T}

theorem update_live {β : Type*} {S : Finset ν} (hn : n ∉ S) (hm : m ∈ S) (f : ν → β) (v : β) :
    update f n v m = f m :=
  update_of_ne (fun heq : m = n => hn (heq ▸ hm)) v f

/-- The node `n` below `p` with the edge `e`, which no child of `p` starts like. -/
def addLeaf (T : Trie ν α) (p n : ν) (e : List α) (hp : p ∈ T.live) (hn : n ∉ T.live)
    (he : e ≠ []) (hfree : ∀ m a, T.IsChild p a m → e.head? ≠ some a) : Trie ν α where
  root := T.root
  live := insert n T.live
  parent := update T.parent n p
  path := update T.path n (T.path p ++ e)
  root_mem := mem_insert_of_mem T.root_mem
  path_root := (update_live hn T.root_mem _ _).trans T.path_root
  parent_mem := by
    intro m hm h0
    rcases mem_insert.mp hm with rfl | hm'
    · rw [update_self]
      exact mem_insert_of_mem hp
    · rw [update_live hn hm']
      exact mem_insert_of_mem (T.parent_mem m hm' h0)
  path_extends := by
    intro m hm h0
    rcases mem_insert.mp hm with rfl | hm'
    · rw [update_self, update_self, update_live hn hp]
      exact prefix_append _ _
    · rw [update_live hn hm', update_live hn hm', update_live hn (T.parent_mem m hm' h0)]
      exact T.path_extends m hm' h0
  path_lt := by
    intro m hm h0
    rcases mem_insert.mp hm with rfl | hm'
    · rw [update_self, update_self, update_live hn hp, length_append]
      exact Nat.lt_add_of_pos_right (length_pos_iff.mpr he)
    · rw [update_live hn hm', update_live hn hm', update_live hn (T.parent_mem m hm' h0)]
      exact T.path_lt m hm' h0
  child_unique := by
    -- the new leaf starts like no other child of `p`
    have hnew : ∀ m ∈ T.live, m ≠ T.root → T.parent m = p →
        (T.path p ++ e)[(T.path p).length]? ≠ (T.path m)[(T.path (T.parent m)).length]? := by
      intro m hm h0 hpar heq
      rw [T.getElem?_path hm h0, getElem?_append_right le_rfl, Nat.sub_self,
        ← head?_eq_getElem?] at heq
      obtain ⟨a, ha⟩ := T.isChild_parent hm h0
      exact hfree m a (hpar ▸ ha) (heq.trans ha.head?_edge)
    intro a ha b hb ha0 hb0
    rcases mem_insert.mp ha with rfl | ha'
    · rcases mem_insert.mp hb with rfl | hb'
      · exact fun _ _ => rfl
      · rw [update_self, update_self, update_live hn hb', update_live hn hb',
          update_live hn hp, update_live hn (T.parent_mem b hb' hb0)]
        exact fun hpar heq => absurd heq (hnew b hb' hb0 hpar.symm)
    · rw [update_live hn ha', update_live hn ha', update_live hn (T.parent_mem a ha' ha0)]
      rcases mem_insert.mp hb with rfl | hb'
      · rw [update_self, update_self, update_live hn hp]
        exact fun hpar heq => absurd heq.symm (hnew a ha' ha0 hpar)
      · rw [update_live hn hb', update_live hn hb', update_live hn (T.parent_mem b hb' hb0)]
        exact T.child_unique a ha' b hb' ha0 hb0

section AddLeaf

variable {p : ν} {e : List α} {hp : p ∈ T.live} {hn : n ∉ T.live} {he : e ≠ []}
  {hfree : ∀ m a, T.IsChild p a m → e.head? ≠ some a}

theorem parent_addLeaf_of_mem (hm : m ∈ T.live) :
    (T.addLeaf p n e hp hn he hfree).parent m = T.parent m := update_live hn hm _ _

theorem path_addLeaf_of_mem (hm : m ∈ T.live) :
    (T.addLeaf p n e hp hn he hfree).path m = T.path m := update_live hn hm _ _

theorem parent_addLeaf_self : (T.addLeaf p n e hp hn he hfree).parent n = p :=
  update_self ..

theorem path_addLeaf_self : (T.addLeaf p n e hp hn he hfree).path n = T.path p ++ e :=
  update_self ..

theorem edge_addLeaf_self : (T.addLeaf p n e hp hn he hfree).edge n = e := by
  rw [edge, path_addLeaf_self, parent_addLeaf_self, path_addLeaf_of_mem hp, drop_left]

theorem edge_addLeaf_of_mem (hm : m ∈ T.live) (h0 : m ≠ T.root) :
    (T.addLeaf p n e hp hn he hfree).edge m = T.edge m := by
  rw [edge, path_addLeaf_of_mem hm, parent_addLeaf_of_mem hm,
    path_addLeaf_of_mem (T.parent_mem m hm h0), edge]

theorem isChild_addLeaf_self {q : ν} {a : α} :
    (T.addLeaf p n e hp hn he hfree).IsChild q a n ↔ p = q ∧ e.head? = some a := by
  rw [isChild_iff, parent_addLeaf_self, edge_addLeaf_self]
  exact ⟨fun h => h.2.2, fun h => ⟨mem_insert_self _ _, fun heq => hn (heq ▸ T.root_mem), h⟩⟩

theorem isChild_addLeaf_of_ne {q : ν} {a : α} (hmn : m ≠ n) :
    (T.addLeaf p n e hp hn he hfree).IsChild q a m ↔ T.IsChild q a m := by
  rw [isChild_iff, isChild_iff]
  show m ∈ insert n T.live ∧ _ ↔ _
  rw [mem_insert, or_iff_right hmn]
  refine and_congr_right fun hm => and_congr_right fun hm0 => ?_
  rw [parent_addLeaf_of_mem hm, edge_addLeaf_of_mem hm hm0]

theorem holds_addLeaf : (T.addLeaf p n e hp hn he hfree).Holds m r ↔
    T.Holds m r ∨ m = n ∧ (T.path p).length < r.length ∧ r <+: T.path p ++ e := by
  rw [holds_iff, holds_iff]
  by_cases hmn : m = n
  · subst hmn
    rw [parent_addLeaf_self, path_addLeaf_of_mem hp, path_addLeaf_self,
      or_iff_right fun h => hn h.1]
    exact ⟨fun h => ⟨rfl, h.2.2⟩,
      fun h => ⟨mem_insert_self _ _, fun heq => hn (heq ▸ T.root_mem), h.2⟩⟩
  · show m ∈ insert n T.live ∧ _ ↔ _
    rw [mem_insert, or_iff_right hmn, or_iff_left fun h => hmn h.1]
    refine and_congr_right fun hm => and_congr_right fun h0 => ?_
    rw [parent_addLeaf_of_mem hm, path_addLeaf_of_mem (T.parent_mem m hm h0),
      path_addLeaf_of_mem hm]

end AddLeaf

/-! ## A split edge -/

/-- The node `new` takes over the first `k` letters of the edge of `n`. -/
def split (T : Trie ν α) (n new : ν) (k : ℕ) (hn : n ∈ T.live) (h0 : n ≠ T.root)
    (hnew : new ∉ T.live) (hk0 : 0 < k) (hk : k < (T.edge n).length) : Trie ν α where
  root := T.root
  live := insert new T.live
  parent := update (update T.parent n new) new (T.parent n)
  path := update T.path new (T.path (T.parent n) ++ (T.edge n).take k)
  root_mem := mem_insert_of_mem T.root_mem
  path_root := (update_live hnew T.root_mem _ _).trans T.path_root
  parent_mem := by
    intro m hm hm0
    rcases mem_insert.mp hm with rfl | hm'
    · rw [update_self]
      exact mem_insert_of_mem (T.parent_mem n hn h0)
    · rw [update_live hnew hm', update_apply T.parent]
      split_ifs
      · exact mem_insert_self _ _
      · exact mem_insert_of_mem (T.parent_mem m hm' hm0)
  path_extends := by
    intro m hm hm0
    rcases mem_insert.mp hm with rfl | hm'
    · rw [update_self, update_self, update_live hnew (T.parent_mem n hn h0)]
      exact prefix_append _ _
    · rw [update_live hnew hm', update_live hnew hm', update_apply T.parent]
      split_ifs with hmn
      · subst hmn
        rw [update_self]
        exact T.path_parent_prefix hn h0 k
      · rw [update_live hnew (T.parent_mem m hm' hm0)]
        exact T.path_extends m hm' hm0
  path_lt := by
    intro m hm hm0
    rcases mem_insert.mp hm with rfl | hm'
    · rw [update_self, update_self, update_live hnew (T.parent_mem n hn h0),
        length_append, length_take]
      omega
    · rw [update_live hnew hm', update_live hnew hm', update_apply T.parent]
      split_ifs with hmn
      · subst hmn
        rw [update_self, T.path_eq hn h0, length_append, length_append, length_take]
        omega
      · rw [update_live hnew (T.parent_mem m hm' hm0)]
        exact T.path_lt m hm' hm0
  child_unique := by
    have hpn := T.parent_mem n hn h0
    have hfirst : (T.path (T.parent n) ++ (T.edge n).take k)[(T.path (T.parent n)).length]? =
        (T.path n)[(T.path (T.parent n)).length]? := by
      rw [T.getElem?_path hn h0, getElem?_append_right le_rfl, Nat.sub_self,
        ← head?_eq_getElem?, head?_take, if_neg hk0.ne']
    -- `n` alone is below `new`, which stands among its siblings as `n` did
    have hother : ∀ m ∈ T.live, m ≠ T.root → m ≠ n → T.parent m = T.parent n →
        (T.path m)[(T.path (T.parent m)).length]? ≠
          (T.path (T.parent n) ++ (T.edge n).take k)[(T.path (T.parent n)).length]? := by
      intro m hm hm0 hne hpar heq
      exact hne (T.child_unique m hm n hn hm0 h0 hpar (heq.trans hfirst))
    have hparent : ∀ m ∈ T.live, m ≠ T.root → T.parent m ≠ new :=
      fun m hm hm0 heq => hnew (heq ▸ T.parent_mem m hm hm0)
    intro a ha b hb ha0 hb0
    rcases mem_insert.mp ha with rfl | ha'
    · rcases mem_insert.mp hb with rfl | hb'
      · exact fun _ _ => rfl
      · rw [update_self, update_self, update_live hnew hb',
          update_live hnew hb', update_live hnew hpn, update_apply T.parent]
        split_ifs with hbn
        · exact fun hpar _ => absurd hpar (hparent n hn h0)
        · rw [update_live hnew (T.parent_mem b hb' hb0)]
          exact fun hpar heq => absurd heq.symm (hother b hb' hb0 hbn hpar.symm)
    · rw [update_live hnew ha', update_live hnew ha', update_apply T.parent]
      rcases mem_insert.mp hb with rfl | hb'
      · rw [update_self, update_self, update_live hnew hpn]
        split_ifs with han
        · exact fun hpar _ => absurd hpar.symm (hparent n hn h0)
        · rw [update_live hnew (T.parent_mem a ha' ha0)]
          exact fun hpar heq => absurd heq (hother a ha' ha0 han hpar)
      · rw [update_live hnew hb', update_live hnew hb', update_apply T.parent]
        split_ifs with han hbn hbn
        · exact fun _ _ => han.trans hbn.symm
        · exact fun hpar _ => absurd hpar.symm (hparent b hb' hb0)
        · exact fun hpar _ => absurd hpar (hparent a ha' ha0)
        · rw [update_live hnew (T.parent_mem a ha' ha0), update_live hnew (T.parent_mem b hb' hb0)]
          exact T.child_unique a ha' b hb' ha0 hb0

section Split

variable {new : ν} {k : ℕ} {hn : n ∈ T.live} {h0 : n ≠ T.root} {hnew : new ∉ T.live}
  {hk0 : 0 < k} {hk : k < (T.edge n).length}

theorem parent_split_new : (T.split n new k hn h0 hnew hk0 hk).parent new = T.parent n :=
  update_self ..

theorem path_split_new :
    (T.split n new k hn h0 hnew hk0 hk).path new = T.path (T.parent n) ++ (T.edge n).take k :=
  update_self ..

theorem parent_split_self : (T.split n new k hn h0 hnew hk0 hk).parent n = new :=
  (update_live hnew hn _ _).trans (update_self ..)

theorem parent_split_of_ne (hm : m ∈ T.live) (hmn : m ≠ n) :
    (T.split n new k hn h0 hnew hk0 hk).parent m = T.parent m :=
  (update_live hnew hm _ _).trans (update_of_ne hmn ..)

theorem path_split_of_mem (hm : m ∈ T.live) :
    (T.split n new k hn h0 hnew hk0 hk).path m = T.path m := update_live hnew hm _ _

theorem edge_split_new : (T.split n new k hn h0 hnew hk0 hk).edge new = (T.edge n).take k := by
  rw [edge, path_split_new, parent_split_new, path_split_of_mem (T.parent_mem n hn h0), drop_left]

theorem edge_split_self : (T.split n new k hn h0 hnew hk0 hk).edge n = (T.edge n).drop k := by
  rw [edge, path_split_of_mem hn, parent_split_self, path_split_new, length_append,
    ← drop_drop, length_take, min_eq_left hk.le]
  rfl

theorem edge_split_of_ne (hm : m ∈ T.live) (hm0 : m ≠ T.root) (hmn : m ≠ n) :
    (T.split n new k hn h0 hnew hk0 hk).edge m = T.edge m := by
  rw [edge, path_split_of_mem hm, parent_split_of_ne hm hmn,
    path_split_of_mem (T.parent_mem m hm hm0), edge]

theorem isChild_split_new {p : ν} {a : α} : (T.split n new k hn h0 hnew hk0 hk).IsChild p a new ↔
    T.parent n = p ∧ (T.edge n).head? = some a := by
  have hhead : ((T.edge n).take k).head? = (T.edge n).head? := by
    rw [head?_take, if_neg hk0.ne']
  rw [isChild_iff, parent_split_new, edge_split_new, hhead]
  exact ⟨fun h => h.2.2, fun h => ⟨mem_insert_self _ _, fun heq => hnew (heq ▸ T.root_mem), h⟩⟩

theorem isChild_split_self {p : ν} {a : α} : (T.split n new k hn h0 hnew hk0 hk).IsChild p a n ↔
    new = p ∧ ((T.edge n).drop k).head? = some a := by
  rw [isChild_iff, parent_split_self, edge_split_self]
  exact ⟨fun h => h.2.2, fun h => ⟨mem_insert_of_mem hn, h0, h⟩⟩

theorem isChild_split_of_ne {p : ν} {a : α} (hmnew : m ≠ new) (hmn : m ≠ n) :
    (T.split n new k hn h0 hnew hk0 hk).IsChild p a m ↔ T.IsChild p a m := by
  rw [isChild_iff, isChild_iff]
  show m ∈ insert new T.live ∧ _ ↔ _
  rw [mem_insert, or_iff_right hmnew]
  refine and_congr_right fun hm => and_congr_right fun hm0 => ?_
  rw [parent_split_of_ne hm hmn, edge_split_of_ne hm hm0 hmn]

theorem exists_holds_split :
    (∃ m, (T.split n new k hn h0 hnew hk0 hk).Holds m r) ↔ ∃ m, T.Holds m r := by
  constructor
  · rintro ⟨m, hm, hm0, hlt, hpre⟩
    rcases mem_insert.mp hm with rfl | hm'
    · rw [parent_split_new, path_split_of_mem (T.parent_mem n hn h0)] at hlt
      rw [path_split_new] at hpre
      exact ⟨n, hn, h0, hlt, hpre.trans (T.path_parent_prefix hn h0 k)⟩
    · rw [path_split_of_mem hm'] at hpre
      by_cases hmn : m = n
      · subst hmn
        rw [parent_split_self, path_split_new, length_append] at hlt
        exact ⟨m, hm', hm0, by omega, hpre⟩
      · rw [parent_split_of_ne hm' hmn, path_split_of_mem (T.parent_mem m hm' hm0)] at hlt
        exact ⟨m, hm', hm0, hlt, hpre⟩
  · rintro ⟨m, hm, hm0, hlt, hpre⟩
    by_cases hmn : m = n
    · subst hmn
      by_cases hlong : (T.path (T.parent m) ++ (T.edge m).take k).length < r.length
      · refine ⟨m, mem_insert_of_mem hm, hm0, ?_, ?_⟩
        · rw [parent_split_self, path_split_new]
          exact hlong
        · rw [path_split_of_mem hm]
          exact hpre
      · refine ⟨new, mem_insert_self _ _, fun heq => hnew (heq ▸ T.root_mem), ?_, ?_⟩
        · rw [parent_split_new, path_split_of_mem (T.parent_mem m hm hm0)]
          exact hlt
        · rw [path_split_new]
          exact prefix_of_prefix_length_le hpre (T.path_parent_prefix hm hm0 k)
            (Nat.le_of_not_lt hlong)
    · refine ⟨m, mem_insert_of_mem hm, hm0, ?_, ?_⟩
      · rw [parent_split_of_ne hm hmn, path_split_of_mem (T.parent_mem m hm hm0)]
        exact hlt
      · rw [path_split_of_mem hm]
        exact hpre

end Split

/-! ## A leaf less -/

/-- Removes a node that has no child. -/
def removeLeaf (T : Trie ν α) (x : ν) (h0 : x ≠ T.root) (hleaf : ∀ m a, ¬ T.IsChild x a m) :
    Trie ν α where
  root := T.root
  live := T.live.erase x
  parent := T.parent
  path := T.path
  root_mem := mem_erase.mpr ⟨h0.symm, T.root_mem⟩
  path_root := T.path_root
  parent_mem := by
    intro m hm hm0
    have hm' := mem_of_mem_erase hm
    obtain ⟨a, ha⟩ := T.isChild_parent hm' hm0
    exact mem_erase.mpr ⟨fun heq => hleaf m a (heq ▸ ha), T.parent_mem m hm' hm0⟩
  path_extends := fun m hm hm0 => T.path_extends m (mem_of_mem_erase hm) hm0
  path_lt := fun m hm hm0 => T.path_lt m (mem_of_mem_erase hm) hm0
  child_unique := fun a ha b hb =>
    T.child_unique a (mem_of_mem_erase ha) b (mem_of_mem_erase hb)

section RemoveLeaf

variable {x : ν} {h0 : x ≠ T.root} {hleaf : ∀ m a, ¬ T.IsChild x a m}

theorem isChild_removeLeaf {p : ν} {a : α} :
    (T.removeLeaf x h0 hleaf).IsChild p a m ↔ T.IsChild p a m ∧ m ≠ x := by
  rw [isChild_iff, isChild_iff]
  show m ∈ T.live.erase x ∧ _ ↔ _
  rw [mem_erase, and_assoc]
  exact and_comm

theorem holds_removeLeaf : (T.removeLeaf x h0 hleaf).Holds m r ↔ T.Holds m r ∧ m ≠ x := by
  rw [holds_iff, holds_iff]
  show m ∈ T.live.erase x ∧ _ ↔ _
  rw [mem_erase, and_assoc]
  exact and_comm

end RemoveLeaf

end Operations

end Trie
