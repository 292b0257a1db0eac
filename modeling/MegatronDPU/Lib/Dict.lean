import Mathlib.Tactic

/-!
# Insertion-ordered dictionaries

A Python `dict`: entries in the order in which their keys were first set, one for each key.
-/

/-- A dictionary with its entries in the order of insertion. -/
structure Dict (κ ν : Type*) where
  entries : List (κ × ν)
  nodup : (entries.map Prod.fst).Nodup

namespace Dict

open List

variable {κ ν : Type*} [DecidableEq κ] {d : Dict κ ν} {k k' : κ} {v v' : ν}

def empty : Dict κ ν := ⟨[], nodup_nil⟩

/-- `d.get(k)`. -/
def get? (d : Dict κ ν) (k : κ) : Option ν := d.entries.lookup k

/-- The entries after `d[k] = v`: a known key keeps its place. -/
def setEntries (k : κ) (v : ν) : List (κ × ν) → List (κ × ν)
  | [] => [(k, v)]
  | (k', v') :: l => if k' = k then (k, v) :: l else (k', v') :: setEntries k v l

theorem mem_keys_setEntries (l : List (κ × ν)) :
    k' ∈ (setEntries k v l).map Prod.fst ↔ k' = k ∨ k' ∈ l.map Prod.fst := by
  induction l with
  | nil => simp [setEntries]
  | cons e l ih =>
    obtain ⟨a, b⟩ := e
    unfold setEntries
    split_ifs with h
    · subst h
      simp
    · rw [map_cons, mem_cons, ih, map_cons, mem_cons]
      tauto

theorem nodup_setEntries {l : List (κ × ν)} (h : (l.map Prod.fst).Nodup) :
    ((setEntries k v l).map Prod.fst).Nodup := by
  induction l with
  | nil => exact nodup_singleton k
  | cons e l ih =>
    obtain ⟨a, b⟩ := e
    rw [map_cons, nodup_cons] at h
    unfold setEntries
    split_ifs with hk
    · subst hk
      exact nodup_cons.mpr h
    · refine nodup_cons.mpr ⟨fun hmem => ?_, ih h.2⟩
      exact ((mem_keys_setEntries l).mp hmem).elim hk h.1

/-- `d[k] = v`. -/
def set (d : Dict κ ν) (k : κ) (v : ν) : Dict κ ν :=
  ⟨setEntries k v d.entries, nodup_setEntries d.nodup⟩

theorem entries_set_of_notMem (h : k ∉ d.entries.map Prod.fst) :
    (d.set k v).entries = d.entries ++ [(k, v)] := by
  unfold set
  dsimp only
  revert h
  induction d.entries with
  | nil => exact fun _ => rfl
  | cons e l ih =>
    obtain ⟨a, b⟩ := e
    intro h
    rw [map_cons, mem_cons, not_or] at h
    rw [setEntries, if_neg (Ne.symm h.1), ih h.2, cons_append]

@[simp] theorem get?_empty : (empty : Dict κ ν).get? k = none := rfl

theorem lookup_cons_ite (a : κ) (b : ν) (l : List (κ × ν)) :
    ((a, b) :: l).lookup k = if k = a then some b else l.lookup k := by
  rw [lookup_cons]
  by_cases h : k = a
  · rw [if_pos h, beq_iff_eq.mpr h]
  · rw [if_neg h, beq_eq_false_iff_ne.mpr h]

theorem get?_set : (d.set k v).get? k' = if k' = k then some v else d.get? k' := by
  unfold get? set
  dsimp only
  induction d.entries with
  | nil => rw [setEntries, lookup_cons_ite]
  | cons e l ih =>
    obtain ⟨a, b⟩ := e
    unfold setEntries
    by_cases hk : a = k
    · subst hk
      rw [if_pos rfl, lookup_cons_ite, lookup_cons_ite]
      split_ifs <;> rfl
    · rw [if_neg hk, lookup_cons_ite, lookup_cons_ite, ih]
      by_cases h : k' = k
      · rw [if_pos h, if_pos h, if_neg (h ▸ Ne.symm hk)]
      · rw [if_neg h, if_neg h]

@[simp] theorem get?_set_self : (d.set k v).get? k = some v := by
  rw [get?_set, if_pos rfl]

theorem get?_set_of_ne (h : k' ≠ k) : (d.set k v).get? k' = d.get? k' := by
  rw [get?_set, if_neg h]

theorem mem_entries_iff : (k, v) ∈ d.entries ↔ d.get? k = some v := by
  obtain ⟨l, hl⟩ := d
  unfold get?
  induction l with
  | nil => simp
  | cons e l ih =>
    obtain ⟨a, b⟩ := e
    rw [map_cons, nodup_cons] at hl
    rw [mem_cons, lookup_cons_ite, Prod.mk.injEq, ih hl.2]
    split_ifs with h
    · subst h
      have hk : l.lookup k ≠ some v := fun hv =>
        hl.1 (mem_map.mpr ⟨_, (ih hl.2).mpr hv, rfl⟩)
      simp [hk, eq_comm]
    · simp [h]

/-- `del d[k]`, or nothing if there is no such key. -/
def erase (d : Dict κ ν) (k : κ) : Dict κ ν :=
  ⟨d.entries.filter fun e => e.1 ≠ k,
    d.nodup.sublist (filter_sublist.map Prod.fst)⟩

theorem get?_erase : (d.erase k).get? k' = if k' = k then none else d.get? k' := by
  unfold get? erase
  dsimp only
  induction d.entries with
  | nil => exact (ite_self none).symm
  | cons e l ih =>
    obtain ⟨a, b⟩ := e
    by_cases ha : a = k
    · rw [filter_cons_of_neg (by simpa using ha), ih, lookup_cons_ite]
      split_ifs with hk hk' <;> first | rfl | exact absurd (hk'.trans ha) hk
    · rw [filter_cons_of_pos (by simpa using ha), lookup_cons_ite, lookup_cons_ite, ih]
      split_ifs with hk hk' <;> first | rfl | exact absurd (hk.symm.trans hk') ha

theorem entries_eq_nil_iff : d.entries = [] ↔ ∀ k v, d.get? k ≠ some v := by
  rw [eq_nil_iff_forall_not_mem, Prod.forall]
  exact forall₂_congr fun k v => not_congr mem_entries_iff

theorem mem_keys_iff : k ∈ d.entries.map Prod.fst ↔ ∃ v, d.get? k = some v := by
  rw [mem_map]
  constructor
  · rintro ⟨⟨_, v⟩, hmem, rfl⟩
    exact ⟨v, mem_entries_iff.mp hmem⟩
  · rintro ⟨v, hv⟩
    exact ⟨(k, v), mem_entries_iff.mpr hv, rfl⟩

/-! ## Comprehensions -/

/-- A dict comprehension: of the entries with one key the last counts. -/
def ofList (l : List (κ × ν)) : Dict κ ν := l.foldl (fun d e => d.set e.1 e.2) empty

theorem ofList_concat (l : List (κ × ν)) (e : κ × ν) : ofList (l ++ [e]) = (ofList l).set e.1 e.2 :=
  foldl_concat ..

theorem get?_ofList_map {ν' : Type*} (f : ν → ν') (l : List (κ × ν)) :
    (ofList (l.map fun e => (e.1, f e.2))).get? k = ((ofList l).get? k).map f := by
  induction l using List.reverseRecOn with
  | nil => rfl
  | append_singleton l e ih =>
    rw [map_append, map_singleton, ofList_concat, ofList_concat, get?_set, get?_set, ih]
    split_ifs <;> rfl

theorem mem_of_get?_ofList {l : List (κ × ν)} (h : (ofList l).get? k = some v) : (k, v) ∈ l := by
  induction l using List.reverseRecOn with
  | nil => cases h
  | append_singleton l e ih =>
    rw [ofList_concat, get?_set] at h
    split_ifs at h with hk
    · obtain rfl := Option.some.inj h
      subst hk
      exact mem_append_right _ (mem_singleton_self _)
    · exact mem_append_left _ (ih h)

theorem exists_get?_ofList {l : List (κ × ν)} (h : (k, v) ∈ l) :
    ∃ v', (ofList l).get? k = some v' := by
  induction l using List.reverseRecOn with
  | nil => cases h
  | append_singleton l e ih =>
    rw [ofList_concat, get?_set]
    by_cases hk : k = e.1
    · exact ⟨e.2, if_pos hk⟩
    · rw [if_neg hk]
      rcases mem_append.mp h with h | h
      · exact ih h
      · exact absurd (congrArg Prod.fst (mem_singleton.mp h)) hk

end Dict
