import Mathlib.Tactic

/-!
# Binary heaps in an array

The heap operations of the C++ standard library on a list, for an arbitrary comparison `lt`:
`pushHeap` sifts the last element up, `popHeap` moves the root to the back by walking a hole
from the root to a leaf and sifting the displaced element up from there. Both permute their
elements; for a strict weak order both keep heaps heaps, and the root of a heap is a maximum.
-/

namespace BinHeap

open List Option

variable {α : Type*}

/-- A comparison that `std::push_heap` and `std::pop_heap` accept. -/
structure StrictWeak (lt : α → α → Bool) : Prop where
  asymm : ∀ a b, lt a b = true → lt b a = false
  negTrans : ∀ a b c, lt a b = false → lt b c = false → lt a c = false

def parent (i : ℕ) : ℕ := (i - 1) / 2

variable {i : ℕ} {l rest : List α} {v x : α}

theorem parent_lt (h : 0 < i) : parent i < i := by unfold parent; omega

theorem child_cases {p : ℕ} (h : 0 < i) (hp : parent i = p) : i = 2 * p + 1 ∨ i = 2 * p + 2 := by
  unfold parent at hp; omega

@[simp] theorem parent_left (p : ℕ) : parent (2 * p + 1) = p := by unfold parent; omega

@[simp] theorem parent_right (p : ℕ) : parent (2 * p + 2) = p := by unfold parent; omega

/-- `std::is_heap`: no parent is below one of its children. -/
def IsHeap (lt : α → α → Bool) (l : List α) : Prop :=
  ∀ i < l.length, 0 < i → ∀ p ∈ l[parent i]?, ∀ c ∈ l[i]?, lt p c = false

instance (lt : α → α → Bool) (l : List α) : Decidable (IsHeap lt l) := by
  unfold IsHeap; infer_instance

/-- `std::__push_heap`: the hole moves up while its parent is below `v`, then takes `v`. -/
def siftUp (lt : α → α → Bool) (v : α) : ℕ → ℕ → List α → List α
  | 0, hole, l => l.set hole v
  | fuel + 1, hole, l =>
    if 0 < hole then
      match l[parent hole]? with
      | some p => if lt p v then siftUp lt v fuel (parent hole) (l.set hole p) else l.set hole v
      | none => l.set hole v
    else l.set hole v

/-- The first loop of `std::__adjust_heap`: the hole moves down to the larger child until it is a
leaf. A right child exists while `hole < (len - 1) / 2`; a lone left child is the case of an even
`len` with `hole = (len - 2) / 2`. -/
def siftDown (lt : α → α → Bool) : ℕ → ℕ → List α → ℕ × List α
  | 0, hole, l => (hole, l)
  | fuel + 1, hole, l =>
    match l[2 * hole + 1]?, l[2 * hole + 2]? with
    | some a, some b =>
      if lt b a then siftDown lt fuel (2 * hole + 1) (l.set hole a)
      else siftDown lt fuel (2 * hole + 2) (l.set hole b)
    | some a, none => (2 * hole + 1, l.set hole a)
    | none, _ => (hole, l)

/-- `std::push_heap` after `push_back`: `v` is sifted up from the back. -/
def pushHeap (lt : α → α → Bool) (l : List α) (v : α) : List α :=
  siftUp lt v l.length l.length (l ++ [v])

/-- `std::pop_heap` followed by taking the back element: the root, and the heap without it. -/
def popHeap (lt : α → α → Bool) : List α → Option (α × List α)
  | [] => none
  | [x] => some (x, [])
  | x :: y :: l =>
    let v := (y :: l).getLast (cons_ne_nil y l)
    let rest := (x :: y :: l).dropLast
    let down := siftDown lt rest.length 0 rest
    some (x, siftUp lt v down.1 down.1 down.2)

/-! ## Permutations -/

theorem set_move_perm {j : ℕ} (hij : i ≠ j) (hi : i < l.length) (hx : l[j]? = some x) :
    ((l.set i x).set j v).Perm (l.set i v) := by
  obtain ⟨hj, rfl⟩ := List.getElem?_eq_some_iff.mp hx
  have h := @List.set_set_perm _ (l.set i v) i j (by simpa using hi) (by simpa using hj)
  simpa [getElem_set_ne hij, set_set] using h

theorem siftUp_perm (lt : α → α → Bool) (v : α) (fuel hole : ℕ) (l : List α)
    (hh : hole < l.length) : (siftUp lt v fuel hole l).Perm (l.set hole v) := by
  induction fuel generalizing hole l with
  | zero => exact .refl _
  | succ fuel ih =>
    rw [siftUp]
    split_ifs with h0
    · have hp := parent_lt h0
      split
      · rename_i p hpe
        split_ifs with hlt
        · refine (ih _ _ (by simpa using hp.trans hh)).trans ?_
          exact set_move_perm hp.ne' hh hpe
        · exact .refl _
      · exact .refl _
    · exact .refl _

theorem siftDown_spec (lt : α → α → Bool) (v : α) (fuel hole : ℕ) (l : List α)
    (hh : hole < l.length) :
    (siftDown lt fuel hole l).1 < (siftDown lt fuel hole l).2.length ∧
      ((siftDown lt fuel hole l).2.set (siftDown lt fuel hole l).1 v).Perm (l.set hole v) := by
  induction fuel generalizing hole l with
  | zero => exact ⟨hh, .refl _⟩
  | succ fuel ih =>
    have move : ∀ {c : ℕ} {x : α}, hole ≠ c → l[c]? = some x →
        (siftDown lt fuel c (l.set hole x)).1 < (siftDown lt fuel c (l.set hole x)).2.length ∧
          ((siftDown lt fuel c (l.set hole x)).2.set (siftDown lt fuel c (l.set hole x)).1 v).Perm
            (l.set hole v) := by
      intro c x hc hx
      have hcl : c < (l.set hole x).length := by
        simpa using (List.getElem?_eq_some_iff.mp hx).1
      exact ⟨(ih c _ hcl).1, (ih c _ hcl).2.trans (set_move_perm hc hh hx)⟩
    rw [siftDown]
    split
    · rename_i a b ha hb
      split_ifs with hlt
      · exact move (by omega) ha
      · exact move (by omega) hb
    · rename_i a ha hb
      refine ⟨by simpa using (List.getElem?_eq_some_iff.mp ha).1, ?_⟩
      exact set_move_perm (by omega) hh ha
    · exact ⟨hh, .refl _⟩

theorem pushHeap_perm (lt : α → α → Bool) (l : List α) (v : α) :
    (pushHeap lt l v).Perm (v :: l) := by
  have h := siftUp_perm lt v l.length l.length (l ++ [v]) (by simp)
  have hset : (l ++ [v]).set l.length v = l ++ [v] := by simp
  rw [hset] at h
  exact h.trans (perm_append_singleton v l)

theorem popHeap_perm {lt : α → α → Bool} (h : popHeap lt l = some (x, rest)) :
    l.Perm (x :: rest) := by
  match l with
  | [] => simp [popHeap] at h
  | [y] =>
    simp only [popHeap, Option.some.injEq, Prod.mk.injEq] at h
    obtain ⟨rfl, rfl⟩ := h
    exact .refl _
  | y :: z :: l =>
    simp only [popHeap, Option.some.injEq, Prod.mk.injEq] at h
    obtain ⟨rfl, rfl⟩ := h
    set v := (z :: l).getLast (cons_ne_nil z l) with hv
    obtain ⟨hlt, hp⟩ := siftDown_spec lt v (y :: z :: l).dropLast.length 0 (y :: z :: l).dropLast
      (by simp)
    have hrest : ((y :: z :: l).dropLast.set 0 v).Perm (z :: l) := by
      have hl : (z :: l).dropLast ++ [v] = z :: l := dropLast_append_getLast _
      rw [dropLast_cons_cons, set_cons_zero]
      exact (perm_append_singleton v _).symm.trans (.of_eq hl)
    exact ((siftUp_perm lt v _ _ _ hlt).trans (hp.trans hrest)).symm.cons y

/-! ## Order -/

section Order

variable {lt : α → α → Bool}

theorem StrictWeak.irrefl (hw : StrictWeak lt) (a : α) : lt a a = false := by
  by_contra h
  rw [Bool.not_eq_false] at h
  exact Bool.noConfusion (h.symm.trans (hw.asymm a a h))

variable {r : α} {hole : ℕ}

theorem IsHeap.root_max (hw : StrictWeak lt) (h : IsHeap lt l) (hr : l[0]? = some r) (hx : x ∈ l) :
    lt r x = false := by
  obtain ⟨i, hi⟩ := mem_iff_getElem?.mp hx
  induction i using Nat.strong_induction_on generalizing x with
  | h i ih =>
    have hil := (List.getElem?_eq_some_iff.mp hi).1
    rcases Nat.eq_zero_or_pos i with rfl | h0
    · rw [some.inj (hr.symm.trans hi)]
      exact hw.irrefl x
    · -- the parent is below the root by induction, and not below its child
      have hp : parent i < l.length := (parent_lt h0).trans hil
      have hpe : l[parent i]? = some l[parent i] := getElem?_eq_getElem hp
      exact hw.negTrans _ _ _ (ih _ (parent_lt h0) (getElem_mem hp) hpe)
        (h i hil h0 _ hpe _ hi)

/-- Every pair of parent and child that does not touch the hole is in order, and the children of
the hole are not above its parent. -/
structure HoleOrder (lt : α → α → Bool) (l : List α) (hole : ℕ) : Prop where
  off : ∀ i p c, 0 < i → i ≠ hole → parent i ≠ hole → l[parent i]? = some p → l[i]? = some c →
    lt p c = false
  across : ∀ i p c, 0 < hole → 0 < i → parent i = hole → l[parent hole]? = some p →
    l[i]? = some c → lt p c = false

theorem IsHeap.holeOrder (h : IsHeap lt l) : HoleOrder lt l 0 where
  off i p c h0 _ _ hp hc := h i (List.getElem?_eq_some_iff.mp hc).1 h0 p hp c hc
  across _ _ _ h0 _ _ _ _ := absurd h0 (lt_irrefl 0)

/-- Filling the hole with a value that is in order with its neighbours gives a heap. -/
theorem HoleOrder.fill (h : HoleOrder lt l hole)
    (hup : 0 < hole → ∀ p, l[parent hole]? = some p → lt p v = false)
    (hdown : ∀ i c, 0 < i → parent i = hole → l[i]? = some c → lt v c = false) :
    IsHeap lt (l.set hole v) := by
  intro i hi h0 p hp c hc
  have hp' := parent_lt h0
  rw [mem_def, getElem?_set] at hp hc
  by_cases hih : hole = i
  · subst hih
    rw [if_neg hp'.ne'] at hp
    rw [if_pos rfl] at hc
    split_ifs at hc with hlt
    exact some.inj hc ▸ hup h0 p hp
  · rw [if_neg hih] at hc
    by_cases hpi : hole = parent i
    · rw [if_pos hpi] at hp
      split_ifs at hp with hlt
      exact some.inj hp ▸ hdown i c h0 hpi.symm hc
    · rw [if_neg hpi] at hp
      exact h.off i p c h0 (Ne.symm hih) (Ne.symm hpi) hp hc

theorem isHeap_siftUp (hw : StrictWeak lt) {fuel : ℕ} (hf : hole ≤ fuel) (h : HoleOrder lt l hole)
    (hh : hole < l.length)
    (hdown : ∀ i c, 0 < i → parent i = hole → l[i]? = some c → lt v c = false) :
    IsHeap lt (siftUp lt v fuel hole l) := by
  induction fuel generalizing hole l with
  | zero => exact h.fill (fun h0 => by omega) hdown
  | succ fuel ih =>
    rw [siftUp]
    split_ifs with h0
    · have hp := parent_lt h0
      split
      · rename_i p hpe
        split_ifs with hlt
        · -- the parent moves down into the hole, which moves up to its place
          have hpp : 0 < parent hole → ∀ g, l[parent (parent hole)]? = some g → lt g p = false := by
            intro hp0 g hg
            have hgp := parent_lt hp0
            exact h.off (parent hole) g p hp0 hp.ne (by omega) hg hpe
          have hpc : ∀ i c, 0 < i → parent i = parent hole → (l.set hole p)[i]? = some c →
              lt p c = false := by
            intro i c hi0 hi hc
            rw [getElem?_set] at hc
            split_ifs at hc with hih
            · exact some.inj hc ▸ hw.irrefl p
            · exact h.off i p c hi0 (Ne.symm hih) (by rw [hi]; omega) (hi ▸ hpe) hc
          refine ih (by omega) ⟨?_, ?_⟩ (by simpa using hp.trans hh) ?_
          · intro i q c hi0 hih hpi hq hc
            rw [getElem?_set] at hq hc
            by_cases hi : hole = i
            · exact absurd (congrArg parent hi).symm hpi
            · rw [if_neg hi] at hc
              by_cases hpi' : hole = parent i
              · rw [if_pos hpi', if_pos hh] at hq
                exact some.inj hq ▸ h.across i p c h0 hi0 hpi'.symm hpe hc
              · rw [if_neg hpi'] at hq
                exact h.off i q c hi0 (Ne.symm hi) (Ne.symm hpi') hq hc
          · intro i g c hp0 hi0 hi hg hc
            have hgp := parent_lt hp0
            rw [getElem?_set, if_neg (by omega)] at hg
            exact hw.negTrans _ _ _ (hpp hp0 g hg) (hpc i c hi0 hi hc)
          · intro i c hi0 hi hc
            exact hw.negTrans _ _ _ (hw.asymm _ _ hlt) (hpc i c hi0 hi hc)
        · exact h.fill (fun _ q hq => by
            rw [some.inj (hq.symm.trans hpe)]; simpa using hlt) hdown
      · rename_i hpe
        exact h.fill (fun _ q hq => by rw [hpe] at hq; cases hq) hdown
    · exact h.fill (fun hpos => absurd hpos h0) hdown

theorem HoleOrder.moveDown {c : ℕ} (h : HoleOrder lt l hole) (hh : hole < l.length) (hc0 : 0 < c)
    (hc : parent c = hole) (hx : l[c]? = some x)
    (hsib : ∀ i y, 0 < i → i ≠ c → parent i = hole → l[i]? = some y → lt x y = false) :
    HoleOrder lt (l.set hole x) c := by
  have hlt : hole < c := hc ▸ parent_lt hc0
  refine ⟨?_, ?_⟩
  · intro i p y hi0 hic hpi hp hy
    rw [getElem?_set] at hp hy
    by_cases hi : hole = i
    · subst hi
      rw [if_pos rfl, if_pos hh] at hy
      have := parent_lt hi0
      rw [if_neg (by omega)] at hp
      exact some.inj hy ▸ h.across c p x hi0 hc0 hc hp hx
    · rw [if_neg hi] at hy
      by_cases hpi' : hole = parent i
      · rw [if_pos hpi', if_pos hh] at hp
        exact some.inj hp ▸ hsib i y hi0 hic hpi'.symm hy
      · rw [if_neg hpi'] at hp
        exact h.off i p y hi0 (Ne.symm hi) (Ne.symm hpi') hp hy
  · intro i p y _ hi0 hi hp hy
    rw [hc, getElem?_set, if_pos rfl, if_pos hh] at hp
    have hne : hole ≠ i := by have := parent_lt hi0; omega
    rw [getElem?_set, if_neg hne] at hy
    exact some.inj hp ▸ h.off i x y hi0 hne.symm (by omega) (hi ▸ hx) hy

theorem holeOrder_siftDown (hw : StrictWeak lt) {fuel : ℕ} (hf : l.length ≤ fuel + hole)
    (h : HoleOrder lt l hole) (hh : hole < l.length) :
    HoleOrder lt (siftDown lt fuel hole l).2 (siftDown lt fuel hole l).1 ∧
      ∀ i, 0 < i → parent i = (siftDown lt fuel hole l).1 →
        (siftDown lt fuel hole l).2[i]? = none := by
  induction fuel generalizing hole l with
  | zero => omega
  | succ fuel ih =>
    rw [siftDown]
    split
    · rename_i a b ha hb
      have hal := (List.getElem?_eq_some_iff.mp ha).1
      have hbl := (List.getElem?_eq_some_iff.mp hb).1
      split_ifs with hlt
      · refine ih (by simp; omega) (h.moveDown hh (by omega) (by simp) ha ?_) (by simpa using hal)
        intro i y hi0 hi hp hy
        obtain rfl : i = 2 * hole + 2 := by have := child_cases hi0 hp; omega
        rw [some.inj (hy.symm.trans hb)]
        exact hw.asymm _ _ hlt
      · refine ih (by simp; omega) (h.moveDown hh (by omega) (by simp) hb ?_) (by simpa using hbl)
        intro i y hi0 hi hp hy
        obtain rfl : i = 2 * hole + 1 := by have := child_cases hi0 hp; omega
        rw [some.inj (hy.symm.trans ha)]
        simpa using hlt
    · rename_i a ha hb
      have hbl := List.getElem?_eq_none_iff.mp hb
      refine ⟨h.moveDown hh (by omega) (by simp) ha ?_, ?_⟩
      · intro i y hi0 hi hp hy
        obtain rfl : i = 2 * hole + 2 := by have := child_cases hi0 hp; omega
        rw [hb] at hy
        cases hy
      · intro i hi0 hp
        have := child_cases hi0 hp
        simp only [List.getElem?_eq_none_iff, length_set]
        omega
    · rename_i ha
      have hal := List.getElem?_eq_none_iff.mp ha
      refine ⟨h, fun i hi0 hp => List.getElem?_eq_none_iff.mpr ?_⟩
      have := child_cases hi0 hp
      show l.length ≤ i
      omega

theorem IsHeap.dropLast (h : IsHeap lt l) : IsHeap lt l.dropLast := by
  intro i hi h0 p hp c hc
  have hpi := parent_lt h0
  rw [length_dropLast] at hi
  rw [mem_def, getElem?_dropLast, if_pos (by omega)] at hp hc
  exact h i (by omega) h0 p hp c hc

theorem isHeap_pushHeap (hw : StrictWeak lt) (h : IsHeap lt l) (v : α) :
    IsHeap lt (pushHeap lt l v) := by
  have hchild : ∀ i c, 0 < i → parent i = l.length → (l ++ [v])[i]? = some c → False := by
    intro i c h0 hp hc
    have := (List.getElem?_eq_some_iff.mp hc).1
    have := parent_lt h0
    simp only [length_append, length_singleton] at *
    omega
  refine isHeap_siftUp hw le_rfl ⟨?_, ?_⟩ (by simp) fun i c h0 hp hc => (hchild i c h0 hp hc).elim
  · intro i p c h0 hi hpi hp hc
    have hil := (List.getElem?_eq_some_iff.mp hc).1
    have := parent_lt h0
    simp only [length_append, length_singleton] at hil
    rw [getElem?_append_left (by omega)] at hp hc
    exact h i (by omega) h0 p hp c hc
  · exact fun i p c _ h0 hp _ hc => (hchild i c h0 hp hc).elim

theorem isHeap_popHeap (hw : StrictWeak lt) (h : IsHeap lt l) (hp : popHeap lt l = some (r, rest)) :
    IsHeap lt rest := by
  match l, hp with
  | [x], hp =>
    cases hp
    exact fun i hi => absurd hi (Nat.not_lt_zero i)
  | x :: y :: l, hp =>
    simp only [popHeap, Option.some.injEq, Prod.mk.injEq] at hp
    obtain ⟨-, rfl⟩ := hp
    set heap := (x :: y :: l).dropLast
    have hpos : 0 < heap.length := by simp [heap]
    have hf : heap.length ≤ heap.length + 0 := le_rfl
    obtain ⟨hord, hleaf⟩ := holeOrder_siftDown hw hf h.dropLast.holeOrder hpos
    refine isHeap_siftUp hw le_rfl hord (siftDown_spec lt x _ _ _ hpos).1 ?_
    intro i c h0 hi hc
    rw [hleaf i h0 hi] at hc
    cases hc

theorem popHeap_root (hp : popHeap lt l = some (r, rest)) : l[0]? = some r := by
  match l, hp with
  | [x], hp => cases hp; rfl
  | x :: y :: l, hp =>
    simp only [popHeap, Option.some.injEq, Prod.mk.injEq] at hp
    simp [hp.1]

end Order

end BinHeap
