import Mathlib.Tactic

/-!
# Items that pass a list of stages

Items enter at the first stage of a list, are taken up at each stage and then passed on to the
next, and leave after the last one. `added (some q)` counts the items that have come to the stage
`q`, `taken q` those that were taken up there, and `added none` those that have left.

No stage is ahead of an earlier one (`Flow.added_le_taken`, `Flow.left_le_taken`).
-/

namespace Stages

open List

variable {ι : Type*} [DecidableEq ι]

/-- The stage after `q`, if there is one. -/
def next : List ι → ι → Option ι
  | [], _ => none
  | a :: l, q => if a = q then l.head? else next l q

theorem next_of_suffix {l l' : List ι} {q : ι} (hl : l.Nodup) (h : q :: l' <:+ l) :
    next l q = l'.head? := by
  induction l with
  | nil => exact absurd (eq_nil_of_suffix_nil h) (cons_ne_nil _ _)
  | cons a l ih =>
    obtain ⟨hnot, hl⟩ := nodup_cons.mp hl
    rcases suffix_cons_iff.mp h with heq | hsuffix
    · obtain ⟨rfl, rfl⟩ := List.cons.inj heq
      exact if_pos rfl
    · have hne : a ≠ q := by
        rintro rfl
        exact hnot (hsuffix.subset mem_cons_self)
      exact (if_neg hne).trans (ih hl hsuffix)

theorem next_ne_head {l : List ι} {q : ι} (hl : l.Nodup) (hq : q ∈ l) : next l q ≠ l.head? := by
  obtain ⟨pre, post, rfl⟩ := append_of_mem hq
  rw [next_of_suffix hl ⟨pre, rfl⟩]
  intro hhead
  cases pre with
  | nil =>
    have hmem : q ∈ post := mem_of_mem_head? hhead
    exact (nodup_cons.mp hl).1 hmem
  | cons a pre =>
    have hmem : a ∈ post := mem_of_mem_head? hhead
    exact (nodup_cons.mp hl).1 (mem_append_right _ (mem_cons_of_mem _ hmem))

theorem next_inj {l : List ι} {q q' : ι} (hl : l.Nodup) (hq : q ∈ l) (hq' : q' ∈ l)
    (h : next l q = next l q') : q = q' := by
  induction l with
  | nil => cases hq
  | cons a l ih =>
    obtain ⟨-, hl'⟩ := nodup_cons.mp hl
    rw [next, next] at h
    rcases mem_cons.mp hq with rfl | hmem <;> rcases mem_cons.mp hq' with rfl | hmem'
    · rfl
    · by_contra hne
      rw [if_pos rfl, if_neg hne] at h
      exact next_ne_head hl' hmem' h.symm
    · by_contra hne
      rw [if_neg (Ne.symm hne), if_pos rfl] at h
      exact next_ne_head hl' hmem h
    · split_ifs at h with ha ha'
      · exact ha.symm.trans ha'
      · exact absurd h.symm (next_ne_head hl' hmem')
      · exact absurd h (next_ne_head hl' hmem)
      · exact ih hl' hmem hmem' h

/-- A stage takes no more than was added to it, and passes on no more than it has taken. -/
structure Flow (l : List ι) (added : Option ι → ℕ) (taken : ι → ℕ) : Prop where
  taken_le : ∀ q ∈ l, taken q ≤ added (some q)
  next_le : ∀ q ∈ l, added (next l q) ≤ taken q

namespace Flow

variable {l : List ι} {added : Option ι → ℕ} {taken : ι → ℕ} {a q q' : ι}

theorem tail (h : Flow (a :: l) added taken) (hl : (a :: l).Nodup) : Flow l added taken where
  taken_le q hq := h.taken_le q (mem_cons_of_mem _ hq)
  next_le q hq := by
    have hne : a ≠ q := by
      rintro rfl
      exact (nodup_cons.mp hl).1 hq
    have hnext := h.next_le q (mem_cons_of_mem _ hq)
    rw [next, if_neg hne] at hnext
    exact hnext

theorem head_le (h : Flow (a :: l) added taken) : added l.head? ≤ taken a := by
  have hnext := h.next_le a mem_cons_self
  rwa [next, if_pos rfl] at hnext

section

variable (h : Flow l added taken) (hl : l.Nodup)
include h hl

theorem added_le_head (hq : q ∈ l) : added (some q) ≤ added l.head? := by
  induction l with
  | nil => cases hq
  | cons a l ih =>
    rcases mem_cons.mp hq with rfl | hq
    · exact le_rfl
    · calc added (some q) ≤ added l.head? := ih (h.tail hl) (nodup_cons.mp hl).2 hq
        _ ≤ taken a := h.head_le
        _ ≤ added (some a) := h.taken_le a mem_cons_self

theorem left_le_head : added none ≤ added l.head? := by
  induction l with
  | nil => exact le_rfl
  | cons a l ih =>
    calc added none ≤ added l.head? := ih (h.tail hl) (nodup_cons.mp hl).2
      _ ≤ taken a := h.head_le
      _ ≤ added (some a) := h.taken_le a mem_cons_self

theorem added_le_taken (hq : [q, q'].Sublist l) : added (some q') ≤ taken q := by
  induction l with
  | nil => cases hq
  | cons a l ih =>
    cases hq with
    | cons _ hq => exact ih (h.tail hl) (nodup_cons.mp hl).2 hq
    | cons_cons _ hq =>
      have hmem : q' ∈ l := singleton_sublist.mp hq
      exact ((h.tail hl).added_le_head (nodup_cons.mp hl).2 hmem).trans h.head_le

theorem left_le_taken (hq : q ∈ l) : added none ≤ taken q := by
  induction l with
  | nil => cases hq
  | cons a l ih =>
    rcases mem_cons.mp hq with rfl | hq
    · exact ((h.tail hl).left_le_head (nodup_cons.mp hl).2).trans h.head_le
    · exact ih (h.tail hl) (nodup_cons.mp hl).2 hq

end

end Flow

end Stages
