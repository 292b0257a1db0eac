import MegatronDPU.Lib.Decimal

/-!
# Names with separators

Parts of a name are joined by a separator. A part that does not contain the separator can be read
back, from the front (`append_sep_inj`) or from the end (`append_sep_inj_right`), whatever the other
parts are; numbers that are joined by a letter can be read back too (`join_inj`).
-/

namespace Separator

open List

theorem append_cons_inj {α : Type*} {a : α} {u v s t : List α} (hu : a ∉ u) (hv : a ∉ v) :
    u ++ a :: s = v ++ a :: t ↔ u = v ∧ s = t := by
  refine ⟨fun h => ?_, by rintro ⟨rfl, rfl⟩; rfl⟩
  induction u generalizing v with
  | nil =>
    cases v with
    | nil => exact ⟨rfl, (List.cons.inj h).2⟩
    | cons b v => exact absurd (List.cons.inj h).1 (ne_of_not_mem_cons hv)
  | cons b u ih =>
    cases v with
    | nil => exact absurd (List.cons.inj h).1.symm (ne_of_not_mem_cons hu)
    | cons d v =>
      obtain ⟨rfl, htail⟩ := List.cons.inj h
      obtain ⟨rfl, hst⟩ :=
        ih (not_mem_of_not_mem_cons hu) (not_mem_of_not_mem_cons hv) htail
      exact ⟨rfl, hst⟩

section Strings

variable {c : Char} {sep u v s t : String} (hsep : sep.toList = [c])

include hsep

theorem append_sep_inj (hu : c ∉ u.toList) (hv : c ∉ v.toList) :
    u ++ (sep ++ s) = v ++ (sep ++ t) ↔ u = v ∧ s = t := by
  rw [← String.toList_inj, ← String.toList_inj, ← String.toList_inj]
  simp only [String.toList_append, hsep, singleton_append]
  exact append_cons_inj hu hv

theorem append_sep_inj_right (hs : c ∉ s.toList) (ht : c ∉ t.toList) :
    u ++ (sep ++ s) = v ++ (sep ++ t) ↔ u = v ∧ s = t := by
  rw [← String.toList_inj, ← String.toList_inj, ← String.toList_inj]
  simp only [String.toList_append, hsep, singleton_append]
  rw [← reverse_inj, reverse_append, reverse_append, reverse_cons,
    reverse_cons, append_assoc, append_assoc, singleton_append,
    singleton_append, append_cons_inj (by simpa using hs) (by simpa using ht),
    reverse_inj, reverse_inj, and_comm]

end Strings

def joinTail (sep : String) : List ℕ → String
  | [] => ""
  | n :: l => sep ++ (toString n ++ joinTail sep l)

/-- `sep.join(str(n) for n in l)`. -/
def join (sep : String) : List ℕ → String
  | [] => ""
  | n :: l => toString n ++ joinTail sep l

theorem isDigit_of_mem_toString {c : Char} {n : ℕ} (h : c ∈ (toString n).toList) :
    c.isDigit = true := by
  have htoList : (toString n).toList = Nat.toDigits 10 n := by simp
  rw [htoList] at h
  exact Nat.isDigit_of_mem_toDigits (by decide) (by decide) h

theorem mem_joinTail {sep : String} {c : Char} {l : List ℕ} (h : c ∈ (joinTail sep l).toList) :
    c.isDigit = true ∨ c ∈ sep.toList := by
  induction l with
  | nil => simp [joinTail] at h
  | cons n l ih =>
    rw [joinTail, String.toList_append, String.toList_append, mem_append, mem_append] at h
    rcases h with h | h | h
    · exact .inr h
    · exact .inl (isDigit_of_mem_toString h)
    · exact ih h

theorem mem_join {sep : String} {c : Char} {l : List ℕ} (h : c ∈ (join sep l).toList) :
    c.isDigit = true ∨ c ∈ sep.toList := by
  cases l with
  | nil => simp [join] at h
  | cons n l =>
    rw [join, String.toList_append, mem_append] at h
    exact h.elim (fun h => .inl (isDigit_of_mem_toString h)) mem_joinTail

theorem append_ne_empty {s : String} (h : s ≠ "") (t : String) : s ++ t ≠ "" := by
  intro heq
  rw [← String.toList_inj, String.toList_append] at heq
  exact h (String.toList_inj.mp (append_eq_nil_iff.mp heq).1)

theorem toString_ne_empty (n : ℕ) : toString n ≠ "" := by
  intro h
  have hlist := congrArg String.toList h
  simp at hlist

section Join

variable {sep : String} (hsep : Decimal.Ends sep) (hne : sep ≠ "") {l l' : List ℕ}

include hsep hne

theorem ends_joinTail (l : List ℕ) : Decimal.Ends (joinTail sep l) := by
  cases l with
  | nil =>
    show Decimal.Ends ""
    decide
  | cons n l => exact hsep.append hne _

theorem joinTail_inj (h : joinTail sep l = joinTail sep l') : l = l' := by
  induction l generalizing l' with
  | nil =>
    cases l' with
    | nil => rfl
    | cons m l' => exact absurd h.symm (append_ne_empty hne _)
  | cons n l ih =>
    cases l' with
    | nil => exact absurd h (append_ne_empty hne _)
    | cons m l' =>
      rw [joinTail, joinTail, String.append_right_inj, Decimal.toString_append_inj
        (ends_joinTail hsep hne l) (ends_joinTail hsep hne l')] at h
      rw [h.1, ih h.2]

theorem join_inj : join sep l = join sep l' ↔ l = l' := by
  refine ⟨fun h => ?_, fun h => h ▸ rfl⟩
  cases l with
  | nil =>
    cases l' with
    | nil => rfl
    | cons m l' => exact absurd h.symm (append_ne_empty (toString_ne_empty m) _)
  | cons n l =>
    cases l' with
    | nil => exact absurd h (append_ne_empty (toString_ne_empty n) _)
    | cons m l' =>
      rw [join, join, Decimal.toString_append_inj (ends_joinTail hsep hne l)
        (ends_joinTail hsep hne l')] at h
      rw [h.1, joinTail_inj hsep hne h.2]

end Join

end Separator
