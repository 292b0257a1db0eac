import Mathlib.Tactic

/-!
# Guarded labelled transition systems

A system is a set of initial states and a partial step function on labels. `Reach S G s`: the
state `s` is reached from an initial state by steps that each satisfy the guard `G` in the state
they are taken from; `Free` is the guard that allows every step. `Reach.invariant` is the induction
rule, `Reach.simulate` carries reachability along a simulation between two systems, and
`exists_reach` turns an executed list of labels into a reachable state.
-/

namespace Lts

variable {σ ι : Type*}

/-- Initial states and a partial step function; a step that fails has no successor. -/
structure System (σ ι : Type*) where
  init : σ → Prop
  step : σ → ι → Option σ

/-- Runs without a condition. -/
def Free : σ → ι → Prop := fun _ _ => True

instance (s : σ) (a : ι) : Decidable (Free s a) := inferInstanceAs (Decidable True)

/-- States reached by steps that each satisfy `G` where they are taken. -/
inductive Reach (S : System σ ι) (G : σ → ι → Prop) : σ → Prop
  | init {s : σ} : S.init s → Reach S G s
  | step {s t : σ} {a : ι} : Reach S G s → G s a → S.step s a = some t → Reach S G t

variable {S : System σ ι} {G G' : σ → ι → Prop}

/-- What holds initially and survives every guarded step holds in every reached state. -/
theorem Reach.invariant {P : σ → Prop} (h0 : ∀ s, S.init s → P s)
    (hs : ∀ s a t, P s → G s a → S.step s a = some t → P t) {s : σ} (h : Reach S G s) : P s := by
  induction h with
  | init h => exact h0 _ h
  | step _ hg ht ih => exact hs _ _ _ ih hg ht

theorem Reach.mono (hG : ∀ s a, G s a → G' s a) {s : σ} (h : Reach S G s) : Reach S G' s := by
  induction h with
  | init h => exact .init h
  | step _ hg ht ih => exact .step ih (hG _ _ hg) ht

theorem Reach.free {s : σ} (h : Reach S G s) : Reach S Free s := h.mono fun _ _ _ => trivial

/-- A simulation: if every guarded step of `S` from a related state is matched by no step or one
guarded step of `T`, then every state `S` reaches is related to one that `T` reaches. -/
theorem Reach.simulate {τ κ : Type*} {T : System τ κ} {H : τ → κ → Prop} {R : σ → τ → Prop}
    (h0 : ∀ s, S.init s → ∃ t, T.init t ∧ R s t)
    (hs : ∀ s a s' t, R s t → G s a → S.step s a = some s' →
      R s' t ∨ ∃ b t', H t b ∧ T.step t b = some t' ∧ R s' t')
    {s : σ} (h : Reach S G s) : ∃ t, Reach T H t ∧ R s t := by
  induction h with
  | init h =>
    obtain ⟨t, ht, hr⟩ := h0 _ h
    exact ⟨t, .init ht, hr⟩
  | step _ hg hstep ih =>
    obtain ⟨t, ht, hr⟩ := ih
    rcases hs _ _ _ _ hr hg hstep with hr' | ⟨b, t', hb, ht', hr'⟩
    · exact ⟨t, ht, hr'⟩
    · exact ⟨t', ht.step hb ht', hr'⟩

/-- The state after a list of labels, each checked against the guard where it is taken. -/
def System.guardedRun (S : System σ ι) (G : σ → ι → Prop) [∀ s a, Decidable (G s a)] (s : σ) :
    List ι → Option σ
  | [] => some s
  | a :: as => if G s a then (S.step s a).bind fun t => S.guardedRun G t as else none

theorem reach_guardedRun [∀ s a, Decidable (G s a)] {s t : σ} {as : List ι} (hs : Reach S G s)
    (h : S.guardedRun G s as = some t) : Reach S G t := by
  induction as generalizing s with
  | nil =>
    rw [System.guardedRun, Option.some.injEq] at h
    exact h ▸ hs
  | cons a as ih =>
    rw [System.guardedRun] at h
    split_ifs at h with hg
    obtain ⟨u, hu, h⟩ := Option.bind_eq_some_iff.mp h
    exact ih (hs.step hg hu) h

theorem length_le_of_potential [∀ s a, Decidable (G s a)] {f : σ → ℤ} {bound : ℤ}
    (hstep : ∀ s a t, Reach S G s → G s a → S.step s a = some t → f s < f t)
    (hbound : ∀ s, Reach S G s → f s ≤ bound) {s t : σ} {as : List ι} (hs : Reach S G s)
    (h : S.guardedRun G s as = some t) : f s + as.length ≤ bound := by
  induction as generalizing s with
  | nil => simpa using hbound s hs
  | cons a as ih =>
    rw [System.guardedRun] at h
    split_ifs at h with hg
    obtain ⟨u, hu, h⟩ := Option.bind_eq_some_iff.mp h
    have hrest := ih (hs.step hg hu) h
    have hraise := hstep s a u hs hg hu
    rw [List.length_cons]
    omega

/-- Allowed actions lead from a reachable state to a reachable one. -/
theorem exists_reach [∀ s a, Decidable (G s a)] {P : σ → Prop} {s : σ} (hs : Reach S G s)
    (as : List ι) (h : ∃ t ∈ S.guardedRun G s as, P t) : ∃ t, Reach S G t ∧ P t := by
  obtain ⟨t, ht, hp⟩ := h
  exact ⟨t, reach_guardedRun hs ht, hp⟩

end Lts
