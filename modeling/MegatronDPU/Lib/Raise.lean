import Mathlib.Tactic

/-!
# Code that raises

Python code is modelled in `Except PyError`: an exception ends the computation. A successful
computation is taken apart with `bind_eq_ok` and `require_bind_eq_ok`, a loop that must not raise
is followed with `foldlM_of_step`.
-/

/-- The exceptions that the modelled code raises. -/
inductive PyError
  | assertionError (msg : String := "")
  | valueError (msg : String)
  | runtimeError (msg : String)
  | keyError (key : String)
  | indexError
  | unboundLocalError (name : String)
  | typeError (msg : String)
  | attributeError (msg : String)
  | zeroDivisionError
  deriving DecidableEq, Repr

namespace Raise

open List

variable {ε α β σ : Type}

/-- `assert p`, or `if not p: raise e`. -/
def require (p : Prop) [Decidable p] (e : ε) : Except ε Unit :=
  if p then .ok () else .error e

variable {b : β} {f : α → Except ε β} {l : List α} {r : List β}

/-- A sequence returns iff both its parts do. -/
theorem bind_eq_ok {x : Except ε α} : (x >>= f) = .ok b ↔ ∃ a, x = .ok a ∧ f a = .ok b := by
  cases x with
  | error e => exact ⟨nofun, nofun⟩
  | ok a => exact ⟨fun h => ⟨a, rfl, h⟩, by rintro ⟨_, ⟨⟩, h⟩; exact h⟩

/-- A checked continuation returns iff the check passes and it does. -/
theorem require_bind_eq_ok {p : Prop} [Decidable p] {e : ε} {f : Unit → Except ε β} :
    (require p e >>= f) = .ok b ↔ p ∧ f () = .ok b := by
  unfold require
  split_ifs with h
  · exact ⟨fun hb => ⟨h, hb⟩, And.right⟩
  · exact ⟨nofun, fun hb => absurd hb.1 h⟩

theorem require_eq_ok {p : Prop} [Decidable p] {e : ε} : require p e = .ok () ↔ p := by
  unfold require
  split_ifs with h <;> simp [h]

theorem require_bind {p : Prop} [Decidable p] (h : p) {e : ε} {f : Unit → Except ε β} :
    (require p e >>= f) = f () := by
  unfold require
  rw [if_pos h]
  rfl

theorem eq_ok_of_toOption {x : Except ε α} {a : α} (h : x.toOption = some a) : x = .ok a := by
  cases x with
  | error e => cases h
  | ok b => exact congrArg Except.ok (Option.some.inj h)

instance decidableOk {P : α → Prop} [DecidablePred P] :
    (x : Except ε α) → Decidable (∃ a, x = .ok a ∧ P a)
  | .error _ => isFalse nofun
  | .ok a => decidable_of_iff (P a) ⟨fun h => ⟨a, rfl, h⟩, fun ⟨_, h, ha⟩ => Except.ok.inj h ▸ ha⟩

/-- A loop whose steps succeed under an invariant of the part of the list it has seen. -/
theorem foldlM_of_step {step : σ → α → Except ε σ} (P : List α → σ → Prop) {s₀ : σ} (hnil : P [] s₀)
    (hstep : ∀ seen a rest s, l = seen ++ a :: rest → P seen s →
      ∃ s', step s a = .ok s' ∧ P (seen ++ [a]) s') :
    ∃ s, l.foldlM step s₀ = .ok s ∧ P l s := by
  suffices h : ∀ rest seen s, l = seen ++ rest → P seen s →
      ∃ s', rest.foldlM step s = .ok s' ∧ P l s' from h l [] s₀ rfl hnil
  intro rest
  induction rest with
  | nil =>
    intro seen s hl hs
    rw [append_nil] at hl
    exact ⟨s, rfl, hl ▸ hs⟩
  | cons a rest ih =>
    intro seen s hl hs
    obtain ⟨s₁, h₁, hs₁⟩ := hstep seen a rest s hl hs
    obtain ⟨s₂, h₂, hs₂⟩ := ih (seen ++ [a]) s₁ (by simpa using hl) hs₁
    refine ⟨s₂, ?_, hs₂⟩
    rw [foldlM_cons, h₁]
    exact h₂

/-- A mapped call returns iff each one does. -/
theorem mapM_eq_ok_iff : l.mapM f = .ok r ↔ List.Forall₂ (fun a b => f a = .ok b) l r := by
  induction l generalizing r with
  | nil =>
    rw [mapM_nil, forall₂_nil_left_iff]
    exact ⟨fun h => (Except.ok.inj h).symm, fun h => h ▸ rfl⟩
  | cons a l ih =>
    rw [mapM_cons, bind_eq_ok, forall₂_cons_left_iff]
    constructor
    · rintro ⟨b, hb, h⟩
      obtain ⟨bs, hbs, h⟩ := bind_eq_ok.mp h
      exact ⟨b, bs, hb, ih.mp hbs, (Except.ok.inj h).symm⟩
    · rintro ⟨b, bs, hb, hbs, rfl⟩
      exact ⟨b, hb, bind_eq_ok.mpr ⟨bs, ih.mpr hbs, rfl⟩⟩

theorem getElem?_of_mapM (h : l.mapM f = .ok r) {i : ℕ} :
    r[i]? = some b ↔ ∃ a, l[i]? = some a ∧ f a = .ok b := by
  induction mapM_eq_ok_iff.mp h generalizing i with
  | nil => simp
  | cons hab htail ih =>
    cases i with
    | zero =>
      simp only [getElem?_cons_zero, Option.some.injEq, exists_eq_left', hab, Except.ok.injEq]
    | succ i =>
      rw [getElem?_cons_succ, getElem?_cons_succ]
      exact ih (mapM_eq_ok_iff.mpr htail)

theorem mem_of_mapM (h : l.mapM f = .ok r) : b ∈ r ↔ ∃ a ∈ l, f a = .ok b := by
  simp only [mem_iff_getElem?, getElem?_of_mapM h]
  constructor
  · rintro ⟨i, a, ha, hb⟩
    exact ⟨a, ⟨i, ha⟩, hb⟩
  · rintro ⟨a, ⟨i, ha⟩, hb⟩
    exact ⟨i, a, ha, hb⟩

end Raise
