import Mathlib.Tactic

/-!
# While loops

`Loop.run cond body` runs `body` as long as `cond` holds, for at most `fuel` rounds; a round may
fail. A loop that runs through a known sequence of states has the last of them as its result
(`run_eq_of_sequence`); what holds at the start and is kept by every round holds of the result
(`run_invariant`); a loop that cannot leave its condition has no result, whatever the fuel
(`run_eq_none`).
-/

namespace Loop

variable {σ : Type*} {cond : σ → Bool} {body : σ → Option σ}

/-- A `while` loop of at most `fuel` rounds. -/
def run (cond : σ → Bool) (body : σ → Option σ) : ℕ → σ → Option σ
  | 0, s => if cond s then none else some s
  | fuel + 1, s => if cond s then (body s).bind (run cond body fuel) else some s

theorem run_of_not {s : σ} (fuel : ℕ) (h : cond s = false) : run cond body fuel s = some s := by
  cases fuel <;> simp [run, h]

theorem run_eq_of_sequence (f : ℕ → σ) {n fuel : ℕ} {s : σ} (hstart : f 0 = s) (hfuel : n ≤ fuel)
    (hcond : ∀ k < n, cond (f k) = true) (hbody : ∀ k < n, body (f k) = some (f (k + 1)))
    (hend : cond (f n) = false) : run cond body fuel s = some (f n) := by
  subst hstart
  induction n generalizing f fuel with
  | zero => exact run_of_not fuel hend
  | succ n ih =>
    obtain ⟨fuel, rfl⟩ : ∃ k, fuel = k + 1 := ⟨fuel - 1, by omega⟩
    have h0 := Nat.succ_pos n
    rw [run, if_pos (hcond 0 h0), hbody 0 h0, Option.bind_some]
    -- the rest of the loop runs through the shifted sequence
    exact ih (fun k => f (k + 1)) (by omega) (fun k hk => hcond (k + 1) (by omega))
      (fun k hk => hbody (k + 1) (by omega)) hend

/-- What the body keeps holds when the loop ends, and the condition does not. -/
theorem run_invariant (P : σ → Prop)
    (hbody : ∀ s t, P s → cond s = true → body s = some t → P t) {fuel : ℕ} {s t : σ} (hs : P s)
    (h : run cond body fuel s = some t) : P t ∧ cond t = false := by
  induction fuel generalizing s with
  | zero =>
    rw [run] at h
    split_ifs at h with hc
    cases h
    exact ⟨hs, by simpa using hc⟩
  | succ fuel ih =>
    rw [run] at h
    split_ifs at h with hc
    · obtain ⟨u, hu, h⟩ := Option.bind_eq_some_iff.mp h
      exact ih (hbody s u hs hc hu) h
    · cases h
      exact ⟨hs, by simpa using hc⟩

theorem exists_run (P : σ → Prop) (f : σ → ℕ)
    (hbody : ∀ s, P s → cond s = true → ∃ t, body s = some t ∧ P t ∧ f t < f s) {fuel : ℕ} {s : σ}
    (hs : P s) (hfuel : f s ≤ fuel) : ∃ t, run cond body fuel s = some t := by
  induction fuel generalizing s with
  | zero =>
    rw [run]
    split_ifs with hc
    · obtain ⟨t, -, -, hlt⟩ := hbody s hs hc
      omega
    · exact ⟨s, rfl⟩
  | succ fuel ih =>
    rw [run]
    split_ifs with hc
    · obtain ⟨t, ht, hP, hlt⟩ := hbody s hs hc
      rw [ht]
      exact ih hP (by omega)
    · exact ⟨s, rfl⟩

/-- A loop whose condition stays true does not end. -/
theorem run_eq_none (P : σ → Prop) (hcond : ∀ s, P s → cond s = true)
    (hbody : ∀ s t, P s → body s = some t → P t) (fuel : ℕ) {s : σ} (hs : P s) :
    run cond body fuel s = none := by
  induction fuel generalizing s with
  | zero => rw [run, if_pos (hcond s hs)]
  | succ fuel ih =>
    rw [run, if_pos (hcond s hs)]
    cases hb : body s with
    | none => rfl
    | some t => exact ih (hbody s t hs hb)

end Loop
