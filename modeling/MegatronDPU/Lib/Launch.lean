import Mathlib.Tactic

/-!
# Launching independent threads

A kernel starts one thread for each index of a grid, in no particular order, on one memory. Threads
that leave alone what the others need and what the others have done reach their own results in every
order: `exists_launch`.
-/

namespace MegatronDPU

variable {ι σ : Type*}

/-- Runs the threads one after another; `none` where one of them does not end. -/
def launch (thread : ι → σ → Option σ) (threads : List ι) (s : σ) : Option σ :=
  threads.foldlM (fun s i => thread i s) s

/-- A thread that never ends keeps the launch from ending. -/
theorem launch_eq_none {thread : ι → σ → Option σ} {threads : List ι} {i : ι} (hi : i ∈ threads)
    (h : ∀ s, thread i s = none) (s : σ) : launch thread threads s = none := by
  induction threads generalizing s with
  | nil => cases hi
  | cons j threads ih =>
    rw [launch, List.foldlM_cons, Option.bind_eq_bind, Option.bind_eq_none_iff]
    intro s' hs'
    rcases List.mem_cons.mp hi with rfl | hi
    · rw [h] at hs'
      cases hs'
    · exact ih hi s'

/-- From `pre i` the thread `i` ends with `post i` and keeps both conditions of every other. -/
def Independent (thread : ι → σ → Option σ) (pre post : ι → σ → Prop) (grid : List ι) : Prop :=
  ∀ i ∈ grid, ∀ s, pre i s → ∃ s', thread i s = some s' ∧ post i s' ∧
    ∀ j ∈ grid, j ≠ i → (pre j s → pre j s') ∧ (post j s → post j s')

variable {thread : ι → σ → Option σ} {pre post : ι → σ → Prop} {grid : List ι}

theorem Independent.exists_launch_sublist (h : Independent thread pre post grid) {l : List ι}
    (hsub : l ⊆ grid) (hnd : l.Nodup) {s : σ} (hpre : ∀ i ∈ l, pre i s) :
    ∃ s', launch thread l s = some s' ∧ (∀ i ∈ l, post i s') ∧
      ∀ j ∈ grid, j ∉ l → post j s → post j s' := by
  induction l generalizing s with
  | nil => exact ⟨s, rfl, by simp, fun j _ _ hj => hj⟩
  | cons i l ih =>
    obtain ⟨hil, hnd⟩ := List.nodup_cons.mp hnd
    have higrid := hsub List.mem_cons_self
    obtain ⟨s₁, hrun, hpost, hkeep⟩ := h i higrid s (hpre i List.mem_cons_self)
    have hsub' : l ⊆ grid := fun j hj => hsub (List.mem_cons_of_mem i hj)
    obtain ⟨s', hrest, hdone, hout⟩ := ih hsub' hnd fun j hj =>
      (hkeep j (hsub' hj) fun heq => hil (heq ▸ hj)).1 (hpre j (List.mem_cons_of_mem i hj))
    refine ⟨s', ?_, ?_, ?_⟩
    · show (thread i s >>= fun s => launch thread l s) = some s'
      rw [hrun]
      exact hrest
    · intro j hj
      rcases List.mem_cons.mp hj with rfl | hj
      · exact hout j higrid hil hpost
      · exact hdone j hj
    · intro j hj hjl hpj
      obtain ⟨hne, hjl⟩ := not_or.mp fun hor => hjl (List.mem_cons.mpr hor)
      exact hout j hj hjl ((hkeep j hj hne).2 hpj)

theorem Independent.exists_launch (h : Independent thread pre post grid) (hnd : grid.Nodup)
    {threads : List ι} (hperm : threads.Perm grid) {s : σ} (hpre : ∀ i ∈ grid, pre i s) :
    ∃ s', launch thread threads s = some s' ∧ ∀ i ∈ grid, post i s' := by
  obtain ⟨s', hrun, hpost, -⟩ := h.exists_launch_sublist hperm.subset (hperm.nodup_iff.mpr hnd)
    fun i hi => hpre i (hperm.subset hi)
  exact ⟨s', hrun, fun i hi => hpost i (hperm.symm.subset hi)⟩

end MegatronDPU
