import MegatronDPU.Lib.Transition

/-!
# The token bucket of the gateway

Calls of `acquire(1)` and `return_tokens(1)` on a bucket that is not refilled, in any interleaving.
`try_acquire` and the addition of a returned token hold the lock, so each is one step. Between a
failed `try_acquire` and `notified()` other calls can run: a notification that comes there is lost.

Of the numbers, `f64` in the source, only the order is used.
-/

namespace MegatronDPU.Gateway

open Lts List

/-- What a call does next. -/
inductive TokenCall
  | tryAcquire
  /-- `notify.notified()`, after a failed `try_acquire`. -/
  | notified
  /-- Nothing until `notify_waiters` is called. -/
  | await
  | returnToken
  | notifyWaiters
  | completed
  deriving DecidableEq

/-- `notify_waiters` wakes the futures that exist. -/
def TokenCall.wake : TokenCall → TokenCall
  | .await => .tryAcquire
  | c => c

/-- The tokens and the calls under way. -/
structure TokenBucket (F : Type) where
  tokens : F
  calls : List TokenCall := []

/-- A new call, or a step of one. -/
inductive TokenAction
  | acquire
  | returnTokens
  | step (call : ℕ)

variable {F : Type} [LinearOrder F] [One F]

namespace TokenBucket

section

variable (add sub : F → F → F) (capacity : F) (s : TokenBucket F)

/-- A step of call `i`. -/
def next (i : ℕ) : TokenCall → Option (TokenBucket F)
  | .tryAcquire =>
    -- the refill adds nothing
    let tokens := min s.tokens capacity
    if 1 ≤ tokens then some ⟨sub tokens 1, s.calls.set i .completed⟩
    else some ⟨tokens, s.calls.set i .notified⟩
  | .notified => some ⟨s.tokens, s.calls.set i .await⟩
  | .returnToken => some ⟨min (add s.tokens 1) capacity, s.calls.set i .notifyWaiters⟩
  | .notifyWaiters => some ⟨s.tokens, (s.calls.set i .completed).map .wake⟩
  | .await | .completed => none

def step : TokenAction → Option (TokenBucket F)
  | .acquire => some ⟨s.tokens, s.calls ++ [.tryAcquire]⟩
  | .returnTokens => some ⟨s.tokens, s.calls ++ [.returnToken]⟩
  | .step i => s.calls[i]?.bind (s.next add sub capacity i)

end

/-- No call begins to wait while there is a token. -/
def Heard (s : TokenBucket F) : TokenAction → Prop
  | .step i => s.calls[i]? = some .notified → s.tokens < 1
  | _ => True

instance (s : TokenBucket F) : ∀ a, Decidable (s.Heard a)
  | .step _ => inferInstanceAs (Decidable (_ → _))
  | .acquire | .returnTokens => .isTrue trivial

/-- A call waits beside a token only until a notification that is due. -/
def Due (s : TokenBucket F) : Prop := .await ∈ s.calls → 1 ≤ s.tokens → .notifyWaiters ∈ s.calls

variable {add sub : F → F → F} {capacity : F} {s t : TokenBucket F} {a : TokenAction} {i : ℕ}

/-- A call that neither waits nor has to notify goes on, and there is no new token. -/
theorem Due.set (h : s.Due) {c c' : TokenCall} {tokens : F} (hi : s.calls[i]? = some c)
    (hc : c ≠ .notifyWaiters) (hc' : c' ≠ .await) (htokens : 1 ≤ tokens → 1 ≤ s.tokens) :
    Due ⟨tokens, s.calls.set i c'⟩ := by
  intro hwait hone
  have hwait := (mem_or_eq_of_mem_set hwait).resolve_right hc'.symm
  obtain ⟨j, hj⟩ := mem_iff_getElem?.mp (h hwait (htokens hone))
  have hne : i ≠ j := by
    rintro rfl
    exact hc (Option.some.inj (hi.symm.trans hj))
  exact mem_of_getElem? ((getElem?_set_ne hne).trans hj)

theorem Due.concat (h : s.Due) {c : TokenCall} (hc : c ≠ .await) : Due ⟨s.tokens, s.calls ++ [c]⟩ := by
  intro hwait hone
  have hwait := (mem_append.mp hwait).resolve_right fun hmem => hc (mem_singleton.mp hmem).symm
  exact mem_append_left _ (h hwait hone)

/-- Every step that lets no call wait beside a token keeps its notification due. -/
theorem Due.step (h : s.Due) (ha : s.Heard a) (hs : s.step add sub capacity a = some t) : t.Due := by
  cases a with
  | acquire | returnTokens =>
    cases hs
    exact h.concat nofun
  | step i =>
    obtain ⟨c, hc, hs⟩ := Option.bind_eq_some_iff.mp hs
    cases c with
    | tryAcquire =>
      dsimp only [next] at hs
      split_ifs at hs with hone <;> cases hs
      · exact h.set hc nofun nofun fun _ => hone.trans (min_le_left _ _)
      · exact h.set hc nofun nofun fun hone' => absurd hone' hone
    | notified =>
      cases hs
      exact fun _ hone => absurd (ha hc) hone.not_gt
    | returnToken =>
      cases hs
      exact fun _ _ => mem_set (List.getElem?_eq_some_iff.mp hc).1 _
    | notifyWaiters =>
      cases hs
      intro hwait
      obtain ⟨c, -, hwake⟩ := mem_map.mp hwait
      cases c <;> cases hwake
    | await | completed => cases hs

end TokenBucket

open TokenBucket

/-- A bucket with refill rate 0. -/
def tokenBuckets (add sub : F → F → F) (capacity : F) : System (TokenBucket F) TokenAction where
  init s := s = { tokens := capacity }
  step := TokenBucket.step add sub capacity

/-- Where no call begins to wait while there is a token, calls wait on a bucket with a token only as
long as other calls run. -/
theorem tokens_lt_of_await (add sub : F → F → F) (capacity : F) (s : TokenBucket F)
    (h : Reach (tokenBuckets add sub capacity) Heard s) (hwait : .await ∈ s.calls)
    (hrest : ∀ c ∈ s.calls, c = .await ∨ c = .completed) : s.tokens < 1 := by
  have hdue : s.Due := by
    refine h.invariant ?_ fun s a t hs ha ht => hs.step ha ht
    rintro _ rfl hwait
    exact absurd hwait not_mem_nil
  by_contra hone
  rcases hrest _ (hdue hwait (not_lt.mp hone)) with hc | hc <;> cases hc

theorem tokens_lt_of_await_second :
    ∃ s, Reach (tokenBuckets (F := ℕ) Nat.add Nat.sub 1) Heard s ∧ s.tokens < 1 := by
  obtain ⟨s, hs, hwait, hrest⟩ := exists_reach
    (S := tokenBuckets (F := ℕ) Nat.add Nat.sub 1) (G := Heard) (.init rfl)
    (P := fun s => .await ∈ s.calls ∧ ∀ c ∈ s.calls, c = .await ∨ c = .completed)
    [.acquire, .step 0, .acquire, .step 1, .step 1] (by decide)
  exact ⟨s, hs, tokens_lt_of_await _ _ 1 s hs hwait hrest⟩

/-- The token is returned between the failed `try_acquire` of the second call and its `notified()`. -/
theorem await_beside_token : ∃ s, Reach (tokenBuckets (F := ℕ) Nat.add Nat.sub 1) Free s ∧
    s.calls = [.completed, .await, .completed] ∧ s.tokens = 1 :=
  exists_reach (S := tokenBuckets (F := ℕ) Nat.add Nat.sub 1) (G := Free) (.init rfl)
    [.acquire, .step 0, .acquire, .step 1, .returnTokens, .step 2, .step 2, .step 1] (by decide)

end MegatronDPU.Gateway
