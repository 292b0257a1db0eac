import Mathlib.Tactic

/-!
# Bytes of a buffer

A `Buffer` is an array of bytes that starts at address 0, with a mark above everything stored so
far. Numbers of `n` bytes are stored with the low byte first. A number is read back as it was
stored (`load_store`), a store elsewhere does not change it (`load_store_of_disjoint`), and a byte
copy of a range that holds it carries it along (`load_copy`).
-/

namespace Bytes

/-- A memory of bytes that remembers how far it was written. -/
structure Buffer where
  cells : ℕ → BitVec 8
  /-- No byte at or above `top` has been stored to. -/
  top : ℕ

namespace Buffer

variable (m : Buffer) (a c n : ℕ)

/-- The number in the `n` bytes from address `a` on. -/
def load : (n : ℕ) → ℕ → BitVec (8 * n)
  | 0, _ => 0
  | n + 1, a => load n (a + 1) ++ m.cells a

/-- Stores the bytes of a word, the lowest first. -/
def store {n : ℕ} (x : BitVec (8 * n)) : Buffer where
  cells c := if a ≤ c ∧ c < a + n then x.extractLsb' (8 * (c - a)) 8 else m.cells c
  top := max m.top (a + n)

/-- The first `n` bytes come from `src`. -/
def copy (src : Buffer) : Buffer where
  cells c := if c < n then src.cells c else m.cells c
  top := max m.top n

variable {m a c n}

theorem getLsbD_load (i : ℕ) (hi : i < 8 * n) :
    (m.load n a).getLsbD i = (m.cells (a + i / 8)).getLsbD (i % 8) := by
  induction n generalizing a i with
  | zero => omega
  | succ n ih =>
    show (m.load n (a + 1) ++ m.cells a).getLsbD i = _
    rw [BitVec.getLsbD_append]
    split_ifs with h
    · rw [Nat.div_eq_of_lt h, Nat.mod_eq_of_lt h, add_zero]
    · rw [ih (i - 8) (by omega), show a + 1 + (i - 8) / 8 = a + i / 8 by omega,
        show (i - 8) % 8 = i % 8 by omega]

@[simp] theorem load_store (x : BitVec (8 * n)) : (m.store a x).load n a = x := by
  apply BitVec.eq_of_getLsbD_eq
  intro i hi
  have hcell : (m.store a x).cells (a + i / 8) = x.extractLsb' (8 * (a + i / 8 - a)) 8 :=
    if_pos (by omega)
  rw [getLsbD_load i hi, hcell, BitVec.getLsbD_extractLsb', decide_eq_true (by omega),
    Bool.true_and]
  congr 1
  omega

theorem load_congr {m' : Buffer} (h : ∀ c, a ≤ c → c < a + n → m'.cells c = m.cells c) :
    m'.load n a = m.load n a := by
  apply BitVec.eq_of_getLsbD_eq
  intro i hi
  rw [getLsbD_load i hi, getLsbD_load i hi, h _ (by omega) (by omega)]

theorem load_store_of_disjoint {k : ℕ} (x : BitVec (8 * k)) (h : a + n ≤ c ∨ c + k ≤ a) :
    (m.store c x).load n a = m.load n a :=
  load_congr fun _ _ _ => if_neg (by omega)

theorem load_copy {src : Buffer} {k : ℕ} (h : a + n ≤ k) : (m.copy k src).load n a = src.load n a :=
  load_congr fun _ _ _ => if_pos (by omega)

@[simp] theorem top_store (x : BitVec (8 * n)) : (m.store a x).top = max m.top (a + n) := rfl

end Buffer

end Bytes
