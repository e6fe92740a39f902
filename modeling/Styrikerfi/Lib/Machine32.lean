import Mathlib.Algebra.Ring.Int.Defs
import Mathlib.Algebra.Ring.Nat
import Mathlib.Tactic.Common

/-!
# Byte memory and 32-bit words

A memory is a byte at every address. A word is four bytes, least significant first; words are
natural numbers below `2 ^ 32`, and `wadd`, `wsub` are the arithmetic of unsigned 32-bit machine
words, which pointers and sizes share. `copy` is a block move that reads every source byte before
it writes one.

The proofs over a memory read `load` and `store` through two rules: a word reads back what was
stored at its own address (`load_store`), and a word four bytes away keeps its value
(`load_store_of_sep`).
-/

namespace Machine32

/-- One byte at every address. -/
abbrev Mem := Nat → UInt8

/-- The word at `p`. -/
def load (m : Mem) (p : Nat) : Nat :=
  (m p).toNat + 2 ^ 8 * (m (p + 1)).toNat + 2 ^ 16 * (m (p + 2)).toNat + 2 ^ 24 * (m (p + 3)).toNat

/-- The memory after the word `v` (its low 32 bits) is written at `p`. -/
def store (m : Mem) (p v : Nat) : Mem := fun q =>
  if q < p then m q
  else if q < p + 4 then UInt8.ofNat (v / 2 ^ (8 * (q - p)))
  else m q

/-- The memory after the `n` bytes at `src` are moved to `dst`. -/
def copy (m : Mem) (dst src n : Nat) : Mem := fun q =>
  if q < dst then m q
  else if q < dst + n then m (src + (q - dst))
  else m q

/-- The memory after the `n` bytes from `p` on are set to `c`. -/
def fill (m : Mem) (p : Nat) (c : UInt8) (n : Nat) : Mem := fun q =>
  if p ≤ q ∧ q < p + n then c else m q

/-- Unsigned 32-bit addition. -/
def wadd (x y : Nat) : Nat := (x + y) % 2 ^ 32

/-- Unsigned 32-bit subtraction. -/
def wsub (x y : Nat) : Nat := if y ≤ x then x - y else x + 2 ^ 32 - y

/-- The signed reading of a 32-bit word. -/
def toInt (x : Nat) : Int := if x < 2 ^ 31 then x else (x : Int) - 2 ^ 32

/-- The word of a signed number. -/
def ofInt (n : Int) : Nat := (n % 2 ^ 32).toNat

/-- The signed reading of a byte. -/
def signedByte (b : UInt8) : Int := if b.toNat < 128 then b.toNat else b.toNat - 256

/-! ## Arithmetic -/

/-- A sum that does not wrap. -/
theorem wadd_of_lt {x y : Nat} (h : x + y < 2 ^ 32) : wadd x y = x + y := Nat.mod_eq_of_lt h

/-- A difference that does not wrap. -/
theorem wsub_of_le {x y : Nat} (h : y ≤ x) : wsub x y = x - y := if_pos h

/-- Going forward by `n` and back by `k ≤ n` is going forward by `n - k`. -/
theorem wsub_wadd {p n k : Nat} (h : p + n < 2 ^ 32) (hk : k ≤ p + n) :
    wsub (wadd p n) k = p + n - k := by
  rw [wadd_of_lt h, wsub_of_le hk]

/-- Subtracting one number from two addresses keeps them apart. -/
theorem wsub_ne {x y k : Nat} (hx : x < 2 ^ 32) (hy : y < 2 ^ 32) (hk : k ≤ 2 ^ 32) (h : x ≠ y) :
    wsub x k ≠ wsub y k := by
  unfold wsub
  split <;> split <;> omega

/-- A word of the lower half is itself as an `int`. -/
theorem toInt_of_lt {x : Nat} (h : x < 2 ^ 31) : toInt x = x := if_pos h

/-- A word of the upper half is negative as an `int`. -/
theorem toInt_neg {x : Nat} (hlt : x < 2 ^ 32) (h : 2 ^ 31 ≤ x) : toInt x < 0 := by
  rw [toInt, if_neg (by omega)]; omega

/-- An `int` that is not negative is itself as a word. -/
theorem ofInt_of_nonneg {n : Int} (h : 0 ≤ n) (hlt : n < 2 ^ 31) : ofInt n = n.toNat := by
  rw [ofInt, Int.emod_eq_of_lt h (by omega)]

/-- A small number is read back from its low byte exactly when that byte is not negative. -/
theorem signedByte_eq_iff {n : Nat} (h : n < 256) : signedByte (UInt8.ofNat n) = n ↔ n < 128 := by
  have hn : (UInt8.ofNat n).toNat = n := by
    rw [UInt8.toNat_ofNat']
    exact Nat.mod_eq_of_lt h
  rw [signedByte, hn]
  split <;> omega

/-! ## Words -/

/-- A store leaves what is below it. -/
theorem store_of_lt {m : Mem} {p v q : Nat} (h : q < p) : store m p v q = m q := if_pos h

/-- A store leaves what is above it. -/
theorem store_of_ge {m : Mem} {p v q : Nat} (h : p + 4 ≤ q) : store m p v q = m q := by
  rw [store, if_neg (by omega), if_neg (by omega)]

/-- A stored word changes four bytes and no other. -/
theorem store_of_sep {m : Mem} {p v q : Nat} (h : q < p ∨ p + 4 ≤ q) : store m p v q = m q :=
  h.elim store_of_lt store_of_ge

/-- The bytes of a word that is stored, lowest first. -/
theorem store_byte {m : Mem} {p v i : Nat} (h : i < 4) :
    store m p v (p + i) = UInt8.ofNat (v / 2 ^ (8 * i)) := by
  rw [store, if_neg (by omega), if_pos (by omega), Nat.add_sub_cancel_left]

/-- A word reads back what was stored at its address. -/
theorem load_store (m : Mem) (p v : Nat) : load (store m p v) p = v % 2 ^ 32 := by
  have h0 : store m p v p = UInt8.ofNat (v / 2 ^ (8 * 0)) := store_byte (i := 0) (by decide)
  rw [load, h0, store_byte (i := 1) (by decide), store_byte (i := 2) (by decide),
    store_byte (i := 3) (by decide)]
  simp only [UInt8.toNat_ofNat']
  omega

/-- A word depends on its four bytes only. -/
theorem load_congr {m m' : Mem} {p : Nat} (h : ∀ q, p ≤ q → q < p + 4 → m' q = m q) :
    load m' p = load m p := by
  simp only [load, h p (by omega) (by omega), h (p + 1) (by omega) (by omega),
    h (p + 2) (by omega) (by omega), h (p + 3) (by omega) (by omega)]

/-- A word four bytes away from a store keeps its value. -/
theorem load_store_of_sep {m : Mem} {p v q : Nat} (h : q + 4 ≤ p ∨ p + 4 ≤ q) :
    load (store m p v) q = load m q :=
  load_congr fun x _ _ => store_of_sep (by omega)

/-- Of two stores at one address the second remains. -/
theorem store_store (m : Mem) (p v v' : Nat) : store (store m p v) p v' = store m p v' := by
  funext q
  unfold store
  split
  · rfl
  · split <;> rfl

/-! ## Block moves -/

/-- A moved byte. -/
theorem copy_byte {m : Mem} {dst src n i : Nat} (h : i < n) :
    copy m dst src n (dst + i) = m (src + i) := by
  rw [copy, if_neg (by omega), if_pos (by omega), Nat.add_sub_cancel_left]

/-- A move changes its destination and no other byte. -/
theorem copy_of_sep {m : Mem} {dst src n q : Nat} (h : q < dst ∨ dst + n ≤ q) :
    copy m dst src n q = m q := by
  unfold copy; split
  · rfl
  · rw [if_neg (by omega)]

end Machine32
