import Mathlib.Algebra.Order.BigOperators.Group.Finset

/-!
# Weighing a family of threads

The threads of a concurrent system are a family `f : Nat → α` of control states, the first `n` of
which exist. `tally n w f` is the total weight of the existing threads, each weighed by its control
state. A step of the system moves one thread, and the total moves by the difference of two weights
(`tally_update`): an equation between semaphore counts and tallies is kept by a step when it is kept
by the weights of the one thread that moves.
-/

section
variable {α : Type*} {n i : Nat} {w : α → Nat} {f : Nat → α}

/-- The total weight of the first `n` members of the family. -/
def tally (n : Nat) (w : α → Nat) (f : Nat → α) : Nat := ∑ i ∈ Finset.range n, w (f i)

/-- One member moves: the total moves by the difference of its two weights. -/
theorem tally_update (hi : i < n) (x : α) :
    tally n w (Function.update f i x) + w (f i) = tally n w f + w x := by
  have hmem : i ∈ Finset.range n := Finset.mem_range.2 hi
  have hrest : ∑ j ∈ (Finset.range n).erase i, w (Function.update f i x j) =
      ∑ j ∈ (Finset.range n).erase i, w (f j) :=
    Finset.sum_congr rfl fun j hj => by rw [Function.update_of_ne (Finset.ne_of_mem_erase hj)]
  unfold tally
  rw [← Finset.add_sum_erase _ _ hmem, ← Finset.add_sum_erase _ (fun j => w (f j)) hmem, hrest,
    Function.update_self]
  omega

/-- A member weighs at most the total. -/
theorem le_tally (hi : i < n) : w (f i) ≤ tally n w f := by
  unfold tally
  rw [← Finset.add_sum_erase _ _ (Finset.mem_range.2 hi)]
  omega

/-- Two members weigh at most the total. -/
theorem add_le_tally {j : Nat} (hi : i < n) (hj : j < n) (hij : i ≠ j) :
    w (f i) + w (f j) ≤ tally n w f := by
  have hmem : i ∈ Finset.range n := Finset.mem_range.2 hi
  have hmem' : j ∈ (Finset.range n).erase i := Finset.mem_erase.2 ⟨hij.symm, Finset.mem_range.2 hj⟩
  unfold tally
  rw [← Finset.add_sum_erase _ _ hmem, ← Finset.add_sum_erase _ _ hmem']
  omega

/-- Weights that are no more make a total that is no more. -/
theorem tally_mono {w' : α → Nat} (hle : ∀ x, w x ≤ w' x) : tally n w f ≤ tally n w' f :=
  Finset.sum_le_sum fun _ _ => hle _

/-- A tally with greater weights, one of them strictly. -/
theorem tally_lt {w' : α → Nat} (hle : ∀ x, w x ≤ w' x) (hi : i < n) (hlt : w (f i) < w' (f i)) :
    tally n w f < tally n w' f :=
  Finset.sum_lt_sum (fun _ _ => hle _) ⟨i, Finset.mem_range.2 hi, hlt⟩

/-- A tally is 0 when every weight is. -/
theorem tally_eq_zero : tally n w f = 0 ↔ ∀ i < n, w (f i) = 0 := by
  unfold tally
  simp [Finset.sum_eq_zero_iff]

end
