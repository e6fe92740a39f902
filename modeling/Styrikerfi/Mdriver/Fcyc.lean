import Mathlib.Algebra.GroupWithZero.Nat
import Mathlib.Data.Nat.Basic
import Mathlib.Logic.Function.Basic
import Mathlib.Order.Lattice

/-!
# The K-best sampler

`fcyc.c` estimates a running time by the least of several measurements: it keeps the `kbest` least
ones in an array, by insertion sort, and goes on until these are close to each other or it has taken
`maxsamples`. A measurement is a value of a linear order, what the counter shows around one call of
the function under test, and the comparison with `epsilon` is a parameter.

`Best` is the invariant of the array: it holds the least measurements so far, in ascending order
(`Best.addSample`). The loop ends, and returns the least of all measurements it has taken
(`fcyc_least`).
-/

namespace Fcyc

/-! ## fcyc.c -/

/-- The array of the least measurements, and the number of measurements. -/
structure Sampler (α : Type*) where
  values : Nat → α
  samplecount : Nat

/-- The settings of the measurement routines. -/
structure Settings (α : Type*) where
  /-- value of K in the K-best scheme -/
  kbest : Nat := 3
  /-- give up after this many -/
  maxsamples : Nat := 20
  /-- `(1 + epsilon) * lo >= hi` -/
  close : α → α → Bool
  kbest_pos : 0 < kbest := by decide

section
variable {α : Type*} [LinearOrder α]

/-- The loop of the insertion sort: the value at `pos` goes down as far as the one below it is
greater. -/
def insertionSort (values : Nat → α) : Nat → Nat → α
  | 0 => values
  | pos + 1 =>
    if values (pos + 1) < values pos then
      let temp := values pos
      let values := Function.update values pos (values (pos + 1))
      insertionSort (Function.update values (pos + 1) temp) pos
    else values

/-- Adds a new sample. -/
def addSample (kbest : Nat) (s : Sampler α) (val : α) : Sampler α :=
  let (pos, values) :=
    if s.samplecount < kbest then (s.samplecount, Function.update s.values s.samplecount val)
    else if val < s.values (kbest - 1) then (kbest - 1, Function.update s.values (kbest - 1) val)
    else (0, s.values)
  ⟨insertionSort values pos, s.samplecount + 1⟩

/-- Have the `kbest` minimum measurements converged? -/
def hasConverged (c : Settings α) (s : Sampler α) : Prop :=
  c.kbest ≤ s.samplecount ∧ c.close (s.values 0) (s.values (c.kbest - 1)) = true

instance (c : Settings α) (s : Sampler α) : Decidable (hasConverged c s) :=
  inferInstanceAs (Decidable (_ ∧ _))

/-- Every sample is counted. -/
theorem samplecount_addSample (kbest : Nat) (s : Sampler α) (val : α) :
    (addSample kbest s val).samplecount = s.samplecount + 1 := rfl

/-- The sampling loop; `measure i` is what the counter shows around call `i`. -/
def samples (c : Settings α) (measure : Nat → α) (s : Sampler α) : Sampler α :=
  let s' := addSample c.kbest s (measure s.samplecount)
  if ¬ hasConverged c s' ∧ s'.samplecount < c.maxsamples then samples c measure s' else s'
termination_by c.maxsamples - s.samplecount
decreasing_by
  have hs : s'.samplecount = s.samplecount + 1 := samplecount_addSample ..
  show c.maxsamples - s'.samplecount < c.maxsamples - s.samplecount
  omega

variable [Zero α]

/-- Starts a new sampling process. -/
def initSampler : Sampler α := ⟨fun _ => 0, 0⟩

/-- Uses the K-best scheme to estimate the running time. -/
def fcyc (c : Settings α) (measure : Nat → α) : α := (samples c measure initSampler).values 0

/-- The sampler after `n` measurements. -/
def after (c : Settings α) (measure : Nat → α) : Nat → Sampler α
  | 0 => initSampler
  | n + 1 => addSample c.kbest (after c measure n) (measure n)

end

/-! ## The insertion sort -/

/-- The first `n` values. -/
def first {α : Type*} (values : Nat → α) (n : Nat) : List α := (List.range n).map values

section
variable {α : Type*} {values : Nat → α} {n : Nat}

/-- What is among the first values is at an index below their number. -/
theorem mem_first {a : α} : a ∈ first values n ↔ ∃ i < n, values i = a := by simp [first]

/-- One value more comes last. -/
theorem first_succ (values : Nat → α) (n : Nat) :
    first values (n + 1) = first values n ++ [values n] := by
  rw [first, List.range_succ, List.map_append]
  rfl

/-- The first values depend on the array below their number. -/
theorem first_congr {values' : Nat → α} (h : ∀ i < n, values' i = values i) :
    first values' n = first values n :=
  List.map_congr_left fun i hi => h i (List.mem_range.1 hi)

end

section
variable {α : Type*} [LinearOrder α] {values : Nat → α} {n m pos k : Nat}
  {s : Sampler α} {xs : List α} {val : α}

/-- The first `n` values are in ascending order. -/
def Ascending (values : Nat → α) (n : Nat) : Prop := ∀ i j, i < j → j < n → values i ≤ values j

/-- Order depends on the array below the number. -/
theorem Ascending.congr {values' : Nat → α} (ha : Ascending values n)
    (h : ∀ i < n, values' i = values i) : Ascending values' n := fun i j hij hj => by
  rw [h i (by omega), h j hj]
  exact ha i j hij hj

/-- A value that is not below the others goes last. -/
theorem Ascending.succ (ha : Ascending values n) (hlast : ∀ i < n, values i ≤ values n) :
    Ascending values (n + 1) := fun i j hij hj => by
  rcases Nat.lt_succ_iff_lt_or_eq.1 hj with hj | rfl
  · exact ha i j hij hj
  · exact hlast i hij

/-- **The insertion sort** puts one value in its place among the ascending ones below it. -/
theorem insertionSort_spec (ha : Ascending values pos) :
    Ascending (insertionSort values pos) (pos + 1) ∧
      (first (insertionSort values pos) (pos + 1)).Perm (first values (pos + 1)) ∧
      ∀ i, pos < i → insertionSort values pos i = values i := by
  induction pos generalizing values with
  | zero => exact ⟨fun i j hij hj => by omega, .refl _, fun _ _ => rfl⟩
  | succ pos ih =>
    have hbelow : Ascending values pos := fun i j hij hj => ha i j hij (by omega)
    rw [insertionSort]
    split
    · next hlt =>
      obtain ⟨swapped, hswap⟩ : ∃ v, v = Function.update
        (Function.update values pos (values (pos + 1))) (pos + 1) (values pos) := ⟨_, rfl⟩
      have hsame : ∀ i < pos, swapped i = values i := fun i hi => by
        rw [hswap, Function.update_of_ne (by omega), Function.update_of_ne (by omega)]
      have hpos : swapped pos = values (pos + 1) := by
        rw [hswap, Function.update_of_ne (by omega), Function.update_self]
      have hnext : swapped (pos + 1) = values pos := by rw [hswap, Function.update_self]
      obtain ⟨hasc, hperm, habove⟩ := ih (hbelow.congr hsame)
      dsimp only
      rw [← hswap]
      have htop : insertionSort swapped pos (pos + 1) = values pos :=
        (habove _ (Nat.lt_succ_self pos)).trans hnext
      refine ⟨hasc.succ fun i hi => ?_, ?_, fun i hi => ?_⟩
      · -- the values below are those that were there, and the one that came down
        obtain ⟨j, hj, he⟩ := mem_first.1 (hperm.mem_iff.1 (mem_first.2 ⟨i, hi, rfl⟩))
        rw [← he, htop]
        rcases Nat.lt_succ_iff_lt_or_eq.1 hj with hj | rfl
        · rw [hsame j hj]
          exact ha j pos hj (Nat.lt_succ_self pos)
        · rw [hpos]
          exact hlt.le
      · have hl : first (insertionSort swapped pos) (pos + 1 + 1) =
            first (insertionSort swapped pos) (pos + 1) ++ [values pos] := by
          rw [first_succ, htop]
        have hr : first swapped (pos + 1) = first values pos ++ [values (pos + 1)] := by
          rw [first_succ, first_congr hsame, hpos]
        rw [hl, first_succ values (pos + 1), first_succ values pos]
        refine (hperm.append_right _).trans ?_
        rw [hr, List.append_assoc, List.append_assoc]
        exact (List.Perm.swap _ _ []).append_left _
      · rw [habove i (by omega), hswap, Function.update_of_ne (by omega),
          Function.update_of_ne (by omega)]
    · next hge =>
      refine ⟨ha.succ fun i hi => ?_, .refl _, fun _ _ => rfl⟩
      have hle : values pos ≤ values (pos + 1) := not_lt.1 hge
      rcases Nat.lt_succ_iff_lt_or_eq.1 hi with hi | rfl
      · exact (ha i pos hi (Nat.lt_succ_self pos)).trans hle
      · exact hle

/-! ## The K best -/

/-- The array holds the least of the measurements `xs`, in ascending order, all of them as long as
there is room for them. -/
structure Best (k : Nat) (s : Sampler α) (xs : List α) : Prop where
  count : s.samplecount = xs.length
  ascending : Ascending s.values (min xs.length k)
  least : ∃ rest, (first s.values (min xs.length k) ++ rest).Perm xs ∧
    ∀ y ∈ first s.values (min xs.length k), ∀ b ∈ rest, y ≤ b

/-- The sampler after a value has been written at `pos` and sorted in. -/
theorem Ascending.write (ha : Ascending values n) (val : α) :
    ∃ sorted, insertionSort (Function.update values n val) n = sorted ∧
      Ascending sorted (n + 1) ∧ (first sorted (n + 1)).Perm (first values n ++ [val]) := by
  have hsame : ∀ i < n, Function.update values n val i = values i := fun i hi =>
    Function.update_of_ne (Nat.ne_of_lt hi) _ _
  have hfirst : first (Function.update values n val) (n + 1) = first values n ++ [val] := by
    rw [first_succ, first_congr hsame, Function.update_self]
  obtain ⟨hasc, hperm, -⟩ := insertionSort_spec (ha.congr hsame)
  exact ⟨_, rfl, hasc, hfirst ▸ hperm⟩

/-- As long as there is room, the array takes every measurement. -/
theorem Best.addSample_room (B : Best k s xs) (hroom : xs.length < k) (val : α) :
    Best k (addSample k s val) (xs ++ [val]) := by
  obtain ⟨hcount, hasc, rest, hperm, -⟩ := B
  rw [Nat.min_eq_left hroom.le] at hasc hperm
  -- there are no others
  have hnil : rest = [] := by
    have hlength := hperm.length_eq
    rw [List.length_append, first, List.length_map, List.length_range] at hlength
    exact List.eq_nil_of_length_eq_zero (by omega)
  rw [hnil, List.append_nil] at hperm
  obtain ⟨sorted, he, hasc', hperm'⟩ := hasc.write val
  have hadd : addSample k s val = ⟨sorted, xs.length + 1⟩ := by
    simp only [addSample, hcount, if_pos hroom, he]
  have hmin : min (xs ++ [val]).length k = xs.length + 1 := by
    rw [List.length_append, List.length_singleton, Nat.min_eq_left hroom]
  rw [hadd]
  refine ⟨by simp, by rwa [hmin], [], ?_, fun _ _ _ hb =>
    absurd hb List.not_mem_nil⟩
  rw [hmin, List.append_nil]
  exact hperm'.trans (hperm.append_right _)

/-- A measurement that is less than the greatest of a full array takes its place. -/
theorem Best.addSample_less (B : Best (m + 1) s xs) (hfull : m + 1 ≤ xs.length)
    (hlt : val < s.values m) : Best (m + 1) (addSample (m + 1) s val) (xs ++ [val]) := by
  obtain ⟨hcount, hasc, rest, hperm, hle⟩ := B
  rw [Nat.min_eq_right hfull] at hasc hperm hle
  have hlast : s.values m ∈ first s.values (m + 1) := mem_first.2 ⟨m, Nat.lt_succ_self m, rfl⟩
  have hbelow : Ascending s.values m := fun i j hij hj => hasc i j hij (by omega)
  obtain ⟨sorted, he, hasc', hperm'⟩ := hbelow.write val
  have hadd : addSample (m + 1) s val = ⟨sorted, xs.length + 1⟩ := by
    simp only [addSample, hcount, if_neg (Nat.not_lt.2 hfull), Nat.add_sub_cancel, if_pos hlt, he]
  have hmin : min (xs ++ [val]).length (m + 1) = m + 1 := by
    rw [List.length_append, Nat.min_eq_right (hfull.trans (Nat.le_add_right ..))]
  rw [first_succ] at hperm
  rw [hadd]
  refine ⟨by simp, by rwa [hmin], s.values m :: rest, ?_, ?_⟩
  · -- the greatest of the array goes to the others
    have hout : (first s.values m ++ [val] ++ s.values m :: rest).Perm
        (first s.values m ++ [s.values m] ++ rest ++ [val]) := by
      simp only [List.append_assoc, List.singleton_append]
      exact (List.perm_append_singleton val (s.values m :: rest)).symm.append_left _
    rw [hmin]
    exact (hperm'.append_right _).trans (hout.trans (hperm.append_right _))
  · rw [hmin]
    intro y hy b hb
    have hyw : y ≤ s.values m := by
      rcases List.mem_append.1 (hperm'.mem_iff.1 hy) with hy | hy
      · obtain ⟨i, hi, rfl⟩ := mem_first.1 hy
        exact hasc i m hi (Nat.lt_succ_self m)
      · rw [List.mem_singleton.1 hy]
        exact hlt.le
    rcases List.mem_cons.1 hb with rfl | hb
    · exact hyw
    · exact hyw.trans (hle _ hlast b hb)

/-- Any other measurement leaves a full array as it is. -/
theorem Best.addSample_other (B : Best (m + 1) s xs) (hfull : m + 1 ≤ xs.length)
    (hge : s.values m ≤ val) : Best (m + 1) (addSample (m + 1) s val) (xs ++ [val]) := by
  obtain ⟨hcount, hasc, rest, hperm, hle⟩ := B
  rw [Nat.min_eq_right hfull] at hasc hperm hle
  have hadd : addSample (m + 1) s val = ⟨s.values, xs.length + 1⟩ := by
    simp only [addSample, hcount, if_neg (Nat.not_lt.2 hfull), Nat.add_sub_cancel,
      if_neg (not_lt.2 hge), insertionSort]
  have hmin : min (xs ++ [val]).length (m + 1) = m + 1 := by
    rw [List.length_append, Nat.min_eq_right (hfull.trans (Nat.le_add_right ..))]
  rw [hadd]
  refine ⟨by simp, by rwa [hmin], rest ++ [val], ?_, ?_⟩
  · rw [hmin, ← List.append_assoc]
    exact hperm.append_right _
  · rw [hmin]
    intro y hy b hb
    rcases List.mem_append.1 hb with hb | hb
    · exact hle y hy b hb
    · rw [List.mem_singleton.1 hb]
      refine le_trans ?_ hge
      obtain ⟨i, hi, rfl⟩ := mem_first.1 hy
      rcases Nat.lt_succ_iff_lt_or_eq.1 hi with hi | rfl
      · exact hasc i m hi (Nat.lt_succ_self m)
      · exact le_rfl

/-- **Step lemma.** One more measurement. -/
theorem Best.addSample (B : Best k s xs) (hk : 0 < k) (val : α) :
    Best k (addSample k s val) (xs ++ [val]) := by
  rcases Nat.lt_or_ge xs.length k with hroom | hfull
  · exact B.addSample_room hroom val
  · obtain ⟨m, rfl⟩ : ∃ m, k = m + 1 := ⟨k - 1, by omega⟩
    rcases lt_or_ge val (s.values m) with hlt | hge
    · exact B.addSample_less hfull hlt
    · exact B.addSample_other hfull hge

/-! ## The loop -/

variable [Zero α]

/-- The array after `n` measurements. -/
theorem best_after (c : Settings α) (measure : Nat → α) (n : Nat) :
    Best c.kbest (after c measure n) ((List.range n).map measure) := by
  induction n with
  | zero => exact ⟨rfl, fun i j _ hj => by simp at hj, [], by simp [first], by simp [first]⟩
  | succ n ih =>
    rw [List.range_succ, List.map_append]
    exact ih.addSample c.kbest_pos (measure n)

example : first ([5, 3, 4, 1].foldl (addSample 3) (initSampler : Sampler Nat)).values 3 =
    [1, 3, 4] := by decide

/-- **Run lemma.** From `m` measurements on, the loop goes on to the first number of them at which
the array has converged, or to `maxsamples`. -/
theorem samples_after (c : Settings α) (measure : Nat → α) (m : Nat) :
    ∃ n, m < n ∧ n ≤ max (m + 1) c.maxsamples ∧
      samples c measure (after c measure m) = after c measure n ∧
      (∀ i, m < i → i < n → ¬ hasConverged c (after c measure i)) ∧
      (n < c.maxsamples → hasConverged c (after c measure n)) := by
  have hcount : ∀ i, (after c measure i).samplecount = i := fun i => by
    rw [(best_after c measure i).count, List.length_map, List.length_range]
  induction hd : c.maxsamples - m using Nat.strongRecOn generalizing m with
  | ind d ih =>
    have hnext : addSample c.kbest (after c measure m) (measure m) = after c measure (m + 1) := rfl
    rw [samples, hcount, hnext, hcount]
    split
    · next hgo =>
      obtain ⟨n, hn, hmax, hs, hnot, hconv⟩ := ih _ (by omega) (m + 1) rfl
      refine ⟨n, by omega, by omega, hs, fun i hmi hin => ?_, hconv⟩
      rcases Nat.lt_or_eq_of_le hmi with hi | rfl
      · exact hnot i hi hin
      · exact hgo.1
    · next hstop =>
      refine ⟨m + 1, by omega, Nat.le_max_left .., rfl, fun i hmi hin => by omega, fun hlt => ?_⟩
      by_contra hno
      exact hstop ⟨hno, hlt⟩

/-- **The estimate.** The loop ends after `n` measurements, at least one and at most `maxsamples`,
the first number of them at which the array has converged if there is one. Then the array holds the
`kbest` least of these in ascending order (`Best`), and the estimate is the least of all. Before
`maxsamples` it is close to the greatest of the `kbest` least ones. -/
theorem fcyc_least (c : Settings α) (measure : Nat → α) :
    ∃ n, samples c measure initSampler = after c measure n ∧ 0 < n ∧ n ≤ max 1 c.maxsamples ∧
      (∀ i, 0 < i → i < n → ¬ hasConverged c (after c measure i)) ∧
      (n < c.maxsamples → hasConverged c (after c measure n)) ∧
      Best c.kbest (after c measure n) ((List.range n).map measure) ∧
      (∃ i < n, measure i = fcyc c measure) ∧ (∀ i < n, fcyc c measure ≤ measure i) ∧
      (n < c.maxsamples → c.kbest ≤ n ∧
        (∀ i < c.kbest, (after c measure n).values i ≤ (after c measure n).values (c.kbest - 1)) ∧
        c.close (fcyc c measure) ((after c measure n).values (c.kbest - 1)) = true) := by
  obtain ⟨n, hn, hmax, hs, hnot, hconv⟩ := samples_after c measure 0
  have hres : fcyc c measure = (after c measure n).values 0 := congrArg (fun s => s.values 0) hs
  have B := best_after c measure n
  refine ⟨n, hs, hn, hmax, hnot, hconv, B, ?_⟩
  obtain ⟨hcount, hasc, rest, hperm, hle⟩ := B
  rw [List.length_map, List.length_range] at hcount hasc hperm hle
  have hk := c.kbest_pos
  have hzero : fcyc c measure ∈ first (after c measure n).values (min n c.kbest) :=
    mem_first.2 ⟨0, by omega, hres.symm⟩
  have hleast : ∀ y ∈ first (after c measure n).values (min n c.kbest), fcyc c measure ≤ y := by
    intro y hy
    obtain ⟨j, hj, rfl⟩ := mem_first.1 hy
    rw [hres]
    rcases Nat.eq_zero_or_pos j with rfl | hpos
    · exact le_rfl
    · exact hasc 0 j hpos hj
  refine ⟨?_, fun i hi => ?_, fun hlt => ?_⟩
  · obtain ⟨i, hi, he⟩ := List.mem_map.1 (hperm.mem_iff.1 (List.mem_append_left rest hzero))
    exact ⟨i, List.mem_range.1 hi, he⟩
  · have hm : measure i ∈ (List.range n).map measure :=
      List.mem_map_of_mem (List.mem_range.2 hi)
    rcases List.mem_append.1 (hperm.mem_iff.2 hm) with hm | hm
    · exact hleast _ hm
    · exact hle _ hzero _ hm
  · obtain ⟨hroom, hclose⟩ := hconv hlt
    rw [hcount] at hroom
    rw [Nat.min_eq_right hroom] at hasc
    refine ⟨hroom, fun i hi => ?_, hres ▸ hclose⟩
    rcases Nat.lt_or_eq_of_le (Nat.le_sub_one_of_lt hi) with hi | rfl
    · exact hasc i _ hi (by omega)
    · exact le_rfl

end

/-- Three measurements that are apart by one at most are enough. -/
def counterSettings : Settings Nat := { close := fun lo hi => hi ≤ lo + 1 }

/-- What the counter shows around the first calls. -/
def counter (i : Nat) : Nat := [10, 5, 9, 4, 5, 3].getD i 0

/-- The array converges at the fifth measurement, and the sixth is not taken. -/
theorem fcyc_least_counter : (samples counterSettings counter initSampler).samplecount = 5 ∧
    first (samples counterSettings counter initSampler).values 3 = [4, 5, 5] ∧
    fcyc counterSettings counter = 4 := by
  obtain ⟨n, hs, hn, -, hnot, hconv, -⟩ := fcyc_least counterSettings counter
  have hfive : hasConverged counterSettings (after counterSettings counter 5) := by decide
  have hless : ∀ i < 5, ¬ hasConverged counterSettings (after counterSettings counter i) := by
    decide
  have hle : n ≤ 5 := by
    by_contra hlt
    exact hnot 5 (by decide) (Nat.not_le.1 hlt) hfive
  have hge : 5 ≤ n := by
    by_contra hlt
    exact hless n (Nat.not_le.1 hlt) (hconv (Nat.lt_of_le_of_lt hle (by decide)))
  obtain rfl := Nat.le_antisymm hle hge
  rw [fcyc, hs]
  decide

end Fcyc
