import Mathlib.Data.Fintype.Card
import Styrikerfi.Tsh.Jobs

/-!
# Job identifiers over the calls

Which identifiers the jobs get is decided by the calls of `addjob` and `deletejob`. A deletion
begins a stretch of additions (`Stretch`): the identifiers go on from the largest one still listed,
up to `maxjobs` and one at least, and then restart at 1. So the job lists of a run identify their
jobs exactly when no stretch of it restarts onto a job that was listed when it began
(`jids_identify_iff`), and fifteen jobs, a deletion and two jobs more are enough for that
(`jids_collide`).
-/

namespace Tsh

/-! ## Stretches -/

/-- The call puts a job on the list, for which a slot is free. -/
def JobList.Puts (l : JobList) : JobCall → Prop
  | .addjob _ _ _ => ∃ i, ¬ l.Occupied i
  | .deletejob _ => False

/-- The call takes a job off the list. -/
def JobList.Takes (l : JobList) : JobCall → Prop
  | .addjob _ _ _ => False
  | .deletejob pid => 1 ≤ pid ∧ ∃ i, (l.jobs i).pid = pid

instance (l : JobList) : (k : JobCall) → Decidable (l.Puts k)
  | .addjob _ _ _ => inferInstanceAs (Decidable (∃ _, _))
  | .deletejob _ => inferInstanceAs (Decidable False)

instance (l : JobList) : (k : JobCall) → Decidable (l.Takes k)
  | .addjob _ _ _ => inferInstanceAs (Decidable False)
  | .deletejob _ => inferInstanceAs (Decidable (_ ∧ _))

/-- The jobs listed after the last deletion, and how many have been added since. -/
structure Stretch where
  listed : JobList
  added : Nat

/-- The stretch after a call on the list `l`. -/
def Stretch.next (s : Stretch) (l : JobList) (k : JobCall) : Stretch :=
  match k with
  | .addjob pid state cmdline =>
    if l.Puts (.addjob pid state cmdline) then { s with added := s.added + 1 } else s
  | .deletejob pid => if l.Takes (.deletejob pid) then ⟨(l.deletejob pid).2, 0⟩ else s

/-- The stretch that a run of calls ends in. -/
def Stretch.after (s : Stretch) (tr : List (JobList × JobCall)) : Stretch :=
  tr.foldl (fun s x => s.next x.1 x.2) s

/-- How many jobs of the stretch get an identifier above those that were listed. -/
def Stretch.rising (s : Stretch) : Int := max 1 (maxjobs - s.listed.maxjid)

/-- The identifier of job `j` of the stretch, from 0 on: they go on from the largest one that was
listed, and then restart at 1. -/
def Stretch.given (s : Stretch) (j : Nat) : Int :=
  if j < s.rising then s.listed.maxjid + 1 + j else j - s.rising + 1

/-- The next job of the stretch gets an identifier of its own: identifiers are an `int` still, and
they have not restarted onto a job that was listed. -/
def Stretch.New (s : Stretch) : Prop :=
  s.listed.maxjid + min s.added 1 + 1 < 2 ^ 31 ∧
    (s.rising ≤ s.added → ∀ i, s.listed.Occupied i → (s.listed.jobs i).jid ≠ s.given s.added)

instance (s : Stretch) : Decidable s.New := inferInstanceAs (Decidable (_ ∧ _))

/-- Every job that the calls add gets an identifier of its own. -/
def Stretch.AllNew : Stretch → List (JobList × JobCall) → Prop
  | _, [] => True
  | s, (l, k) :: tr => (l.Puts k → s.New) ∧ (s.next l k).AllNew tr

instance Stretch.decidableAllNew :
    (s : Stretch) → (tr : List (JobList × JobCall)) → Decidable (s.AllNew tr)
  | _, [] => inferInstanceAs (Decidable True)
  | s, (l, k) :: tr =>
    have := (s.next l k).decidableAllNew tr
    inferInstanceAs (Decidable (_ ∧ _))

section
variable {s : Stretch} {l l' : JobList} {k : JobCall} {tr : List (JobList × JobCall)}

/-- The condition on one call more. -/
theorem Stretch.allNew_concat (s : Stretch) (tr : List (JobList × JobCall)) (l : JobList)
    (k : JobCall) :
    s.AllNew (tr ++ [(l, k)]) ↔ s.AllNew tr ∧ (l.Puts k → (s.after tr).New) := by
  induction tr generalizing s with
  | nil => simp [AllNew, after]
  | cons x tr ih =>
    have hafter : s.after (x :: tr) = (s.next x.1 x.2).after tr := rfl
    rw [List.cons_append, AllNew, AllNew, ih, hafter, and_assoc]

/-- The stretch after one call more. -/
theorem Stretch.after_concat (s : Stretch) (tr : List (JobList × JobCall)) (l : JobList)
    (k : JobCall) : s.after (tr ++ [(l, k)]) = (s.after tr).next l k := by
  rw [after, after, List.foldl_append]
  rfl

/-! ## The counter and the stretch -/

/-- The list `l` is the one that the stretch began with and the jobs added to it: the slots listed
then are as they were, the others hold jobs of the stretch, and `nextjid` is the identifier of the
next one, as far as that is an `int`. -/
structure Stretch.Holds (s : Stretch) (l : JobList) : Prop where
  int : s.listed.maxjid + min s.added 1 + 1 < 2 ^ 31 → l.nextjid = s.given s.added
  wrapped : ¬ s.listed.maxjid + min s.added 1 + 1 < 2 ^ 31 → l.nextjid < 1
  kept : ∀ i, s.listed.Occupied i → l.jobs i = s.listed.jobs i
  fresh : ∀ i, l.Occupied i → ¬ s.listed.Occupied i → ∃ j < s.added, (l.jobs i).jid = s.given j
  count : s.added ≤ (Finset.univ.filter fun i => l.Occupied i).card

/-- Identifiers of one stretch are different while a slot is free. -/
theorem Stretch.given_ne (s : Stretch) {j n : Nat} (hj : j < n) (hn : n < maxjobs) :
    s.given j ≠ s.given n := by
  have hm := s.listed.maxjid_nonneg
  unfold given rising
  split <;> split <;> omega

/-- Identifiers are positive. -/
theorem Stretch.given_pos (s : Stretch) (n : Nat) : 1 ≤ s.given n := by
  have hm := s.listed.maxjid_nonneg
  unfold given
  split <;> omega

/-- With a free slot, fewer jobs have been added than there are slots. -/
theorem Stretch.Holds.added_lt (H : s.Holds l) {i : Fin maxjobs} (hi : ¬ l.Occupied i) :
    s.added < maxjobs := by
  have hlt : (Finset.univ.filter fun i => l.Occupied i).card < maxjobs := by
    have := Finset.card_lt_univ_of_notMem (s := Finset.univ.filter fun i => l.Occupied i)
      (x := i) (by simpa using hi)
    rwa [Fintype.card_fin] at this
  exact Nat.lt_of_le_of_lt H.count hlt

/-- The identifier given next is free exactly when it is new to the stretch. -/
theorem Stretch.Holds.free_iff (H : s.Holds l) {i : Fin maxjobs} (hi : ¬ l.Occupied i) :
    (1 ≤ l.nextjid ∧ ∀ i, l.Occupied i → (l.jobs i).jid ≠ l.nextjid) ↔ s.New := by
  constructor
  · rintro ⟨hpos, hfree⟩
    have hint : s.listed.maxjid + min s.added 1 + 1 < 2 ^ 31 := by
      by_contra hover
      have := H.wrapped hover
      omega
    refine ⟨hint, fun _ a ha hjid => ?_⟩
    have hocc : l.Occupied a := by
      rw [JobList.Occupied, H.kept a ha]
      exact ha
    exact hfree a hocc (by rw [H.kept a ha, hjid, H.int hint])
  · rintro ⟨hint, hnew⟩
    rw [H.int hint]
    refine ⟨s.given_pos _, fun a ha hjid => ?_⟩
    by_cases hold : s.listed.Occupied a
    · rw [H.kept a hold] at hjid
      by_cases hrise : s.rising ≤ s.added
      · exact hnew hrise a hold hjid
      · -- an identifier above all that were listed
        have hle := s.listed.le_maxjid a
        rw [given, if_pos (not_le.1 hrise)] at hjid
        omega
    · obtain ⟨j, hj, he⟩ := H.fresh a ha hold
      exact s.given_ne hj (H.added_lt hi) (he.symm.trans hjid)

/-- A call gives no identifier in use exactly when it gives none, or one that is new to the
stretch. -/
theorem Stretch.Holds.jidFree_iff (H : s.Holds l) (k : JobCall) :
    l.JidFree k ↔ (l.Puts k → s.New) := by
  cases k with
  | addjob pid state cmdline =>
    refine forall_congr' fun hfree => ?_
    obtain ⟨i, hi⟩ := hfree
    exact H.free_iff hi
  | deletejob pid => exact iff_of_true trivial fun hputs => hputs.elim

/-- The counter after a job has been added. -/
theorem Stretch.given_succ (s : Stretch) {nextjid : Int} (hn : s.added < maxjobs)
    (hint : s.listed.maxjid + min s.added 1 + 1 < 2 ^ 31) (hnext : nextjid = s.given s.added) :
    (s.listed.maxjid + 2 < 2 ^ 31 →
      (if Tsh.int (nextjid + 1) > maxjobs then 1 else Tsh.int (nextjid + 1)) =
        s.given (s.added + 1)) ∧
      (¬ s.listed.maxjid + 2 < 2 ^ 31 →
        (if Tsh.int (nextjid + 1) > maxjobs then 1 else Tsh.int (nextjid + 1)) < 1) := by
  have hm := s.listed.maxjid_nonneg
  have hpos := s.given_pos s.added
  have hmax : (maxjobs : Int) = 16 := rfl
  by_cases hlast : nextjid + 1 < 2 ^ 31
  · rw [int_of_lt (by omega) hlast, hnext]
    rw [hnext] at hlast
    unfold given rising at *
    constructor
    · intro _
      split <;> split <;> split at hlast <;> omega
    · intro hno
      split at hlast <;> omega
  · -- the largest `int` has been given
    have hbig : nextjid + 1 = 2 ^ 31 := by
      rw [hnext] at hlast ⊢
      unfold given rising at *
      split at hlast <;> omega
    rw [hbig]
    have hwrap : Tsh.int (2 ^ 31) = -2 ^ 31 := by decide
    rw [hwrap]
    rw [hnext] at hbig
    unfold given rising at *
    constructor
    · intro hyes
      split at hbig <;> omega
    · intro _
      decide

/-- The identifiers and the counter are `int`s. -/
structure JobList.Ints (l : JobList) : Prop where
  jobs : ∀ i, (l.jobs i).jid < 2 ^ 31
  nextjid : l.nextjid < 2 ^ 31

/-- An `int` is below its bound. -/
theorem int_lt (n : Int) : Tsh.int n < 2 ^ 31 := Int.bmod_lt (by decide)

/-- One entry is written, with an `int` for an identifier. -/
theorem JobList.Ints.update (h : l.Ints) (i : Fin maxjobs) {job : Job} {n : Int}
    (hjob : job.jid < 2 ^ 31) (hn : n < 2 ^ 31) :
    JobList.Ints ⟨Function.update l.jobs i job, n⟩ := by
  refine ⟨fun a => ?_, hn⟩
  dsimp only
  by_cases hai : a = i
  · rwa [hai, Function.update_self]
  · rw [Function.update_of_ne hai]
    exact h.jobs a

/-- A call on a list of `int`s. -/
theorem JobList.Ints.next (h : l.Ints) (hst : l.callStep k = some l') : l'.Ints := by
  cases k with
  | addjob pid state cmdline =>
    simp only [JobList.callStep] at hst
    split at hst
    case isFalse => cases hst
    case isTrue hpid =>
      obtain rfl := Option.some.inj hst
      obtain ⟨i, -, heq⟩ | ⟨-, heq⟩ := l.addjob_puts hpid.1 state cmdline
      · rw [heq]
        refine h.update i h.nextjid ?_
        split
        · decide
        · exact int_lt _
      · rwa [heq]
  | deletejob pid =>
    obtain rfl := Option.some.inj hst
    obtain ⟨i, -, -, heq⟩ | ⟨-, heq⟩ := l.deletejob_takes pid
    · rw [heq]
      exact h.update i (by decide) (int_lt _)
    · rwa [heq]

/-- A stretch begins with what a deletion leaves, or with the empty list. -/
theorem Stretch.Holds.begin (hnext : l.nextjid = Tsh.int (l.maxjid + 1))
    (hint : l.Ints) : Stretch.Holds ⟨l, 0⟩ l := by
  have hm := l.maxjid_nonneg
  have hlt : l.maxjid < 2 ^ 31 := l.maxjid_lt (by decide) hint.jobs
  have hrise : ((0 : Nat) : Int) < Stretch.rising ⟨l, 0⟩ := by
    unfold rising
    omega
  refine ⟨fun h => ?_, fun h => ?_, fun _ _ => rfl, fun i hi hn => absurd hi hn, Nat.zero_le _⟩
  · dsimp only at h
    rw [hnext, int_of_lt (by omega) (by omega), given, if_pos hrise]
    dsimp only
    omega
  · dsimp only at h
    have hbig : l.maxjid + 1 = 2 ^ 31 := by omega
    rw [hnext, hbig]
    decide

/-- A job is added to the stretch. -/
theorem Stretch.Holds.addjob (H : s.Holds l) (hnew : s.New) {i : Fin maxjobs} {pid : Int}
    {state : JobState} {cmdline : String} (hpid : 1 ≤ pid) (hi : ¬ l.Occupied i) :
    Stretch.Holds { s with added := s.added + 1 }
      ⟨Function.update l.jobs i ⟨pid, l.nextjid, state, cmdline⟩,
        if Tsh.int (l.nextjid + 1) > maxjobs then 1 else Tsh.int (l.nextjid + 1)⟩ := by
  obtain ⟨hint, hover⟩ := s.given_succ (H.added_lt hi) hnew.1 (H.int hnew.1)
  refine ⟨fun h => hint ?_, fun h => hover ?_, fun a ha => ?_, fun a ha hn => ?_, ?_⟩
  · dsimp only at h
    omega
  · dsimp only at h
    omega
  · have hai : a ≠ i := by
      rintro rfl
      refine hi ?_
      rw [JobList.Occupied, H.kept a ha]
      exact ha
    dsimp only
    rw [Function.update_of_ne hai]
    exact H.kept a ha
  · by_cases hai : a = i
    · refine ⟨s.added, Nat.lt_succ_self _, ?_⟩
      dsimp only
      rw [hai, Function.update_self]
      exact H.int hnew.1
    · simp only [JobList.Occupied, Function.update_of_ne hai] at ha ⊢
      obtain ⟨j, hj, he⟩ := H.fresh a ha hn
      exact ⟨j, Nat.lt_succ_of_lt hj, he⟩
  · have hocc : (Finset.univ.filter fun a => JobList.Occupied
        ⟨Function.update l.jobs i ⟨pid, l.nextjid, state, cmdline⟩,
          if Tsh.int (l.nextjid + 1) > maxjobs then 1 else Tsh.int (l.nextjid + 1)⟩ a) =
        insert i (Finset.univ.filter fun a => l.Occupied a) := by
      ext a
      rw [Finset.mem_insert, Finset.mem_filter_univ, Finset.mem_filter_univ]
      by_cases hai : a = i
      · refine iff_of_true ?_ (.inl hai)
        rw [hai, JobList.Occupied]
        dsimp only
        rw [Function.update_self]
        exact show pid ≠ 0 by omega
      · simp only [JobList.Occupied, Function.update_of_ne hai, hai, false_or]
    rw [hocc, Finset.card_insert_of_notMem (by simpa using hi)]
    exact Nat.succ_le_succ H.count

/-- **Step lemma.** A call that gives an identifier of its own, if it gives one, leads on to the
stretch after it. -/
theorem Stretch.Holds.next (H : s.Holds l) (hint : l.Ints) (hnew : l.Puts k → s.New)
    (hst : l.callStep k = some l') : (s.next l k).Holds l' := by
  have hint' := hint.next hst
  cases k with
  | addjob pid state cmdline =>
    simp only [JobList.callStep] at hst
    split at hst
    case isFalse => cases hst
    case isTrue hpid =>
      obtain rfl := Option.some.inj hst
      obtain ⟨i, hi, heq⟩ | ⟨hfull, heq⟩ := l.addjob_puts hpid.1 state cmdline
      · have hputs : l.Puts (.addjob pid state cmdline) := ⟨i, hi⟩
        rw [Stretch.next, if_pos hputs, heq]
        exact H.addjob (hnew hputs) hpid.1 hi
      · have hno : ¬ l.Puts (.addjob pid state cmdline) := by
          rintro ⟨i, hi⟩
          exact hi (hfull i)
        rw [Stretch.next, if_neg hno, heq]
        exact H
  | deletejob pid =>
    obtain rfl := Option.some.inj hst
    rw [Stretch.next]
    obtain ⟨i, hpid, hi, heq⟩ | ⟨hnone, heq⟩ := l.deletejob_takes pid
    · rw [if_pos (show l.Takes (.deletejob pid) from ⟨hpid, i, hi⟩)]
      refine .begin ?_ hint'
      rw [heq]
      rfl
    · have hno : ¬ l.Takes (.deletejob pid) := by
        rintro ⟨hpid, i, hi⟩
        exact hnone hpid i hi
      rw [if_neg hno, heq]
      exact H

/-! ## Runs -/

/-- **Job identifiers.** In a run of calls on the job list from `initjobs`, identifiers identify the
jobs in every state reached exactly when every job added gets an identifier of its own: in its
stretch of additions the identifiers have not restarted onto a job that was listed when it began. -/
theorem jids_identify_iff (h : Run JobList.callStep initjobs tr l) :
    ((∀ x ∈ tr, x.1.Identified) ∧ l.Identified) ↔ Stretch.AllNew ⟨initjobs, 0⟩ tr := by
  refine (h.invariant (I := fun tr l => (l.Cleared ∧ l.Ints) ∧
    ((∀ x ∈ tr, x.1.Identified) ∧ l.Identified →
      (Stretch.after ⟨initjobs, 0⟩ tr).Holds l) ∧
    (((∀ x ∈ tr, x.1.Identified) ∧ l.Identified) ↔ Stretch.AllNew ⟨initjobs, 0⟩ tr)) ?_ ?_).2.2
  · have hint : initjobs.Ints := ⟨fun _ => (by decide : clearjob.jid < 2 ^ 31), by decide⟩
    refine ⟨⟨initjobs_cleared, hint⟩, fun _ => .begin (by decide) hint,
      iff_of_true ⟨fun x hx => absurd hx List.not_mem_nil, ?_⟩ trivial⟩
    exact initjobs_cleared.identified (fun i hi => absurd rfl hi) fun i _ hi => absurd rfl hi
  · rintro tr l k l' ⟨⟨hc, hint⟩, hholds, hiff⟩ hst
    have hfree : (∀ x ∈ tr, x.1.Identified) ∧ l.Identified →
        (l'.Identified ↔ (l.Puts k → (Stretch.after ⟨initjobs, 0⟩ tr).New)) := fun hid =>
      (hid.2.next_iff hc hst).trans ((hholds hid).jidFree_iff k)
    refine ⟨⟨hc.next_call hst, hint.next hst⟩, ?_, ?_⟩
    · rw [List.forall_mem_append, Stretch.after_concat]
      rintro ⟨⟨htr, hl⟩, hl'⟩
      have hid := And.intro htr (hl _ List.mem_cons_self)
      exact (hholds hid).next hint ((hfree hid).1 hl') hst
    · rw [List.forall_mem_append, Stretch.allNew_concat, ← hiff]
      simp only [List.mem_singleton, forall_eq]
      constructor
      · rintro ⟨⟨htr, hl⟩, hl'⟩
        exact ⟨⟨htr, hl⟩, (hfree ⟨htr, hl⟩).1 hl'⟩
      · rintro ⟨⟨htr, hl⟩, hnew⟩
        exact ⟨⟨htr, hl⟩, (hfree ⟨htr, hl⟩).2 hnew⟩

end

/-- Fifteen jobs are added, the first is deleted, and two more are added: the second of them gets
the identifier 1, which is free. -/
theorem jids_identify_iff_two : ∃ tr l, Run JobList.callStep initjobs tr l ∧ tr.length = 18 ∧
    l.Identified ∧ (l.jobs 0).pid = 16 ∧ (l.jobs 0).jid = 16 ∧ (l.jobs 15).pid = 17 ∧
    (l.jobs 15).jid = 1 := by
  have he : exec JobList.callStep initjobs ((List.range 15).map (fun n =>
      JobCall.addjob (n + 1 : Nat) .bg "") ++
    [.deletejob 1, .addjob 16 .bg "", .addjob 17 .bg ""]) = some _ := rfl
  refine ⟨_, _, Run.start.exec he, rfl, ((jids_identify_iff (Run.start.exec he)).2 ?_).2, ?_⟩
  · decide +kernel
  · decide +kernel

/-- Fifteen jobs are added, the second is deleted, and two more are added. -/
def wrappingCalls : List JobCall :=
  (List.range 15).map (fun n => .addjob (n + 1 : Nat) .bg "") ++
    [.deletejob 2, .addjob 16 .bg "", .addjob 17 .bg ""]

/-- The job added last has the identifier of the first, and `getjobjid` returns the first. -/
theorem jids_collide : ∃ l i j, Reachable JobList.callStep initjobs l ∧ l.Occupied i ∧
    l.Occupied j ∧ i ≠ j ∧ (l.jobs i).jid = (l.jobs j).jid ∧
    l.getjobjid (l.jobs j).jid = some i := by
  have he : exec JobList.callStep initjobs wrappingCalls = some _ := rfl
  exact ⟨_, 0, 15, Reachable.start.exec he, by decide +kernel, by decide +kernel, by decide,
    by decide +kernel, by decide +kernel⟩

end Tsh
