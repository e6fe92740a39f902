import Mathlib.Algebra.Order.BigOperators.Ring.Finset
import Styrikerfi.Lib.Run
import Styrikerfi.Lib.Tally
import Styrikerfi.Thrlab.Help

/-!
# The record whatever its callers do

The checker must keep its own books straight on a shop that misuses it: any thread may make any call
on any customer that has arrived, in any order. `Thrlab.callStep` is the record under such calls and
`Outcome` what one call can do: it moves one customer on, or raises a counter and nothing else. The
three totals are the numbers of customers of each status, a room is occupied by a customer whose
hair is being cut and by nobody else, and a status moves only forward.
-/

namespace Barbershop

/-- A call under `thrlab->mtx`. -/
inductive Call where
  | arrive
  | accept (c : CustomerId)
  | reject (c : CustomerId)
  | prepare (self : Thread) (c : CustomerId) (room : Nat)
  | dismiss (self : Thread) (c : CustomerId) (room : Nat) (fast slow : Bool)
  | callbackEnd (c : CustomerId)

variable {t t' : Thrlab} {k : Call} {c : CustomerId}

/-- The customer a call is about has arrived. -/
def Call.arrived (t : Thrlab) : Call → Bool
  | .arrive => true
  | .accept c | .reject c | .prepare _ c _ | .dismiss _ c _ _ _ | .callbackEnd c =>
    c < t.customerCount

/-- The record after a call on a customer that has arrived. -/
def Thrlab.callStep (t : Thrlab) (k : Call) : Option Thrlab :=
  if k.arrived t then
    match k with
    | .arrive => t.arrive.map Prod.snd
    | .accept c => t.accept c
    | .reject c => t.reject c
    | .prepare self c room => t.prepare self c room
    | .dismiss self c room fast slow => t.dismiss self c room fast slow
    | .callbackEnd c => t.callbackEnd c
  else none

/-- The customers of a status. -/
def Thrlab.census (t : Thrlab) (st : Status) : Nat :=
  ((Finset.range t.customerCount).filter fun c => t.statuses c = st).card

/-- A status stays or moves forward. -/
inductive Status.Forward : Status → Status → Prop
  | same (st : Status) : Forward st st
  | accept : Forward .pending .waiting
  | reject : Forward .pending .rejected
  | prepare : Forward .waiting .cutting
  | dismiss : Forward .cutting .done

/-- What a call can do; `k` are the counters after it. -/
inductive Outcome (t : Thrlab) : Thrlab → Prop
  | counted (k : Complaint → Nat) : Outcome t { t with complaints := k }
  | arrived (hlt : t.customerCount < t.visitors) : Outcome t { t.setStatus t.customerCount .pending with
      customerCount := t.customerCount + 1, numPending := t.numPending + 1 }
  | accepted {c : CustomerId} (k : Complaint → Nat) (hc : c < t.customerCount)
      (hst : t.statuses c = .pending) :
      Outcome t { t.setStatus c .waiting with
        numWaiting := t.numWaiting + 1, numPending := sizeDec t.numPending, complaints := k }
  | rejected {c : CustomerId} (k : Complaint → Nat) (hc : c < t.customerCount)
      (hst : t.statuses c = .pending) :
      Outcome t { t.setStatus c .rejected with
        numPending := sizeDec t.numPending, complaints := k }
  | prepared {c : CustomerId} {room : Nat} (k : Complaint → Nat) (hc : c < t.customerCount)
      (hst : t.statuses c = .waiting) (hr : room < t.barbers) (ho : t.occupancy room = none) :
      Outcome t { (t.setOccupancy room (some c)).setStatus c .cutting with
        numCutting := t.numCutting + 1, numWaiting := sizeDec t.numWaiting, complaints := k }
  | dismissed {c : CustomerId} {room : Nat} (k : Complaint → Nat) (hc : c < t.customerCount)
      (hst : t.statuses c = .cutting) (hr : room < t.barbers) (ho : t.occupancy room = some c) :
      Outcome t { (t.setOccupancy room none).setStatus c .done with
        numCutting := sizeDec t.numCutting, complaints := k }

/-- A complaint raises counters and nothing else. -/
theorem Outcome.complain (t : Thrlab) (k : Complaint) : Outcome t (t.complain k) := .counted _

/-- A complaint that is made under a condition changes at most the counters. -/
theorem Thrlab.complain_if (t : Thrlab) (p : Prop) [Decidable p] (k : Complaint) :
    ∃ f, (if p then t.complain k else t) = { t with complaints := f } := by
  split
  · exact ⟨_, rfl⟩
  · exact ⟨t.complaints, rfl⟩

/-- A call does one of these. -/
theorem callStep_outcome (h : t.callStep k = some t') : Outcome t t' := by
  unfold Thrlab.callStep at h
  split at h
  · next harr =>
    cases k with
    | arrive =>
      obtain ⟨⟨c, t''⟩, ht, rfl⟩ := Option.map_eq_some_iff.1 h
      obtain ⟨rfl, hlt, rfl⟩ := Thrlab.arrive_eq ht
      exact .arrived hlt
    | accept c =>
      have hc : c < t.customerCount := of_decide_eq_true harr
      simp only [Thrlab.accept] at h
      split at h
      · cases h
        split
        · split
          · exact .accepted _ hc ‹_›
          · exact .accepted t.complaints hc ‹_›
        all_goals exact .complain ..
      · cases h
    | reject c =>
      have hc : c < t.customerCount := of_decide_eq_true harr
      simp only [Thrlab.reject] at h
      split at h
      · cases h
        split
        · split
          · exact .rejected _ hc ‹_›
          · exact .rejected t.complaints hc ‹_›
        all_goals exact .complain ..
      · cases h
    | prepare self c room =>
      have hc : c < t.customerCount := of_decide_eq_true harr
      obtain ⟨f, hf⟩ := t.complain_if (t.statuses c = .waiting ∧ self = .customer c) .prepareSelf
      simp only [Thrlab.prepare, hf] at h
      split at h
      · next hr =>
        cases h
        split
        · exact .complain ..
        · split
          · exact .counted _
          · split
            · exact .counted _
            · next ho => exact .prepared f hc ‹_› hr.2 (not_not.1 ho)
          all_goals exact .counted _
      · cases h
    | dismiss self c room fast slow =>
      have hc : c < t.customerCount := of_decide_eq_true harr
      obtain ⟨f, hf⟩ := t.complain_if (t.statuses c = .cutting ∧ self = .customer c) .dismissSelf
      obtain ⟨f₁, hf₁⟩ := { t with complaints := f }.complain_if (fast = true) .cutFast
      obtain ⟨f₂, hf₂⟩ := { t with complaints := f₁ }.complain_if (slow = true) .cutSlow
      simp only [Thrlab.dismiss, hf, hf₁, hf₂] at h
      split at h
      · next hr =>
        cases h
        split
        · exact .complain ..
        · next ho =>
          split
          · exact .counted _
          · exact .counted _
          · exact .dismissed f₂ hc ‹_› hr.2 (not_not.1 ho)
          · exact .counted _
          · exact .counted _
      · cases h
    | callbackEnd c =>
      simp only [Thrlab.callbackEnd] at h
      split at h
      · cases h
        split
        · exact .complain ..
        · exact .counted t.complaints
      · cases h
  · cases h

/-- The rooms hold exactly the customers whose hair is being cut. -/
structure Rooms (t : Thrlab) : Prop where
  occupied : ∀ r < t.barbers, ∀ c, t.occupancy r = some c →
    c < t.customerCount ∧ t.statuses c = .cutting
  placed : ∀ c < t.customerCount, t.statuses c = .cutting → ∃ r < t.barbers, t.occupancy r = some c
  alone : ∀ r < t.barbers, ∀ r' < t.barbers, ∀ c,
    t.occupancy r = some c → t.occupancy r' = some c → r = r'

/-- The books agree with the table of statuses and the rooms. -/
structure Books (t : Thrlab) : Prop where
  bound : t.customerCount ≤ t.visitors
  pending : t.numPending = t.census .pending
  waiting : t.numWaiting = t.census .waiting
  cutting : t.numCutting = t.census .cutting
  rooms : Rooms t

/-- The census is a tally of the table. -/
theorem census_eq (t : Thrlab) (st : Status) :
    t.census st = tally t.customerCount (fun x => if x = st then 1 else 0) t.statuses :=
  Finset.card_filter ..

/-- One customer's status changes. -/
theorem census_update {u : Thrlab} {x' : Status} (hc : c < t.customerCount)
    (hcount : u.customerCount = t.customerCount)
    (hst : u.statuses = Function.update t.statuses c x') (x : Status) :
    u.census x + (if t.statuses c = x then 1 else 0) = t.census x + (if x' = x then 1 else 0) := by
  rw [census_eq, census_eq, hcount, hst]
  exact tally_update hc x'

/-- A customer arrives. -/
theorem census_arrive {u : Thrlab} (hcount : u.customerCount = t.customerCount + 1)
    (hst : u.statuses = Function.update t.statuses t.customerCount .pending) (x : Status) :
    u.census x = t.census x + (if .pending = x then 1 else 0) := by
  unfold Thrlab.census
  rw [hcount, hst, Finset.card_filter, Finset.card_filter, Finset.sum_range_succ,
    Function.update_self]
  refine congrArg (· + _) (Finset.sum_congr rfl fun i hi => ?_)
  rw [Function.update_of_ne (Finset.mem_range.1 hi).ne]

/-- The decrement of a count that is not zero does not wrap. -/
theorem sizeDec_succ {n m : Nat} (h : m + 1 = n) : sizeDec n = m := by
  unfold sizeDec
  rw [if_neg (by omega)]
  omega

/-- The customers whose hair is being cut stay the same, and the rooms with them. -/
theorem Rooms.frame (h : Rooms t) (hB : t'.barbers = t.barbers)
    (hocc : t'.occupancy = t.occupancy)
    (hcut : ∀ c, t'.statuses c = .cutting ∧ c < t'.customerCount ↔
      t.statuses c = .cutting ∧ c < t.customerCount) : Rooms t' where
  occupied r hr c hc := by
    rw [hB] at hr
    rw [hocc] at hc
    exact ((hcut c).2 (h.occupied r hr c hc).symm).symm
  placed c hc hst := by
    rw [hB, hocc]
    obtain ⟨hst, hc⟩ := (hcut c).1 ⟨hst, hc⟩
    exact h.placed c hc hst
  alone := by
    rw [hB, hocc]
    exact h.alone

/-- A status away from the haircut leaves the rooms in order. -/
theorem Rooms.setStatus (h : Rooms t) {st : Status} (hold : t.statuses c ≠ .cutting)
    (hst : st ≠ .cutting) (hB : t'.barbers = t.barbers) (hocc : t'.occupancy = t.occupancy)
    (hcount : t'.customerCount = t.customerCount)
    (htab : t'.statuses = Function.update t.statuses c st) : Rooms t' := by
  refine h.frame hB hocc fun c' => ?_
  rw [hcount, htab]
  by_cases hcc : c' = c
  · subst hcc
    simp [hold, hst]
  · rw [Function.update_of_ne hcc]

/-- A customer that waits may take an empty room. -/
theorem Rooms.prepare (h : Rooms t) {room : Nat} (hc : c < t.customerCount)
    (hst : t.statuses c = .waiting) (hr : room < t.barbers) (ho : t.occupancy room = none)
    (hB : t'.barbers = t.barbers) (hocc : t'.occupancy = Function.update t.occupancy room (some c))
    (hcount : t'.customerCount = t.customerCount)
    (htab : t'.statuses = Function.update t.statuses c .cutting) : Rooms t' := by
  -- the customer was in no room, since it was waiting
  have hnone : ∀ r < t.barbers, t.occupancy r ≠ some c := fun r hr' hoc => by
    have := (h.occupied r hr' c hoc).2
    rw [hst] at this
    cases this
  constructor <;> rw [hB, hocc]
  · intro r hr' c' hoc
    rw [hcount, htab]
    by_cases hrr : r = room
    · rw [hrr, Function.update_self] at hoc
      cases hoc
      exact ⟨hc, Function.update_self ..⟩
    · rw [Function.update_of_ne hrr] at hoc
      have hcc : c' ≠ c := fun hcc => hnone r hr' (hcc ▸ hoc)
      rw [Function.update_of_ne hcc]
      exact h.occupied r hr' c' hoc
  · intro c' hc' hst'
    rw [hcount] at hc'
    rw [htab] at hst'
    by_cases hcc : c' = c
    · exact ⟨room, hr, by rw [hcc, Function.update_self]⟩
    · rw [Function.update_of_ne hcc] at hst'
      obtain ⟨r, hr', hoc⟩ := h.placed c' hc' hst'
      have hrr : r ≠ room := fun hrr => by simp [hrr, ho] at hoc
      exact ⟨r, hr', by rwa [Function.update_of_ne hrr]⟩
  · intro r hr₁ r' hr₂ c' h₁ h₂
    by_cases hcc : c' = c
    · subst hcc
      have hroom : ∀ {x}, x < t.barbers →
          Function.update t.occupancy room (some c') x = some c' → x = room := by
        intro x hx hox
        by_contra hne
        rw [Function.update_of_ne hne] at hox
        exact hnone x hx hox
      exact (hroom hr₁ h₁).trans (hroom hr₂ h₂).symm
    · have hold : ∀ {x}, Function.update t.occupancy room (some c) x = some c' →
          t.occupancy x = some c' := by
        intro x hox
        rw [Function.update_apply] at hox
        split at hox
        · exact absurd (Option.some.inj hox).symm hcc
        · exact hox
      exact h.alone r hr₁ r' hr₂ c' (hold h₁) (hold h₂)

/-- A customer may leave its room. -/
theorem Rooms.dismiss (h : Rooms t) {room : Nat} (hr : room < t.barbers)
    (ho : t.occupancy room = some c) (hB : t'.barbers = t.barbers)
    (hocc : t'.occupancy = Function.update t.occupancy room none)
    (hcount : t'.customerCount = t.customerCount)
    (htab : t'.statuses = Function.update t.statuses c .done) : Rooms t' := by
  have hold : ∀ {x c'}, Function.update t.occupancy room none x = some c' →
      x ≠ room ∧ t.occupancy x = some c' := by
    intro x c' hox
    rw [Function.update_apply] at hox
    split at hox
    · cases hox
    · exact ⟨‹_›, hox⟩
  constructor <;> rw [hB, hocc]
  · intro r hr' c' hoc
    obtain ⟨hrr, hoc⟩ := hold hoc
    have hcc : c' ≠ c := fun hcc => hrr (h.alone r hr' room hr c (hcc ▸ hoc) ho)
    rw [hcount, htab, Function.update_of_ne hcc]
    exact h.occupied r hr' c' hoc
  · intro c' hc' hst'
    rw [hcount] at hc'
    rw [htab] at hst'
    by_cases hcc : c' = c
    · rw [hcc, Function.update_self] at hst'
      cases hst'
    · rw [Function.update_of_ne hcc] at hst'
      obtain ⟨r, hr', hoc⟩ := h.placed c' hc' hst'
      have hrr : r ≠ room := fun hrr => hcc (Option.some.inj ((hrr ▸ hoc).symm.trans ho))
      exact ⟨r, hr', by rwa [Function.update_of_ne hrr]⟩
  · exact fun r hr₁ r' hr₂ c' h₁ h₂ => h.alone r hr₁ r' hr₂ c' (hold h₁).2 (hold h₂).2

/-- The books stay right. -/
theorem Books.next (h : Books t) (ho : Outcome t t') : Books t' := by
  cases ho with
  | counted k =>
    exact ⟨h.bound, h.pending, h.waiting, h.cutting, h.rooms.frame rfl rfl fun _ => .rfl⟩
  | arrived hlt =>
    have hcensus := census_arrive (t := t) (u := { t.setStatus t.customerCount .pending with
      customerCount := t.customerCount + 1, numPending := t.numPending + 1 }) rfl rfl
    refine ⟨hlt, ?_, ?_, ?_, h.rooms.frame rfl rfl fun c => ?_⟩
    · rw [hcensus, ← h.pending]; rfl
    · rw [hcensus, ← h.waiting]; rfl
    · rw [hcensus, ← h.cutting]; rfl
    · simp only [Thrlab.setStatus]
      by_cases hcc : c = t.customerCount
      · simp [hcc]
      · rw [Function.update_of_ne hcc]
        exact and_congr_right fun _ =>
          ⟨fun hlt => lt_of_le_of_ne (Nat.le_of_lt_succ hlt) hcc, Nat.lt_succ_of_lt⟩
  | accepted k hc hst =>
    have hcensus := census_update hc (u := { t.setStatus _ .waiting with
      numWaiting := t.numWaiting + 1, numPending := sizeDec t.numPending, complaints := k }) rfl rfl
    rw [hst] at hcensus
    refine ⟨h.bound, ?_, ?_, ?_, h.rooms.setStatus (by simp [hst]) (by decide) rfl rfl rfl rfl⟩
    · exact sizeDec_succ ((hcensus .pending).trans h.pending.symm)
    · exact (congrArg (· + 1) h.waiting).trans (hcensus .waiting).symm
    · exact h.cutting.trans (hcensus .cutting).symm
  | rejected k hc hst =>
    have hcensus := census_update hc (u := { t.setStatus _ .rejected with
      numPending := sizeDec t.numPending, complaints := k }) rfl rfl
    rw [hst] at hcensus
    refine ⟨h.bound, ?_, ?_, ?_, h.rooms.setStatus (by simp [hst]) (by decide) rfl rfl rfl rfl⟩
    · exact sizeDec_succ ((hcensus .pending).trans h.pending.symm)
    · exact h.waiting.trans (hcensus .waiting).symm
    · exact h.cutting.trans (hcensus .cutting).symm
  | @prepared c room k hc hst hr ho =>
    have hcensus := census_update hc
      (u := { (t.setOccupancy room (some c)).setStatus c .cutting with
        numCutting := t.numCutting + 1, numWaiting := sizeDec t.numWaiting, complaints := k })
      rfl rfl
    rw [hst] at hcensus
    refine ⟨h.bound, ?_, ?_, ?_, h.rooms.prepare hc hst hr ho rfl rfl rfl rfl⟩
    · exact h.pending.trans (hcensus .pending).symm
    · exact sizeDec_succ ((hcensus .waiting).trans h.waiting.symm)
    · exact (congrArg (· + 1) h.cutting).trans (hcensus .cutting).symm
  | @dismissed c room k hc hst hr ho =>
    have hcensus := census_update hc
      (u := { (t.setOccupancy room none).setStatus c .done with
        numCutting := sizeDec t.numCutting, complaints := k }) rfl rfl
    rw [hst] at hcensus
    refine ⟨h.bound, ?_, ?_, ?_, h.rooms.dismiss hr ho rfl rfl rfl rfl⟩
    · exact h.pending.trans (hcensus .pending).symm
    · exact h.waiting.trans (hcensus .waiting).symm
    · exact sizeDec_succ ((hcensus .cutting).trans h.cutting.symm)

/-- The books of an empty shop are in order. -/
theorem setup_books (visitors barbers chairs : Nat) : Books (.setup visitors barbers chairs) := by
  refine ⟨Nat.zero_le _, rfl, rfl, rfl, ?_, ?_, ?_⟩ <;> simp [Thrlab.setup]

/-- No status has more customers than there are. -/
theorem Thrlab.census_le (t : Thrlab) (st : Status) : t.census st ≤ t.customerCount :=
  (Finset.card_filter_le _ _).trans (Finset.card_range _).le

/-- A call takes the status of a customer that has arrived nowhere but forward. -/
theorem Outcome.forward (h : Outcome t t') (hc : c < t.customerCount) :
    (t.statuses c).Forward (t'.statuses c) := by
  have hupdate : ∀ {c₀ : CustomerId} {st : Status}, (t.statuses c₀).Forward st →
      (t.statuses c).Forward (Function.update t.statuses c₀ st c) := by
    intro c₀ st hf
    by_cases hcc : c = c₀
    · rw [hcc, Function.update_self]
      exact hf
    · rw [Function.update_of_ne hcc]
      exact .same _
  cases h with
  | counted k => exact .same _
  | arrived =>
    simp only [Thrlab.setStatus]
    rw [Function.update_of_ne hc.ne]
    exact .same _
  | accepted k _ hst => exact hupdate (hst ▸ .accept)
  | rejected k _ hst => exact hupdate (hst ▸ .reject)
  | prepared k _ hst => exact hupdate (hst ▸ .prepare)
  | dismissed k _ hst => exact hupdate (hst ▸ .dismiss)

/-- The books are in order after any calls. -/
theorem reachable_books {visitors barbers chairs : Nat}
    (h : Reachable Thrlab.callStep (.setup visitors barbers chairs) t) : Books t :=
  h.invariant (setup_books visitors barbers chairs) fun hB hst => hB.next (callStep_outcome hst)

/-- **The bookkeeping.** Whatever calls are made, by whom and in what order: the three totals count
the customers of each status and stay below the number of visitors, the rooms hold exactly the
customers being cut, each in one room, and the next call moves a status nowhere but forward. -/
theorem bookkeeping {visitors barbers chairs : Nat}
    (h : Reachable Thrlab.callStep (.setup visitors barbers chairs) t) :
    (t.numPending = t.census .pending ∧ t.numWaiting = t.census .waiting ∧
      t.numCutting = t.census .cutting) ∧
    (t.numPending ≤ t.visitors ∧ t.numWaiting ≤ t.visitors ∧ t.numCutting ≤ t.visitors) ∧
    (∀ room < t.barbers, ∀ c, t.occupancy room = some c → t.statuses c = .cutting) ∧
    (∀ c < t.customerCount, t.statuses c = .cutting →
      ∃! room, room < t.barbers ∧ t.occupancy room = some c) ∧
    ∀ k t', t.callStep k = some t' →
      ∀ c < t.customerCount, (t.statuses c).Forward (t'.statuses c) := by
  have hB := reachable_books h
  have hle : ∀ st, t.census st ≤ t.visitors := fun st => (t.census_le st).trans hB.bound
  refine ⟨⟨hB.pending, hB.waiting, hB.cutting⟩, ⟨hB.pending ▸ hle _, hB.waiting ▸ hle _,
    hB.cutting ▸ hle _⟩, fun r hr c hc => (hB.rooms.occupied r hr c hc).2, fun c hc hst => ?_,
    fun k t' hst c hc => (callStep_outcome hst).forward hc⟩
  obtain ⟨r, hr, ho⟩ := hB.rooms.placed c hc hst
  exact ⟨r, ⟨hr, ho⟩, fun r' h' => hB.rooms.alone r' h'.1 r hr c h'.2 ho⟩

/-- Two customers arrive, a barber prepares one that is not accepted, and then both are served out
of order. -/
theorem bookkeeping_misused : ∃ t, exec Thrlab.callStep (.setup 2 1 1)
      [.arrive, .arrive, .prepare (.barber 0) 0 0, .accept 0, .prepare (.barber 0) 0 0,
        .accept 1, .prepare (.barber 0) 1 0, .reject 0] = some t ∧
    t.statuses 0 = .cutting ∧ t.statuses 1 = .waiting ∧
    t.numWaiting = t.census .waiting ∧ t.numCutting = t.census .cutting := by
  obtain ⟨t, ht, h0, h1⟩ : ∃ t, exec Thrlab.callStep (.setup 2 1 1)
      [.arrive, .arrive, .prepare (.barber 0) 0 0, .accept 0, .prepare (.barber 0) 0 0,
        .accept 1, .prepare (.barber 0) 1 0, .reject 0] = some t ∧
      t.statuses 0 = .cutting ∧ t.statuses 1 = .waiting := ⟨_, rfl, by decide, by decide⟩
  have hbook := bookkeeping (Reachable.start.exec ht)
  exact ⟨t, ht, h0, h1, hbook.1.2⟩

end Barbershop
