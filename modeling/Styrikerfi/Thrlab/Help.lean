import Mathlib.Algebra.Ring.Nat
import Mathlib.Logic.Function.Basic

/-!
# The barbershop's bookkeeping

`help.c`: what each `thrlab_*` call does to the shared record under `thrlab->mtx`. A customer is the
identifier `add_customer` gives, which stands for the pointer too, since each customer is allocated
once. A failed assertion is `none`. The two counters of haircuts that took the wrong time depend on
a clock, so `dismiss` is told the outcome of its two comparisons.
-/

namespace Barbershop

/-- A customer, by the index in `thrlab->customers`. -/
abbrev CustomerId := Nat

/-- `enum customer_status` -/
inductive Status where
  | pending | waiting | cutting | done | rejected
  deriving DecidableEq

/-- The complaint counters. -/
inductive Complaint where
  | rejectAvail | rejectWait | rejectCut | rejectDone | rejectAgain
  | acceptFull | acceptWait | acceptCut | acceptDone | acceptReject
  | preparePending | prepareBusy | prepareAgain | prepareDone | prepareReject | prepareSelf
  | dismissPending | dismissWait | dismissDone | dismissReject | dismissRoom | dismissSelf
  | dismissEarly | cutFast | cutSlow
  deriving DecidableEq

/-- The thread that makes a call. -/
inductive Thread where
  | main
  | customer (c : CustomerId)
  | barber (room : Nat)
  deriving DecidableEq

/-- `struct thrlab` -/
structure Thrlab where
  visitors : Nat
  barbers : Nat
  chairs : Nat
  customerCount : Nat
  statuses : CustomerId → Status
  /-- the customer in each room, `none` for `NULL` -/
  occupancy : Nat → Option CustomerId
  numCutting : Nat
  numWaiting : Nat
  numPending : Nat
  complaints : Complaint → Nat

/-- `--n` on a `size_t`. -/
def sizeDec (n : Nat) : Nat := if n = 0 then 2 ^ 64 - 1 else n - 1

/-- `++thrlab->complaint_k` -/
def Thrlab.complain (t : Thrlab) (k : Complaint) : Thrlab :=
  { t with complaints := Function.update t.complaints k (t.complaints k + 1) }

/-- `thrlab->statuses[c] = st` -/
def Thrlab.setStatus (t : Thrlab) (c : CustomerId) (st : Status) : Thrlab :=
  { t with statuses := Function.update t.statuses c st }

/-- `thrlab->occupancy[room] = o` -/
def Thrlab.setOccupancy (t : Thrlab) (room : Nat) (o : Option CustomerId) : Thrlab :=
  { t with occupancy := Function.update t.occupancy room o }

/-- Adds a customer and returns its identifier. -/
def Thrlab.addCustomer (t : Thrlab) (st : Status) : Option (CustomerId × Thrlab) :=
  if t.customerCount < t.visitors then
    some (t.customerCount, { t.setStatus t.customerCount st with customerCount := t.customerCount + 1 })
  else none

/-- The locked part of an arrival in `thrlab_wait_for_customers`. -/
def Thrlab.arrive (t : Thrlab) : Option (CustomerId × Thrlab) :=
  (t.addCustomer .pending).map fun (c, t) => (c, { t with numPending := t.numPending + 1 })

/-- Accept the customer and place him in the waiting room. -/
def Thrlab.accept (t : Thrlab) (c : CustomerId) : Option Thrlab :=
  if c < t.visitors then
    some <| match t.statuses c with
      | .pending =>
        let t := if t.chairs ≤ t.numWaiting then t.complain .acceptFull else t
        let t := t.setStatus c .waiting
        { t with numWaiting := t.numWaiting + 1, numPending := sizeDec t.numPending }
      | .waiting => t.complain .acceptWait
      | .cutting => t.complain .acceptCut
      | .done => t.complain .acceptDone
      | .rejected => t.complain .acceptReject
  else none

/-- Reject the customer; the waiting room's full. -/
def Thrlab.reject (t : Thrlab) (c : CustomerId) : Option Thrlab :=
  if c < t.visitors then
    some <| match t.statuses c with
      | .pending =>
        let t := if t.numWaiting < t.chairs then t.complain .rejectAvail else t
        let t := t.setStatus c .rejected
        { t with numPending := sizeDec t.numPending }
      | .waiting => t.complain .rejectWait
      | .cutting => t.complain .rejectCut
      | .done => t.complain .rejectDone
      | .rejected => t.complain .rejectAgain
  else none

/-- Prepare the customer for a haircut in room `room`, on a call by the thread `self`. -/
def Thrlab.prepare (t : Thrlab) (self : Thread) (c : CustomerId) (room : Nat) : Option Thrlab :=
  if c < t.visitors ∧ room < t.barbers then
    some <|
      if t.occupancy room ≠ none ∧ t.occupancy room ≠ some c then t.complain .prepareBusy
      else
        let t := if t.statuses c = .waiting ∧ self = .customer c then t.complain .prepareSelf else t
        match t.statuses c with
        | .pending => t.complain .preparePending
        | .waiting =>
          if t.occupancy room ≠ none then t.complain .prepareBusy
          else
            let t := t.setOccupancy room (some c)
            let t := t.setStatus c .cutting
            { t with numCutting := t.numCutting + 1, numWaiting := sizeDec t.numWaiting }
        | .cutting => t.complain .prepareAgain
        | .done => t.complain .prepareDone
        | .rejected => t.complain .prepareReject
  else none

/-- Dismiss the customer from room `room`; their hair has been cut. The cut was too fast, or too
slow. -/
def Thrlab.dismiss (t : Thrlab) (self : Thread) (c : CustomerId) (room : Nat) (fast slow : Bool) :
    Option Thrlab :=
  if c < t.visitors ∧ room < t.barbers then
    some <|
      if t.occupancy room ≠ some c then t.complain .dismissRoom
      else
        let t := if t.statuses c = .cutting ∧ self = .customer c then t.complain .dismissSelf else t
        match t.statuses c with
        | .pending => t.complain .dismissPending
        | .waiting => t.complain .dismissWait
        | .cutting =>
          let t := if fast then t.complain .cutFast else t
          let t := if slow then t.complain .cutSlow else t
          let t := t.setOccupancy room none
          let t := t.setStatus c .done
          { t with numCutting := sizeDec t.numCutting }
        | .done => t.complain .dismissDone
        | .rejected => t.complain .dismissReject
  else none

/-- The rest of `my_callback` after the callback has returned. -/
def Thrlab.callbackEnd (t : Thrlab) (c : CustomerId) : Option Thrlab :=
  if c < t.visitors then
    some <| if t.statuses c = .cutting then t.complain .dismissEarly else t
  else none

/-- The record after `thrlab_setup`. -/
def Thrlab.setup (visitors barbers chairs : Nat) : Thrlab :=
  { visitors := visitors, barbers := barbers, chairs := chairs, customerCount := 0,
    statuses := fun _ => .pending, occupancy := fun _ => none, numCutting := 0, numWaiting := 0,
    numPending := 0, complaints := fun _ => 0 }


/-- Two records that differ in no size. -/
structure SameSizes (t t' : Thrlab) : Prop where
  visitors : t'.visitors = t.visitors
  barbers : t'.barbers = t.barbers
  chairs : t'.chairs = t.chairs
  customerCount : t'.customerCount = t.customerCount

section
variable {t t' : Thrlab} {c : CustomerId} {room : Nat} {self : Thread}

/-- A record has its own sizes. -/
theorem SameSizes.refl (t : Thrlab) : SameSizes t t := ⟨rfl, rfl, rfl, rfl⟩

/-- An arrival takes the next identifier, pending, while there are visitors left. -/
theorem Thrlab.arrive_eq (h : t.arrive = some (c, t')) :
    c = t.customerCount ∧ t.customerCount < t.visitors ∧
      t' = { t.setStatus c .pending with
        customerCount := t.customerCount + 1, numPending := t.numPending + 1 } := by
  unfold Thrlab.arrive Thrlab.addCustomer at h
  split at h
  · next hlt =>
    cases h
    exact ⟨rfl, hlt, rfl⟩
  · cases h

/-- An accept that finds the customer pending and a chair free. -/
theorem Thrlab.accept_pending (hv : c < t.visitors) (hst : t.statuses c = .pending)
    (hw : t.numWaiting < t.chairs) :
    t.accept c = some { t.setStatus c .waiting with
      numWaiting := t.numWaiting + 1, numPending := sizeDec t.numPending } := by
  simp [Thrlab.accept, hv, hst, Nat.not_le.2 hw, Thrlab.setStatus]

/-- A reject that finds the customer pending. -/
theorem Thrlab.reject_pending (hv : c < t.visitors) (hst : t.statuses c = .pending) :
    t.reject c = some
      { (if t.numWaiting < t.chairs then t.complain .rejectAvail else t).setStatus c .rejected with
        numPending := sizeDec t.numPending } := by
  simp only [Thrlab.reject, hv, if_true, hst]
  split <;> rfl

/-- A prepare that finds the customer waiting and the room empty. -/
theorem Thrlab.prepare_waiting (hv : c < t.visitors) (hr : room < t.barbers)
    (hself : self ≠ .customer c) (hst : t.statuses c = .waiting) (ho : t.occupancy room = none) :
    t.prepare self c room = some { (t.setOccupancy room (some c)).setStatus c .cutting with
      numCutting := t.numCutting + 1, numWaiting := sizeDec t.numWaiting } := by
  simp [Thrlab.prepare, hv, hr, hst, ho, hself, Thrlab.setStatus, Thrlab.setOccupancy]

/-- A dismiss that finds the customer being cut in the room. -/
theorem Thrlab.dismiss_cutting (hv : c < t.visitors) (hr : room < t.barbers)
    (hself : self ≠ .customer c) (hst : t.statuses c = .cutting) (ho : t.occupancy room = some c)
    (fast slow : Bool) :
    ∃ k, t.dismiss self c room fast slow = some
        { ((t.setOccupancy room none).setStatus c .done) with
          numCutting := sizeDec t.numCutting, complaints := k } ∧
      ∀ i, i ≠ .cutFast → i ≠ .cutSlow → k i = t.complaints i := by
  cases fast <;> cases slow <;>
    exact ⟨_, by
      simp only [Thrlab.dismiss, hv, hr, ho, hst, hself, and_self, and_false, if_true, if_false,
        ne_eq, not_true, Bool.false_eq_true, Thrlab.complain]
      rfl, by
      intro i hf hs
      simp [Thrlab.setStatus, Thrlab.setOccupancy, hf, hs]⟩

/-- The end of a callback changes nothing but for a customer in a haircut. -/
theorem Thrlab.callbackEnd_eq (hv : c < t.visitors) (hst : t.statuses c ≠ .cutting) :
    t.callbackEnd c = some t := by
  simp [Thrlab.callbackEnd, hv, hst]

end

end Barbershop
