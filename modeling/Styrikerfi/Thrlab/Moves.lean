import Styrikerfi.Thrlab.Barbershop

/-!
# What a step of the barbershop does

`step_cases` says once what one step can do: it ends the run and changes nothing else, or it is one
of the `Moves`, each with its guard and the state it leads to. The invariants below are proved from
it and never unfold `step`.
-/

namespace Barbershop

variable {s s' : Shop} {a : Act}

/-- Where `main` may go on to, nothing else changing. -/
inductive MainNext (s : Shop) : MainPc → Prop
  | create {i} (hpc : s.main = .creating i) (hi : i < s.thrlab.barbers) :
      MainNext s (.creating (i + 1))
  | created {i} (hpc : s.main = .creating i) : MainNext s (.arriving 0)
  | closed {i} (hpc : s.main = .arriving i) (hi : s.thrlab.visitors ≤ i) : MainNext s (.joining 0)
  | join {i} (hpc : s.main = .joining i) (hi : s.customers i = .finished) :
      MainNext s (.joining (i + 1))
  | joined {i} (hpc : s.main = .joining i) (hi : s.thrlab.customerCount ≤ i) :
      MainNext s .freeChairs
  | freeChairs (hpc : s.main = .freeChairs) : MainNext s .destroyMutex
  | destroyMutex (hpc : s.main = .destroyMutex) : MainNext s .destroyItems
  | destroyItems (hpc : s.main = .destroyItems) : MainNext s .destroySlots
  | destroySlots (hpc : s.main = .destroySlots) : MainNext s .returning

/-- What a step that does not end the run does. -/
inductive Moves (s : Shop) : Act → Shop → Prop
  | main {p : MainPc} {fails : Bool} (hp : MainNext s p) :
      Moves s (.main fails) { s with main := p }
  | arrive {i : Nat} {c : CustomerId} {t : Thrlab} (hpc : s.main = .arriving i)
      (ht : s.thrlab.arrive = some (c, t)) :
      Moves s (.main false)
        ({ s with thrlab := t, main := .arriving (i + 1) }.customerAt c .semInit)
  | semInit {c} (hpc : s.customers c = .semInit) :
      Moves s (.customer c)
        ({ s with customerMutex := Function.update s.customerMutex c 0 }.customerAt c .trywait)
  | trywait {c} (hpc : s.customers c = .trywait) (hn : 0 < s.chairs.slots) :
      Moves s (.customer c)
        ({ s with chairs := { s.chairs with slots := s.chairs.slots - 1 } }.customerAt c .waitMutex)
  | customerLock {c} (hpc : s.customers c = .waitMutex) (hn : 0 < s.chairs.mutex) :
      Moves s (.customer c)
        ({ s with chairs := { s.chairs with mutex := s.chairs.mutex - 1 } }.customerAt c .accept)
  | accept {c t} (hpc : s.customers c = .accept) (ht : s.thrlab.accept c = some t) :
      Moves s (.customer c) ({ s with thrlab := t }.customerAt c .store)
  | store {c} (hpc : s.customers c = .store) :
      Moves s (.customer c)
        ({ s with chairs := { s.chairs with
            rear := s.chairs.rear + 1,
            customer := Function.update s.chairs.customer ((s.chairs.rear + 1) % s.chairs.max)
              (some c) } }.customerAt c .postMutex)
  | customerUnlock {c} (hpc : s.customers c = .postMutex) :
      Moves s (.customer c)
        ({ s with chairs := { s.chairs with mutex := s.chairs.mutex + 1 } }.customerAt c .postItems)
  | postItems {c} (hpc : s.customers c = .postItems) :
      Moves s (.customer c)
        ({ s with chairs := { s.chairs with items := s.chairs.items + 1 } }.customerAt c
          .waitCustomer)
  | waitCustomer {c} (hpc : s.customers c = .waitCustomer) (hn : 0 < s.customerMutex c) :
      Moves s (.customer c)
        ({ s with customerMutex := Function.update s.customerMutex c (s.customerMutex c - 1) }.customerAt
          c .tail)
  | reject {c t} (hpc : s.customers c = .reject) (ht : s.thrlab.reject c = some t) :
      Moves s (.customer c) ({ s with thrlab := t }.customerAt c .tail)
  | tail {c t} (hpc : s.customers c = .tail) (ht : s.thrlab.callbackEnd c = some t) :
      Moves s (.customer c) ({ s with thrlab := t }.customerAt c .finished)
  | waitItems {b fast slow} (hb : b < s.thrlab.barbers) (hpc : s.barbers b = .waitItems)
      (hn : 0 < s.chairs.items) :
      Moves s (.barber b fast slow)
        ({ s with chairs := { s.chairs with items := s.chairs.items - 1 } }.barberAt b .waitMutex)
  | barberLock {b fast slow} (hb : b < s.thrlab.barbers) (hpc : s.barbers b = .waitMutex)
      (hn : 0 < s.chairs.mutex) :
      Moves s (.barber b fast slow)
        ({ s with chairs := { s.chairs with mutex := s.chairs.mutex - 1 } }.barberAt b .read)
  | read {b fast slow c} (hb : b < s.thrlab.barbers) (hpc : s.barbers b = .read)
      (hc : s.chairs.customer ((s.chairs.front + 1) % s.chairs.max) = some c) :
      Moves s (.barber b fast slow)
        ({ s with chairs := { s.chairs with front := s.chairs.front + 1 } }.barberAt b (.prepare c))
  | prepare {b fast slow c t} (hb : b < s.thrlab.barbers) (hpc : s.barbers b = .prepare c)
      (ht : s.thrlab.prepare (.barber b) c b = some t) :
      Moves s (.barber b fast slow) ({ s with thrlab := t }.barberAt b (.sleep c))
  | sleep {b fast slow c} (hb : b < s.thrlab.barbers) (hpc : s.barbers b = .sleep c) :
      Moves s (.barber b fast slow) (s.barberAt b (.dismiss c))
  | dismiss {b fast slow c t} (hb : b < s.thrlab.barbers) (hpc : s.barbers b = .dismiss c)
      (ht : s.thrlab.dismiss (.barber b) c b fast slow = some t) :
      Moves s (.barber b fast slow) ({ s with thrlab := t }.barberAt b (.postCustomer c))
  | postCustomer {b fast slow c} (hb : b < s.thrlab.barbers) (hpc : s.barbers b = .postCustomer c) :
      Moves s (.barber b fast slow)
        ({ s with customerMutex := Function.update s.customerMutex c (s.customerMutex c + 1) }.barberAt
          b (.postMutex c))
  | barberUnlock {b fast slow c} (hb : b < s.thrlab.barbers) (hpc : s.barbers b = .postMutex c) :
      Moves s (.barber b fast slow)
        ({ s with chairs := { s.chairs with mutex := s.chairs.mutex + 1 } }.barberAt b (.postSlots c))
  | postSlots {b fast slow c} (hb : b < s.thrlab.barbers) (hpc : s.barbers b = .postSlots c) :
      Moves s (.barber b fast slow)
        ({ s with chairs := { s.chairs with slots := s.chairs.slots + 1 } }.barberAt b .waitItems)

/-- A move does not end the run. -/
theorem Moves.ended (hm : Moves s a s') : s'.ended = s.ended := by
  cases hm <;> rfl

/-- A wait takes a unit that is there. -/
theorem semWait_eq {v w : Nat} : semWait v = some w ↔ 0 < v ∧ w = v - 1 := by
  unfold semWait
  split <;> simp <;> omega

/-- The wrapper either takes a unit or exits: it never returns `-1`. -/
theorem semTrywaitOrExit_eq (v : Nat) :
    semTrywaitOrExit v = if v = 0 then none else some (0, v - 1) := by
  unfold semTrywaitOrExit semTrywait
  split <;> simp

/-- A use of what may be destroyed is undefined, or what it is. -/
theorem Shop.using_cases {live : Bool} {next : Option Shop} (h : s.using live next = some s') :
    s' = s.finish .undefined ∨ live = true ∧ next = some s' := by
  cases live <;> simp_all [Shop.using]

/-- A call aborts the process, or returns a record. -/
theorem Shop.call_cases {result : Option Thrlab} {next : Shop → Shop}
    (h : s.call result next = some s') :
    s' = s.finish .abort ∨ ∃ t, result = some t ∧ s' = next { s with thrlab := t } := by
  unfold Shop.call at h
  split at h
  · exact .inr ⟨_, rfl, (Option.some.inj h).symm⟩
  · exact .inl (Option.some.inj h).symm

/-- A step of `main` ends the run or is a move. -/
theorem Shop.mainStep_cases {fails : Bool} (h : s.mainStep fails = some s') :
    (∃ e, s' = s.finish e) ∨ Moves s (.main fails) s' := by
  unfold Shop.mainStep at h
  split at h
  · split at h
    · split at h
      · exact .inl ⟨_, (Option.some.inj h).symm⟩
      · cases h; exact .inr (.main (.create ‹_› ‹_›))
    · cases h; exact .inr (.main (.created ‹_›))
  · split at h
    · split at h
      · exact .inl ⟨_, (Option.some.inj h).symm⟩
      · next hf =>
        rw [Bool.not_eq_true] at hf
        subst hf
        split at h
        · cases h; exact .inr (.arrive ‹_› ‹_›)
        · exact .inl ⟨_, (Option.some.inj h).symm⟩
    · next hi => cases h; exact .inr (.main (.closed ‹_› (Nat.le_of_not_lt hi)))
  · split at h
    · split at h
      · cases h; exact .inr (.main (.join ‹_› ‹_›))
      · cases h
    · next hi => cases h; exact .inr (.main (.joined ‹_› (Nat.le_of_not_lt hi)))
  · cases h; exact .inr (.main (.freeChairs ‹_›))
  · cases h; exact .inr (.main (.destroyMutex ‹_›))
  · cases h; exact .inr (.main (.destroyItems ‹_›))
  · cases h; exact .inr (.main (.destroySlots ‹_›))
  · exact .inl ⟨_, (Option.some.inj h).symm⟩

/-- A step of a customer ends the run or is a move. -/
theorem Shop.customerStep_cases {c : CustomerId} (h : s.customerStep c = some s') :
    (∃ e, s' = s.finish e) ∨ Moves s (.customer c) s' := by
  unfold Shop.customerStep at h
  split at h
  · cases h
  · cases h; exact .inr (.semInit ‹_›)
  · obtain rfl | ⟨-, h⟩ := Shop.using_cases h
    · exact .inl ⟨_, rfl⟩
    rw [semTrywaitOrExit_eq] at h
    by_cases hn : s.chairs.slots = 0
    · rw [if_pos hn] at h
      exact .inl ⟨_, (Option.some.inj h).symm⟩
    · rw [if_neg hn] at h
      cases h
      exact .inr (.trywait ‹_› (Nat.pos_of_ne_zero hn))
  · obtain rfl | ⟨-, h⟩ := Shop.using_cases h
    · exact .inl ⟨_, rfl⟩
    obtain ⟨v, hv, rfl⟩ := Option.map_eq_some_iff.1 h
    obtain ⟨hn, rfl⟩ := semWait_eq.1 hv
    exact .inr (.customerLock ‹_› hn)
  · obtain rfl | ⟨t, ht, rfl⟩ := Shop.call_cases h
    · exact .inl ⟨_, rfl⟩
    · exact .inr (.accept ‹_› ht)
  · obtain rfl | ⟨-, h⟩ := Shop.using_cases h
    · exact .inl ⟨_, rfl⟩
    cases h
    exact .inr (.store ‹_›)
  · obtain rfl | ⟨-, h⟩ := Shop.using_cases h
    · exact .inl ⟨_, rfl⟩
    cases h
    exact .inr (.customerUnlock ‹_›)
  · obtain rfl | ⟨-, h⟩ := Shop.using_cases h
    · exact .inl ⟨_, rfl⟩
    cases h
    exact .inr (.postItems ‹_›)
  · obtain ⟨v, hv, rfl⟩ := Option.map_eq_some_iff.1 h
    obtain ⟨hn, rfl⟩ := semWait_eq.1 hv
    exact .inr (.waitCustomer ‹_› hn)
  · obtain rfl | ⟨t, ht, rfl⟩ := Shop.call_cases h
    · exact .inl ⟨_, rfl⟩
    · exact .inr (.reject ‹_› ht)
  · obtain rfl | ⟨-, h⟩ := Shop.using_cases h
    · exact .inl ⟨_, rfl⟩
    obtain rfl | ⟨t, ht, rfl⟩ := Shop.call_cases h
    · exact .inl ⟨_, rfl⟩
    · exact .inr (.tail ‹_› ht)
  · cases h

/-- A step of a barber ends the run or is a move. -/
theorem Shop.barberStep_cases {b : Nat} {fast slow : Bool} (hb : b < s.thrlab.barbers)
    (h : s.barberStep b fast slow = some s') :
    (∃ e, s' = s.finish e) ∨ Moves s (.barber b fast slow) s' := by
  unfold Shop.barberStep at h
  split at h <;> obtain rfl | ⟨-, h⟩ := Shop.using_cases h <;> try exact .inl ⟨_, rfl⟩
  · obtain ⟨v, hv, rfl⟩ := Option.map_eq_some_iff.1 h
    obtain ⟨hn, rfl⟩ := semWait_eq.1 hv
    exact .inr (.waitItems hb ‹_› hn)
  · obtain ⟨v, hv, rfl⟩ := Option.map_eq_some_iff.1 h
    obtain ⟨hn, rfl⟩ := semWait_eq.1 hv
    exact .inr (.barberLock hb ‹_› hn)
  · dsimp only at h
    split at h
    · exact .inl ⟨_, (Option.some.inj h).symm⟩
    · cases h; exact .inr (.read hb ‹_› ‹_›)
  · obtain rfl | ⟨t, ht, rfl⟩ := Shop.call_cases h
    · exact .inl ⟨_, rfl⟩
    · exact .inr (.prepare hb ‹_› ht)
  · obtain rfl | ⟨t, ht, rfl⟩ := Shop.call_cases h
    · exact .inl ⟨_, rfl⟩
    · cases ht; exact .inr (.sleep hb ‹_›)
  · obtain rfl | ⟨t, ht, rfl⟩ := Shop.call_cases h
    · exact .inl ⟨_, rfl⟩
    · exact .inr (.dismiss hb ‹_› ht)
  · cases h; exact .inr (.postCustomer hb ‹_›)
  · cases h; exact .inr (.barberUnlock hb ‹_›)
  · cases h; exact .inr (.postSlots hb ‹_›)

/-- A step ends the run and changes nothing else, or is a move. -/
theorem step_cases (h : step s a = some s') : s.ended = none ∧
    ((∃ e, s' = s.finish e) ∨ Moves s a s') := by
  unfold step at h
  split at h
  · cases h
  · next he =>
    refine ⟨by simpa using he, ?_⟩
    cases a with
    | main fails => exact Shop.mainStep_cases h
    | customer c => exact Shop.customerStep_cases h
    | barber b fast slow =>
      simp only at h
      split at h
      · next hb =>
        simp only [Shop.started, Bool.and_eq_true, decide_eq_true_eq] at hb
        exact Shop.barberStep_cases hb.1 h
      · cases h

end Barbershop
