import Styrikerfi.Lib.Tally
import Styrikerfi.Thrlab.Moves

/-!
# Semaphore counts and where the threads are

Each semaphore of the barbershop balances against the threads between two of its operations: the
mutex against the threads inside a critical section, `slots` against the customers between
`Sem_trywait` and the matching post, `items` against the customers that are stored and not yet
taken. `Counts` states the three equations, and the one for the checker's count of waiting
customers; a move keeps them because it shifts one thread, and the two sides with it.
-/

namespace Barbershop

variable {s s' : Shop}

/-- The customer's thread holds the mutex of the ring. -/
def CustomerPc.locks : CustomerPc → Nat
  | .accept | .store | .postMutex => 1
  | _ => 0

/-- The customer's thread has a slot and has not stored its customer. -/
def CustomerPc.claims : CustomerPc → Nat
  | .waitMutex | .accept | .store => 1
  | _ => 0

/-- The customer is stored and its item is not posted. -/
def CustomerPc.owes : CustomerPc → Nat
  | .postMutex | .postItems => 1
  | _ => 0

/-- The customer is accepted and not stored. -/
def CustomerPc.stores : CustomerPc → Nat
  | .store => 1
  | _ => 0

/-- The barber's thread holds the mutex of the ring. -/
def BarberPc.locks : BarberPc → Nat
  | .waitItems | .waitMutex | .postSlots _ => 0
  | _ => 1

/-- The barber has read a customer and has not posted its slot. -/
def BarberPc.serves : BarberPc → Nat
  | .waitItems | .waitMutex | .read => 0
  | _ => 1

/-- The barber has taken an item and has not read its customer. -/
def BarberPc.takes : BarberPc → Nat
  | .waitMutex | .read => 1
  | _ => 0

/-- The barber has read a customer it has not prepared. -/
def BarberPc.prepares : BarberPc → Nat
  | .prepare _ => 1
  | _ => 0

def Shop.customerTally (s : Shop) (w : CustomerPc → Nat) : Nat :=
  tally s.thrlab.visitors w s.customers

def Shop.barberTally (s : Shop) (w : BarberPc → Nat) : Nat :=
  tally s.thrlab.barbers w s.barbers

/-- The semaphores and the checker's count of waiting customers, against where the threads are. -/
structure Counts (s : Shop) : Prop where
  max_eq : s.chairs.max = s.thrlab.chairs
  mutex_eq : s.chairs.mutex + s.customerTally CustomerPc.locks + s.barberTally BarberPc.locks = 1
  slots_eq : s.chairs.slots + s.customerTally CustomerPc.claims + s.chairs.rear + s.barberTally BarberPc.serves =
    s.chairs.max + s.chairs.front
  items_eq : s.chairs.items + s.customerTally CustomerPc.owes + s.barberTally BarberPc.takes + s.chairs.front =
    s.chairs.rear
  waiting_eq : s.thrlab.numWaiting + s.chairs.front =
    s.customerTally CustomerPc.stores + s.chairs.rear + s.barberTally BarberPc.prepares
  present : ∀ c, s.customers c ≠ .absent ↔ c < s.thrlab.customerCount
  bound : s.thrlab.customerCount ≤ s.thrlab.visitors

namespace Counts

/-- A customer that has come is one of the visitors. -/
theorem lt_visitors (h : Counts s) {c : CustomerId} (hc : s.customers c ≠ .absent) :
    c < s.thrlab.visitors :=
  lt_of_lt_of_le ((h.present c).1 hc) h.bound

/-- No more is read than stored. -/
theorem front_le (h : Counts s) : s.chairs.front ≤ s.chairs.rear := by
  have := h.items_eq
  omega

/-- No more is stored than has room. -/
theorem rear_le (h : Counts s) : s.chairs.rear ≤ s.chairs.front + s.chairs.max := by
  have := h.slots_eq
  omega

/-- A customer's thread that has a slot leaves room in the ring. -/
theorem rear_lt (h : Counts s) {c : CustomerId} (hc : (s.customers c).claims = 1) :
    s.chairs.rear < s.chairs.front + s.chairs.max := by
  have hpc : s.customers c ≠ .absent := fun h => by simp [h, CustomerPc.claims] at hc
  have hle : (s.customers c).claims ≤ s.customerTally CustomerPc.claims :=
    le_tally (h.lt_visitors hpc)
  have := h.slots_eq
  omega

/-- A barber that has taken an item finds the ring not empty. -/
theorem front_lt (h : Counts s) {b : Nat} (hb : b < s.thrlab.barbers)
    (ht : (s.barbers b).takes = 1) : s.chairs.front < s.chairs.rear := by
  have hle : (s.barbers b).takes ≤ s.barberTally BarberPc.takes := le_tally hb
  have := h.items_eq
  omega

/-- A customer about to be accepted finds fewer customers waiting than there are chairs. -/
theorem numWaiting_lt (h : Counts s) {c : CustomerId} (hpc : s.customers c = .accept) :
    s.thrlab.numWaiting < s.thrlab.chairs := by
  have hc : c < s.thrlab.visitors := h.lt_visitors (by simp [hpc])
  have hlt : s.customerTally CustomerPc.stores < s.customerTally CustomerPc.claims :=
    tally_lt (fun p => by cases p <;> simp [CustomerPc.stores, CustomerPc.claims]) hc
      (by simp [hpc, CustomerPc.stores, CustomerPc.claims])
  have hle : s.barberTally BarberPc.prepares ≤ s.barberTally BarberPc.serves :=
    tally_mono fun p => by cases p <;> simp [BarberPc.prepares, BarberPc.serves]
  have := h.slots_eq
  have := h.waiting_eq
  have := h.max_eq
  omega

/-- A barber holding the mutex is alone in the critical sections. -/
theorem barber_alone (h : Counts s) {b : Nat} (hb : b < s.thrlab.barbers)
    (hl : (s.barbers b).locks = 1) :
    s.chairs.mutex = 0 ∧ (∀ c < s.thrlab.visitors, (s.customers c).locks = 0) ∧
      ∀ b' < s.thrlab.barbers, b' ≠ b → (s.barbers b').locks = 0 := by
  have hle : (s.barbers b).locks ≤ s.barberTally BarberPc.locks := le_tally hb
  have hm := h.mutex_eq
  refine ⟨by omega, tally_eq_zero.1 (by unfold Shop.customerTally at hm; omega), ?_⟩
  intro b' hb' hne
  have hle' : (s.barbers b').locks + (s.barbers b).locks ≤ s.barberTally BarberPc.locks :=
    add_le_tally hb' hb hne
  omega

/-- A move of one customer's thread: the counts shift with its weights. -/
theorem customer (h : Counts s) {c : CustomerId} {p q : CustomerPc} (hpc : s.customers c = p)
    (hp : p ≠ .absent) (hq : q ≠ .absent) (hsz : SameSizes s.thrlab s'.thrlab)
    (hc : s'.customers = Function.update s.customers c q) (hb : s'.barbers = s.barbers)
    (hmax : s'.chairs.max = s.chairs.max) (hfr : s'.chairs.front = s.chairs.front)
    (hmutex : s'.chairs.mutex + q.locks = s.chairs.mutex + p.locks)
    (hslots : s'.chairs.slots + q.claims + s'.chairs.rear =
      s.chairs.slots + p.claims + s.chairs.rear)
    (hitems : s'.chairs.items + q.owes + s.chairs.rear = s.chairs.items + p.owes + s'.chairs.rear)
    (hwait : s'.thrlab.numWaiting + p.stores + s.chairs.rear =
      s.thrlab.numWaiting + q.stores + s'.chairs.rear) : Counts s' := by
  have hcv : c < s.thrlab.visitors := h.lt_visitors (hpc ▸ hp)
  have htally : ∀ w : CustomerPc → Nat, s'.customerTally w + w p = s.customerTally w + w q := by
    intro w
    unfold Shop.customerTally
    rw [hsz.visitors, hc, ← hpc]
    exact tally_update hcv q
  have hbarber : ∀ w : BarberPc → Nat, s'.barberTally w = s.barberTally w := by
    intro w
    unfold Shop.barberTally
    rw [hsz.barbers, hb]
  constructor
  · rw [hmax, hsz.chairs, h.max_eq]
  · have := htally CustomerPc.locks
    have := h.mutex_eq
    rw [hbarber]
    omega
  · have := htally CustomerPc.claims
    have := h.slots_eq
    rw [hbarber]
    omega
  · have := htally CustomerPc.owes
    have := h.items_eq
    rw [hbarber]
    omega
  · have := htally CustomerPc.stores
    have := h.waiting_eq
    rw [hbarber]
    omega
  · intro c'
    rw [hsz.customerCount, hc, ← h.present]
    by_cases hcc : c' = c
    · subst hcc
      simp [hq, hpc, hp]
    · rw [Function.update_of_ne hcc]
  · rw [hsz.customerCount, hsz.visitors]
    exact h.bound

/-- A move of one barber's thread. -/
theorem barber (h : Counts s) {b : Nat} {p q : BarberPc} (hbb : b < s.thrlab.barbers)
    (hpc : s.barbers b = p) (hsz : SameSizes s.thrlab s'.thrlab)
    (hc : s'.customers = s.customers) (hb : s'.barbers = Function.update s.barbers b q)
    (hmax : s'.chairs.max = s.chairs.max) (hrear : s'.chairs.rear = s.chairs.rear)
    (hmutex : s'.chairs.mutex + q.locks = s.chairs.mutex + p.locks)
    (hslots : s'.chairs.slots + q.serves + s.chairs.front =
      s.chairs.slots + p.serves + s'.chairs.front)
    (hitems : s'.chairs.items + q.takes + s'.chairs.front =
      s.chairs.items + p.takes + s.chairs.front)
    (hwait : s'.thrlab.numWaiting + p.prepares + s'.chairs.front =
      s.thrlab.numWaiting + q.prepares + s.chairs.front) : Counts s' := by
  have htally : ∀ w : BarberPc → Nat, s'.barberTally w + w p = s.barberTally w + w q := by
    intro w
    unfold Shop.barberTally
    rw [hsz.barbers, hb, ← hpc]
    exact tally_update hbb q
  have hcustomer : ∀ w : CustomerPc → Nat, s'.customerTally w = s.customerTally w := by
    intro w
    unfold Shop.customerTally
    rw [hsz.visitors, hc]
  constructor
  · rw [hmax, hsz.chairs, h.max_eq]
  · have := htally BarberPc.locks
    have := h.mutex_eq
    rw [hcustomer]
    omega
  · have := htally BarberPc.serves
    have := h.slots_eq
    rw [hcustomer]
    omega
  · have := htally BarberPc.takes
    have := h.items_eq
    rw [hcustomer]
    omega
  · have := htally BarberPc.prepares
    have := h.waiting_eq
    rw [hcustomer]
    omega
  · intro c
    rw [hsz.customerCount, hc, h.present]
  · rw [hsz.customerCount, hsz.visitors]
    exact h.bound

/-- The next customer has not come yet. -/
theorem absent (h : Counts s) : s.customers s.thrlab.customerCount = .absent := by
  by_contra hne
  exact absurd ((h.present _).1 hne) (lt_irrefl _)

/-- An arrival keeps the counts. -/
theorem arrive (h : Counts s) {t : Thrlab} {c : CustomerId} (p : MainPc)
    (ht : s.thrlab.arrive = some (c, t)) :
    Counts ({ s with thrlab := t, main := p }.customerAt c .semInit) := by
  obtain ⟨rfl, hlt, rfl⟩ := Thrlab.arrive_eq ht
  have htally : ∀ w : CustomerPc → Nat, w .absent = w .semInit →
      tally s.thrlab.visitors w (Function.update s.customers s.thrlab.customerCount .semInit) =
        s.customerTally w := by
    intro w hw
    have := tally_update (w := w) (f := s.customers) hlt .semInit
    rw [h.absent] at this
    unfold Shop.customerTally
    omega
  constructor
  case max_eq => exact h.max_eq
  case mutex_eq => exact (congrArg (_ + · + _) (htally CustomerPc.locks rfl)).trans h.mutex_eq
  case slots_eq =>
    exact (congrArg (_ + · + _ + _) (htally CustomerPc.claims rfl)).trans h.slots_eq
  case items_eq => exact (congrArg (_ + · + _ + _) (htally CustomerPc.owes rfl)).trans h.items_eq
  case waiting_eq =>
    exact h.waiting_eq.trans (congrArg (· + _ + _) (htally CustomerPc.stores rfl).symm)
  case present =>
    intro c
    simp only [Shop.customerAt, Thrlab.setStatus]
    by_cases hcc : c = s.thrlab.customerCount
    · subst hcc
      simp
    · rw [Function.update_of_ne hcc, h.present]
      exact ⟨Nat.lt_succ_of_lt, fun hlt => lt_of_le_of_ne (Nat.le_of_lt_succ hlt) hcc⟩
  case bound => exact hlt

end Counts

end Barbershop
