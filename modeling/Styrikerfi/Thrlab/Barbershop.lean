import Styrikerfi.Lib.Run
import Styrikerfi.Thrlab.Help

/-!
# The barbershop

`main.c` as a transition system: the arrival thread `main`, a thread a customer (`customer_arrived`
under `my_callback`) and a thread a barber (`barber_work`). A step of a thread is one semaphore
operation, one `thrlab_*` call or one access to the ring, and a run is any interleaving.

A call of `exit`, a failed assertion and undefined behaviour (a destroyed semaphore, freed memory, a
slot of the ring that was never written) end the run. A length of hair decides only how long a
barber sleeps, and is left out.
-/

namespace Barbershop

/-- Where `main` is. -/
inductive MainPc where
  /-- `setup`'s loop over the barber threads -/
  | creating (i : Nat)
  /-- the loop of `thrlab_wait_for_customers` -/
  | arriving (i : Nat)
  /-- the loop of `thrlab_cleanup` -/
  | joining (i : CustomerId)
  | freeChairs | destroyMutex | destroyItems | destroySlots | returning
  deriving DecidableEq

/-- Where a customer's thread is: the call it makes next. -/
inductive CustomerPc where
  | absent | semInit | trywait | waitMutex | accept | store | postMutex | postItems | waitCustomer
  | reject | tail | finished
  deriving DecidableEq

/-- Where a barber's thread is, with its local `customer`. -/
inductive BarberPc where
  | waitItems | waitMutex | read
  | prepare (c : CustomerId) | sleep (c : CustomerId) | dismiss (c : CustomerId)
  | postCustomer (c : CustomerId) | postMutex (c : CustomerId) | postSlots (c : CustomerId)
  deriving DecidableEq

/-- How a run ended. -/
inductive Ending where
  | exit (status : Nat)
  | abort
  | undefined
  deriving DecidableEq

/-- `struct chairs`; a semaphore is its count. -/
structure Chairs where
  /-- `none` is a slot never written -/
  customer : Nat → Option CustomerId
  max : Nat
  front : Nat
  rear : Nat
  mutex : Nat
  slots : Nat
  items : Nat

/-- The process. -/
structure Shop where
  thrlab : Thrlab
  chairs : Chairs
  /-- `customer->mutex` -/
  customerMutex : CustomerId → Nat
  main : MainPc
  customers : CustomerId → CustomerPc
  barbers : Nat → BarberPc
  ended : Option Ending

/-- A step of a thread. In `main` an allocation or `pthread_create` may fail; what the clock tells a
barber at the end of a haircut is not determined. -/
inductive Act where
  | main (fails : Bool)
  | customer (c : CustomerId)
  | barber (b : Nat) (fast slow : Bool)
  deriving DecidableEq

/-! ## Semaphores -/

/-- `sem_wait`, which blocks at 0. -/
def semWait (v : Nat) : Option Nat := if v = 0 then none else some (v - 1)

/-- `sem_post` -/
def semPost (v : Nat) : Nat := v + 1

/-- `sem_trywait`: its value and the count. -/
def semTrywait (v : Nat) : Int × Nat := if v = 0 then (-1, v) else (0, v - 1)

/-- The wrapper `Sem_trywait`: `none` where `unix_error` exits. -/
def semTrywaitOrExit (v : Nat) : Option (Int × Nat) :=
  let r := semTrywait v
  if r.1 < 0 then none else some r

/-! ## What cleaning up has freed -/

/-- `thrlab` is not `NULL`. -/
def MainPc.thrlab : MainPc → Bool
  | .creating _ | .arriving _ | .joining _ => true
  | _ => false

/-- The array of the ring is not freed. -/
def MainPc.ring (p : MainPc) : Bool := p.thrlab || p = .freeChairs

def MainPc.mutex (p : MainPc) : Bool := p.ring || p = .destroyMutex

def MainPc.items (p : MainPc) : Bool := p.mutex || p = .destroyItems

def MainPc.slots (p : MainPc) : Bool := p.items || p = .destroySlots

/-- The customer is not freed: `thrlab_cleanup` frees each one it has joined. -/
def MainPc.customer : MainPc → CustomerId → Bool
  | .creating _, _ | .arriving _, _ => true
  | .joining i, c => i ≤ c
  | _, _ => false

/-! ## Steps -/

def Shop.finish (s : Shop) (e : Ending) : Shop := { s with ended := some e }

/-- A step that uses an object, which may be gone. -/
def Shop.using (s : Shop) (live : Bool) (next : Option Shop) : Option Shop :=
  if live then next else some (s.finish .undefined)

/-- A `thrlab_*` call; its assertions may fail. -/
def Shop.call (s : Shop) (result : Option Thrlab) (next : Shop → Shop) : Option Shop :=
  match s.main.thrlab, result with
  | true, some t => some (next { s with thrlab := t })
  | _, _ => some (s.finish .abort)

def Shop.customerAt (s : Shop) (c : CustomerId) (p : CustomerPc) : Shop :=
  { s with customers := Function.update s.customers c p }

def Shop.barberAt (s : Shop) (b : Nat) (p : BarberPc) : Shop :=
  { s with barbers := Function.update s.barbers b p }

/-- `main` after `thrlab_setup`, and `thrlab_cleanup` and `cleanup`. -/
def Shop.mainStep (s : Shop) (fails : Bool) : Option Shop :=
  match s.main with
  | .creating i =>
    if i < s.thrlab.barbers then
      if fails then s.finish (.exit 1) else some { s with main := .creating (i + 1) }
    else some { s with main := .arriving 0 }
  | .arriving i =>
    if i < s.thrlab.visitors then
      if fails then s.finish (.exit 1) else
      match s.thrlab.arrive with
      | some (c, t) => some ({ s with thrlab := t, main := .arriving (i + 1) }.customerAt c .semInit)
      | none => some (s.finish .abort)
    else some { s with main := .joining 0 }
  | .joining i =>
    if i < s.thrlab.customerCount then
      if s.customers i = .finished then some { s with main := .joining (i + 1) } else none
    else some { s with main := .freeChairs }
  | .freeChairs => some { s with main := .destroyMutex }
  | .destroyMutex => some { s with main := .destroyItems }
  | .destroyItems => some { s with main := .destroySlots }
  | .destroySlots => some { s with main := .returning }
  | .returning => some (s.finish (.exit 0))

/-- `my_callback` and `customer_arrived`. -/
def Shop.customerStep (s : Shop) (c : CustomerId) : Option Shop :=
  match s.customers c with
  | .absent => none
  | .semInit =>
    some ({ s with customerMutex := Function.update s.customerMutex c 0 }.customerAt c .trywait)
  | .trywait =>
    s.using s.main.slots <|
      match semTrywaitOrExit s.chairs.slots with
      | none => some (s.finish (.exit 1))
      | some (val, slots) =>
        let s := { s with chairs := { s.chairs with slots := slots } }
        some (s.customerAt c (if val = 0 then .waitMutex else .reject))
  | .waitMutex =>
    s.using s.main.mutex <| (semWait s.chairs.mutex).map fun v =>
      { s with chairs := { s.chairs with mutex := v } }.customerAt c .accept
  | .accept => s.call (s.thrlab.accept c) fun s => s.customerAt c .store
  | .store =>
    s.using s.main.ring <|
      let rear := s.chairs.rear + 1
      let customer := Function.update s.chairs.customer (rear % s.chairs.max) (some c)
      some ({ s with chairs := { s.chairs with rear := rear, customer := customer } }.customerAt c
        .postMutex)
  | .postMutex =>
    s.using s.main.mutex <|
      some ({ s with chairs := { s.chairs with mutex := semPost s.chairs.mutex } }.customerAt c
        .postItems)
  | .postItems =>
    s.using s.main.items <|
      some ({ s with chairs := { s.chairs with items := semPost s.chairs.items } }.customerAt c
        .waitCustomer)
  | .waitCustomer =>
    (semWait (s.customerMutex c)).map fun v =>
      { s with customerMutex := Function.update s.customerMutex c v }.customerAt c .tail
  | .reject => s.call (s.thrlab.reject c) fun s => s.customerAt c .tail
  | .tail =>
    s.using s.main.thrlab <| s.call (s.thrlab.callbackEnd c) fun s => s.customerAt c .finished
  | .finished => none

/-- `barber_work` in room `b`. -/
def Shop.barberStep (s : Shop) (b : Nat) (fast slow : Bool) : Option Shop :=
  match s.barbers b with
  | .waitItems =>
    s.using s.main.items <| (semWait s.chairs.items).map fun v =>
      { s with chairs := { s.chairs with items := v } }.barberAt b .waitMutex
  | .waitMutex =>
    s.using s.main.mutex <| (semWait s.chairs.mutex).map fun v =>
      { s with chairs := { s.chairs with mutex := v } }.barberAt b .read
  | .read =>
    s.using s.main.ring <|
      let front := s.chairs.front + 1
      match s.chairs.customer (front % s.chairs.max) with
      | none => some (s.finish .undefined)
      | some c => some ({ s with chairs := { s.chairs with front := front } }.barberAt b (.prepare c))
  | .prepare c =>
    s.using (s.main.customer c) <| s.call (s.thrlab.prepare (.barber b) c b) fun s =>
      s.barberAt b (.sleep c)
  | .sleep c =>
    s.using (s.main.customer c) <| s.call (some s.thrlab) fun s => s.barberAt b (.dismiss c)
  | .dismiss c =>
    s.using (s.main.customer c) <| s.call (s.thrlab.dismiss (.barber b) c b fast slow) fun s =>
      s.barberAt b (.postCustomer c)
  | .postCustomer c =>
    s.using (s.main.customer c) <|
      let v := semPost (s.customerMutex c)
      some ({ s with customerMutex := Function.update s.customerMutex c v }.barberAt b (.postMutex c))
  | .postMutex c =>
    s.using s.main.mutex <|
      some ({ s with chairs := { s.chairs with mutex := semPost s.chairs.mutex } }.barberAt b
        (.postSlots c))
  | .postSlots _ =>
    s.using s.main.slots <|
      some ({ s with chairs := { s.chairs with slots := semPost s.chairs.slots } }.barberAt b
        .waitItems)

/-- The barber's thread has been created. -/
def Shop.started (s : Shop) (b : Nat) : Bool :=
  b < s.thrlab.barbers &&
    match s.main with
    | .creating i => b < i
    | _ => true

/-- A step of the process. -/
def step (s : Shop) (a : Act) : Option Shop :=
  if s.ended.isSome then none else
  match a with
  | .main fails => s.mainStep fails
  | .customer c => s.customerStep c
  | .barber b fast slow => if s.started b then s.barberStep b fast slow else none

/-- `main` after `thrlab_setup`, and `setup` up to its loop. -/
def Shop.setup (visitors barbers chairs : Nat) : Shop :=
  { thrlab := .setup visitors barbers chairs
    chairs := { customer := fun _ => none, max := chairs, front := 0, rear := 0,
                mutex := 1, slots := chairs, items := 0 }
    customerMutex := fun _ => 0
    main := .creating 0
    customers := fun _ => .absent
    barbers := fun _ => .waitItems
    ended := none }

end Barbershop
