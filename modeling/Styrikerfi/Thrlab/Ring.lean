import Styrikerfi.Thrlab.Counts

/-!
# The ring of the waiting room and its history

The trace of a run says who took a slot, who was stored, which barber read whom and whose slot was
given back. `Ring` connects these four lists to the ring: what was stored and not yet read is still
in its slot, in order, and the barbers have read exactly a prefix of what was stored.
-/

namespace Barbershop

variable {s s' : Shop} {a : Act}

/-! ## What a run has done -/

/-- The call of the step comes back: the process still runs. -/
def returns (s : Shop) (a : Act) : Bool := (step s a).any fun s' => s'.ended.isNone

/-- `chairs->customer[(++chairs->rear)%(chairs->max)] = customer` -/
def storeEvent (s : Shop) : Act → Option CustomerId
  | .customer c => if s.customers c = .store then some c else none
  | _ => none

/-- `customer = chairs->customer[(++chairs->front) % (chairs->max)]`, with the barber. -/
def readEvent (s : Shop) : Act → Option (Nat × CustomerId)
  | .barber b _ _ =>
    if s.barbers b = .read then
      (s.chairs.customer ((s.chairs.front + 1) % s.chairs.max)).map fun c => (b, c)
    else none
  | _ => none

/-- A `Sem_trywait` on `slots` that takes a unit. -/
def takeEvent (s : Shop) : Act → Option CustomerId
  | .customer c =>
    if s.customers c = .trywait ∧ (semTrywait s.chairs.slots).1 = 0 then some c else none
  | _ => none

/-- The post of `slots` for a customer. -/
def giveEvent (s : Shop) : Act → Option CustomerId
  | .barber b _ _ =>
    match s.barbers b with
    | .postSlots c => some c
    | _ => none
  | _ => none

/-- What a run has done, each list in order. -/
structure History where
  stored : List CustomerId
  reads : List (Nat × CustomerId)
  taken : List CustomerId
  given : List CustomerId

/-- The customers read. -/
def History.readers (H : History) : List CustomerId := H.reads.map Prod.snd

def History.empty : History := ⟨[], [], [], []⟩

def History.add (H : History) (s : Shop) (a : Act) : History :=
  { stored := H.stored ++ (storeEvent s a).toList
    reads := H.reads ++ (readEvent s a).toList
    taken := H.taken ++ (takeEvent s a).toList
    given := H.given ++ (giveEvent s a).toList }

/-- The history of a trace. -/
def history (tr : List (Shop × Act)) : History :=
  tr.foldl (fun H x => if returns x.1 x.2 then H.add x.1 x.2 else H) .empty

/-- A step adds to the history if its call comes back. -/
theorem history_next (tr : List (Shop × Act)) :
    history (tr ++ [(s, a)]) = if returns s a then (history tr).add s a else history tr := by
  simp [history, List.foldl_append]

/-- The customer is stored, and its thread has not come back. -/
def CustomerPc.seated : CustomerPc → Bool
  | .postMutex | .postItems | .waitCustomer => true
  | _ => false

/-- The customer's thread has come back from `customer_arrived`. -/
def CustomerPc.gone : CustomerPc → Bool
  | .tail | .finished => true
  | _ => false

/-- The barber's local `customer`. -/
def BarberPc.customer : BarberPc → Option CustomerId
  | .waitItems | .waitMutex | .read => none
  | .prepare c | .sleep c | .dismiss c | .postCustomer c | .postMutex c | .postSlots c => some c

/-- The ring and the history. -/
structure Ring (H : History) (s : Shop) : Prop where
  rear_eq : s.chairs.rear = H.stored.length
  front_eq : s.chairs.front = H.reads.length
  readers_eq : H.readers = H.stored.take s.chairs.front
  /-- what is stored and not read is still in its slot -/
  slot : ∀ k, s.chairs.front ≤ k → ∀ hk : k < H.stored.length,
    s.chairs.customer ((k + 1) % s.chairs.max) = some H.stored[k]
  stored_nodup : H.stored.Nodup
  stored_pc : ∀ c ∈ H.stored, (s.customers c).seated ∨ (s.customers c).gone
  seated : ∀ c, (s.customers c).seated → c ∈ H.stored
  taken_nodup : H.taken.Nodup
  taken_pc : ∀ c ∈ H.taken, (s.customers c).claims = 1 ∨ c ∈ H.stored
  claims : ∀ c, (s.customers c).claims = 1 → c ∈ H.taken
  stored_sub : H.stored ⊆ H.taken
  serving : ∀ b < s.thrlab.barbers, ∀ c, (s.barbers b).customer = some c →
    (b, c) ∈ H.reads ∧ c ∉ H.given
  given_nodup : H.given.Nodup
  given_sub : H.given ⊆ H.readers
  slots_eq : s.chairs.slots + H.taken.length = s.chairs.max + H.given.length


section
variable {H : History}

/-- The steps of a customer's thread that the history does not record. -/
theorem History.add_customer {c : CustomerId} (h1 : s.customers c ≠ .store)
    (h2 : s.customers c ≠ .trywait) : H.add s (.customer c) = H := by
  simp [History.add, storeEvent, readEvent, takeEvent, giveEvent, h1, h2]

/-- A barber adds to the history where it reads a customer or posts a slot. -/
theorem History.add_barber {b : Nat} {fast slow : Bool} (h1 : s.barbers b ≠ .read)
    (h2 : ∀ c, s.barbers b ≠ .postSlots c) : H.add s (.barber b fast slow) = H := by
  have hg : giveEvent s (.barber b fast slow) = none := by
    simp only [giveEvent]
  simp [History.add, storeEvent, readEvent, takeEvent, hg, h1]

/-- `main` adds nothing to the history. -/
theorem History.add_main {fails : Bool} : H.add s (.main fails) = H := by
  simp [History.add, storeEvent, readEvent, takeEvent, giveEvent]

/-- What the ring's invariant reads, besides the control states of the threads. -/
structure SameRing (s s' : Shop) : Prop where
  customer : s'.chairs.customer = s.chairs.customer
  max : s'.chairs.max = s.chairs.max
  front : s'.chairs.front = s.chairs.front
  rear : s'.chairs.rear = s.chairs.rear
  slots : s'.chairs.slots = s.chairs.slots
  barbers : s'.thrlab.barbers = s.thrlab.barbers

/-- A customer's thread moves, and neither its slot nor its place in the ring changes. -/
theorem Ring.customer (h : Ring H s) {c : CustomerId} {p q : CustomerPc} (hs : SameRing s s')
    (hpc : s.customers c = p) (hc : s'.customers = Function.update s.customers c q)
    (hb : s'.barbers = s.barbers) (hcl : q.claims = p.claims) (hq : q.seated → p.seated)
    (hp : p.seated ∨ p.gone → q.seated ∨ q.gone) : Ring H s' := by
  have hget : ∀ c', c' ≠ c → s'.customers c' = s.customers c' := fun c' hne => by
    rw [hc, Function.update_of_ne hne]
  have hself : s'.customers c = q := by rw [hc, Function.update_self]
  constructor
  · rw [hs.rear, h.rear_eq]
  · rw [hs.front, h.front_eq]
  · rw [hs.front, h.readers_eq]
  · rw [hs.front, hs.customer, hs.max]
    exact h.slot
  · exact h.stored_nodup
  · intro c' hc'
    by_cases hcc : c' = c
    · subst hcc
      exact hself ▸ hp (hpc ▸ h.stored_pc c' hc')
    · exact hget c' hcc ▸ h.stored_pc c' hc'
  · intro c' hc'
    by_cases hcc : c' = c
    · subst hcc
      exact h.seated c' (hpc ▸ hq (hself ▸ hc'))
    · exact h.seated c' (hget c' hcc ▸ hc')
  · exact h.taken_nodup
  · intro c' hc'
    by_cases hcc : c' = c
    · subst hcc
      rw [hself, hcl, ← hpc]
      exact h.taken_pc c' hc'
    · exact hget c' hcc ▸ h.taken_pc c' hc'
  · intro c' hc'
    by_cases hcc : c' = c
    · subst hcc
      rw [hself, hcl, ← hpc] at hc'
      exact h.claims c' hc'
    · exact h.claims c' (hget c' hcc ▸ hc')
  · exact h.stored_sub
  · rw [hs.barbers, hb]
    exact h.serving
  · exact h.given_nodup
  · exact h.given_sub
  · rw [hs.slots, hs.max, h.slots_eq]

/-- A barber's thread moves, and serves whom it served. -/
theorem Ring.barber (h : Ring H s) {b : Nat} {p q : BarberPc} (hs : SameRing s s')
    (hpc : s.barbers b = p) (hc : s'.customers = s.customers)
    (hb : s'.barbers = Function.update s.barbers b q)
    (hq : ∀ c, q.customer = some c → p.customer = some c) : Ring H s' := by
  constructor
  · rw [hs.rear, h.rear_eq]
  · rw [hs.front, h.front_eq]
  · rw [hs.front, h.readers_eq]
  · rw [hs.front, hs.customer, hs.max]
    exact h.slot
  · exact h.stored_nodup
  · exact hc ▸ h.stored_pc
  · exact hc ▸ h.seated
  · exact h.taken_nodup
  · exact hc ▸ h.taken_pc
  · exact hc ▸ h.claims
  · exact h.stored_sub
  · rw [hs.barbers, hb]
    intro b' hb' c hc'
    by_cases hbb : b' = b
    · subst hbb
      rw [Function.update_self] at hc'
      exact h.serving b' hb' c (hpc ▸ hq c hc')
    · rw [Function.update_of_ne hbb] at hc'
      exact h.serving b' hb' c hc'
  · exact h.given_nodup
  · exact h.given_sub
  · rw [hs.slots, hs.max, h.slots_eq]

/-- The customers a barber serves are among those read. -/
theorem Ring.mem_readers (h : Ring H s) {b : Nat} {c : CustomerId} (hb : b < s.thrlab.barbers)
    (hc : (s.barbers b).customer = some c) : c ∈ H.readers :=
  List.mem_map.2 ⟨(b, c), (h.serving b hb c hc).1, rfl⟩

/-- What is read has been stored. -/
theorem Ring.readers_sub (h : Ring H s) : H.readers ⊆ H.stored := by
  rw [h.readers_eq]
  exact List.take_subset ..

/-- No customer is read twice. -/
theorem Ring.readers_nodup (h : Ring H s) : H.readers.Nodup := by
  rw [h.readers_eq]
  exact h.stored_nodup.sublist (List.take_sublist ..)

/-- No two barbers read one customer. -/
theorem Ring.reader_unique (h : Ring H s) {b b' : Nat} {c : CustomerId} (h1 : (b, c) ∈ H.reads)
    (h2 : (b', c) ∈ H.reads) : b = b' :=
  congrArg Prod.fst (List.inj_on_of_nodup_map h.readers_nodup h1 h2 rfl)

/-- A new element at the end of a list. -/
theorem nodup_snoc {l : List CustomerId} {c : CustomerId} (h : l.Nodup) (hc : c ∉ l) :
    (l ++ [c]).Nodup := by
  rw [← List.concat_eq_append]
  exact (List.nodup_concat l c).2 ⟨hc, h⟩

/-- What a list has besides a sublist of it, as sets. -/
theorem length_filter_not_mem {l m : List CustomerId} (hl : l.Nodup) (hm : m.Nodup) (hsub : m ⊆ l) :
    (l.filter (· ∉ m)).length + m.length = l.length := by
  have hperm : (l.filter (· ∈ m)).Perm m := by
    rw [List.perm_ext_iff_of_nodup (hl.filter _) hm]
    intro c
    simpa using fun hc => hsub hc
  have hsplit := List.length_eq_length_filter_add (l := l) (fun c => decide (c ∈ m))
  simp only [← decide_not] at hsplit
  rw [hsplit, hperm.length_eq, Nat.add_comm]

/-- The customer that `Sem_trywait` gives a slot had none. -/
theorem Ring.trywait (h : Ring H s) {c : CustomerId} (hpc : s.customers c = .trywait)
    (hn : 0 < s.chairs.slots) :
    Ring (H.add s (.customer c))
      ({ s with chairs := { s.chairs with slots := s.chairs.slots - 1 } }.customerAt c
        .waitMutex) := by
  have hadd : H.add s (.customer c) = { H with taken := H.taken ++ [c] } := by
    simp [History.add, storeEvent, readEvent, takeEvent, giveEvent, hpc, semTrywait, hn.ne']
  have hst : c ∉ H.stored := fun hc => by
    have := h.stored_pc c hc
    simp [hpc, CustomerPc.seated, CustomerPc.gone] at this
  have htk : c ∉ H.taken := fun hc => by
    have := h.taken_pc c hc
    simp [hpc, CustomerPc.claims, hst] at this
  rw [hadd]
  constructor
  case rear_eq => exact h.rear_eq
  case front_eq => exact h.front_eq
  case readers_eq => exact h.readers_eq
  case slot => exact h.slot
  case stored_nodup => exact h.stored_nodup
  case stored_pc =>
    intro c' hc'
    have hne : c' ≠ c := fun hcc => hst (hcc ▸ hc')
    simpa [Shop.customerAt, Function.update_of_ne hne] using h.stored_pc c' hc'
  case seated =>
    intro c' hc'
    by_cases hcc : c' = c
    · subst hcc
      simp [Shop.customerAt, CustomerPc.seated] at hc'
    · exact h.seated c' (by simpa [Shop.customerAt, Function.update_of_ne hcc] using hc')
  case taken_nodup => exact nodup_snoc h.taken_nodup htk
  case taken_pc =>
    intro c' hc'
    by_cases hcc : c' = c
    · subst hcc
      simp [Shop.customerAt, CustomerPc.claims]
    · simp only [List.mem_append, List.mem_singleton, hcc, or_false] at hc'
      simpa [Shop.customerAt, Function.update_of_ne hcc] using h.taken_pc c' hc'
  case claims =>
    intro c' hc'
    by_cases hcc : c' = c
    · subst hcc
      simp
    · refine List.mem_append_left _ (h.claims c' ?_)
      simpa [Shop.customerAt, Function.update_of_ne hcc] using hc'
  case stored_sub => exact List.subset_append_of_subset_left _ h.stored_sub
  case serving => exact h.serving
  case given_nodup => exact h.given_nodup
  case given_sub => exact h.given_sub
  case slots_eq =>
    have := h.slots_eq
    simp only [Shop.customerAt, List.length_append, List.length_singleton]
    omega

/-- Slots of the window `(front, front + max]` do not clash. -/
theorem mod_ne_of_window {i j n : Nat} (hij : i < j) (hj : j < i + n) : i % n ≠ j % n := by
  intro h
  have hd : n ∣ j - i := Nat.dvd_of_mod_eq_zero (Nat.sub_mod_eq_zero_of_mod_eq h.symm)
  exact absurd (Nat.le_of_dvd (by omega) hd) (by omega)

/-- The customer stored goes to a slot that holds no unread customer. -/
theorem Ring.store (h : Ring H s) (hC : Counts s) {c : CustomerId}
    (hpc : s.customers c = .store) :
    Ring (H.add s (.customer c))
      ({ s with chairs := { s.chairs with
          rear := s.chairs.rear + 1,
          customer := Function.update s.chairs.customer ((s.chairs.rear + 1) % s.chairs.max)
            (some c) } }.customerAt c .postMutex) := by
  have hadd : H.add s (.customer c) = { H with stored := H.stored ++ [c] } := by
    simp [History.add, storeEvent, readEvent, takeEvent, giveEvent, hpc]
  have hst : c ∉ H.stored := fun hc => by
    have := h.stored_pc c hc
    simp [hpc, CustomerPc.seated, CustomerPc.gone] at this
  have htk : c ∈ H.taken := h.claims c (by rw [hpc]; rfl)
  have hroom := hC.rear_lt (c := c) (by rw [hpc]; rfl)
  rw [hadd]
  constructor
  case rear_eq =>
    simp [Shop.customerAt, h.rear_eq]
  case front_eq => exact h.front_eq
  case readers_eq =>
    have hle : s.chairs.front ≤ H.stored.length := h.rear_eq ▸ hC.front_le
    simpa [Shop.customerAt, List.take_append_of_le_length hle, History.readers] using h.readers_eq
  case slot =>
    intro k hk hlt
    simp only [Shop.customerAt, List.length_append, List.length_singleton] at hk hlt ⊢
    rw [h.rear_eq] at hroom ⊢
    by_cases hkl : k = H.stored.length
    · subst hkl
      simp
    · have hlt' : k < H.stored.length := by omega
      have hne := mod_ne_of_window (i := k + 1) (j := H.stored.length + 1) (n := s.chairs.max)
        (by omega) (by omega)
      rw [Function.update_of_ne hne, h.slot k hk hlt', List.getElem_append_left hlt']
  case stored_nodup => exact nodup_snoc h.stored_nodup hst
  case stored_pc =>
    intro c' hc'
    by_cases hcc : c' = c
    · subst hcc
      simp [Shop.customerAt, CustomerPc.seated]
    · simp only [List.mem_append, List.mem_singleton, hcc, or_false] at hc'
      simpa [Shop.customerAt, Function.update_of_ne hcc] using h.stored_pc c' hc'
  case seated =>
    intro c' hc'
    by_cases hcc : c' = c
    · subst hcc
      simp
    · refine List.mem_append_left _ (h.seated c' ?_)
      simpa [Shop.customerAt, Function.update_of_ne hcc] using hc'
  case taken_nodup => exact h.taken_nodup
  case taken_pc =>
    intro c' hc'
    by_cases hcc : c' = c
    · subst hcc
      simp
    · refine (h.taken_pc c' hc').imp ?_ (List.mem_append_left _)
      intro hcl
      simpa [Shop.customerAt, Function.update_of_ne hcc] using hcl
  case claims =>
    intro c' hc'
    by_cases hcc : c' = c
    · exact hcc ▸ htk
    · exact h.claims c' (by simpa [Shop.customerAt, Function.update_of_ne hcc] using hc')
  case stored_sub =>
    intro c' hc'
    rcases List.mem_append.1 hc' with hc' | hc'
    · exact h.stored_sub hc'
    · exact List.mem_singleton.1 hc' ▸ htk
  case serving => exact h.serving
  case given_nodup => exact h.given_nodup
  case given_sub => exact h.given_sub
  case slots_eq => exact h.slots_eq

/-- A barber about to read finds the oldest customer not yet read in the slot. -/
theorem Ring.slot_read (h : Ring H s) (hC : Counts s) {b : Nat} (hb : b < s.thrlab.barbers)
    (hpc : s.barbers b = .read) : ∃ hk : s.chairs.front < H.stored.length,
      s.chairs.customer ((s.chairs.front + 1) % s.chairs.max) = some H.stored[s.chairs.front] := by
  have hlt : s.chairs.front < H.stored.length :=
    h.rear_eq ▸ hC.front_lt hb (by rw [hpc]; rfl)
  exact ⟨hlt, h.slot _ le_rfl hlt⟩

/-- The oldest customer in the ring has not been read. -/
theorem Ring.oldest_not_read (h : Ring H s) (hk : s.chairs.front < H.stored.length) :
    H.stored[s.chairs.front] ∉ H.readers := by
  rw [h.readers_eq, List.mem_take_iff_getElem]
  rintro ⟨i, hi, heq⟩
  have := (h.stored_nodup.getElem_inj_iff).1 heq
  omega

/-- A barber reads the oldest customer. -/
theorem Ring.read (h : Ring H s) (hC : Counts s) {b : Nat} {fast slow : Bool} {c : CustomerId}
    (hb : b < s.thrlab.barbers) (hpc : s.barbers b = .read)
    (hc : s.chairs.customer ((s.chairs.front + 1) % s.chairs.max) = some c) :
    Ring (H.add s (.barber b fast slow))
      ({ s with chairs := { s.chairs with front := s.chairs.front + 1 } }.barberAt b
        (.prepare c)) := by
  have hadd : H.add s (.barber b fast slow) = { H with reads := H.reads ++ [(b, c)] } := by
    simp [History.add, storeEvent, readEvent, takeEvent, giveEvent, hpc, hc]
  obtain ⟨hlt, hslot⟩ := h.slot_read hC hb hpc
  obtain rfl : c = H.stored[s.chairs.front] := Option.some.inj (hc.symm.trans hslot)
  have hnew := h.oldest_not_read hlt
  rw [hadd]
  constructor
  case rear_eq => exact h.rear_eq
  case front_eq => simp [Shop.barberAt, h.front_eq]
  case readers_eq =>
    have hr : List.map Prod.snd H.reads = _ := h.readers_eq
    simp only [Shop.barberAt, History.readers, List.map_append, hr, List.map_singleton]
    rw [List.take_add_one, List.getElem?_eq_getElem hlt, Option.toList_some]
  case slot => exact fun k hk => h.slot k (Nat.le_of_succ_le hk)
  case stored_nodup => exact h.stored_nodup
  case stored_pc => exact h.stored_pc
  case seated => exact h.seated
  case taken_nodup => exact h.taken_nodup
  case taken_pc => exact h.taken_pc
  case claims => exact h.claims
  case stored_sub => exact h.stored_sub
  case serving =>
    intro b' hb' c' hc'
    by_cases hbb : b' = b
    · subst hbb
      simp only [Shop.barberAt, Function.update_self, BarberPc.customer, Option.some.injEq] at hc'
      subst hc'
      exact ⟨by simp, fun hg => hnew (h.given_sub hg)⟩
    · simp only [Shop.barberAt, Function.update_of_ne hbb] at hc'
      exact (h.serving b' hb' c' hc').imp (List.mem_append_left _) id
  case given_nodup => exact h.given_nodup
  case given_sub =>
    intro c' hc'
    simpa [History.readers] using Or.inl (List.mem_map.1 (h.given_sub hc'))
  case slots_eq => exact h.slots_eq

/-- A barber gives back the slot of the customer it has read. -/
theorem Ring.postSlots (h : Ring H s) {b : Nat} {fast slow : Bool} {c : CustomerId}
    (hb : b < s.thrlab.barbers) (hpc : s.barbers b = .postSlots c) :
    Ring (H.add s (.barber b fast slow))
      ({ s with chairs := { s.chairs with slots := s.chairs.slots + 1 } }.barberAt b
        .waitItems) := by
  have hadd : H.add s (.barber b fast slow) = { H with given := H.given ++ [c] } := by
    simp [History.add, storeEvent, readEvent, takeEvent, giveEvent, hpc]
  obtain ⟨hread, hgiven⟩ := h.serving b hb c (by rw [hpc]; rfl)
  rw [hadd]
  constructor
  case rear_eq => exact h.rear_eq
  case front_eq => exact h.front_eq
  case readers_eq => exact h.readers_eq
  case slot => exact h.slot
  case stored_nodup => exact h.stored_nodup
  case stored_pc => exact h.stored_pc
  case seated => exact h.seated
  case taken_nodup => exact h.taken_nodup
  case taken_pc => exact h.taken_pc
  case claims => exact h.claims
  case stored_sub => exact h.stored_sub
  case serving =>
    intro b' hb' c' hc'
    by_cases hbb : b' = b
    · subst hbb
      simp [Shop.barberAt, BarberPc.customer] at hc'
    · simp only [Shop.barberAt, Function.update_of_ne hbb] at hc'
      obtain ⟨hread', hgiven'⟩ := h.serving b' hb' c' hc'
      have hne : c' ≠ c := fun hcc => hbb (h.reader_unique (hcc ▸ hread') hread)
      exact ⟨hread', by simp [hgiven', hne]⟩
  case given_nodup => exact nodup_snoc h.given_nodup hgiven
  case given_sub =>
    intro c' hc'
    rcases List.mem_append.1 hc' with hc' | hc'
    · exact h.given_sub hc'
    · exact List.mem_map.2 ⟨(b, c), hread, (List.mem_singleton.1 hc').symm⟩
  case slots_eq =>
    have := h.slots_eq
    simp only [Shop.barberAt, List.length_append, List.length_singleton]
    omega

/-- `main` goes on, or the run ends. -/
theorem Ring.control (h : Ring H s) (p : MainPc) (e : Option Ending) :
    Ring H { s with main := p, ended := e } :=
  ⟨h.rear_eq, h.front_eq, h.readers_eq, h.slot, h.stored_nodup, h.stored_pc, h.seated,
    h.taken_nodup, h.taken_pc, h.claims, h.stored_sub, h.serving, h.given_nodup, h.given_sub,
    h.slots_eq⟩

/-- The ring's invariant is kept by every move. -/
theorem Ring.next (h : Ring H s) (hC : Counts s) (hm : Moves s a s')
    (hbar : s'.thrlab.barbers = s.thrlab.barbers) : Ring (H.add s a) s' := by
  cases hm with
  | main hp =>
    rw [History.add_main]
    exact h.control _ _
  | arrive hpc ht =>
    obtain ⟨rfl, hlt, rfl⟩ := Thrlab.arrive_eq ht
    rw [History.add_main]
    exact h.customer ⟨rfl, rfl, rfl, rfl, rfl, rfl⟩ hC.absent rfl rfl rfl (by decide) (by decide)
  | trywait hpc hn => exact h.trywait hpc hn
  | store hpc => exact h.store hC hpc
  | read hb hpc hc => exact h.read hC hb hpc hc
  | postSlots hb hpc => exact h.postSlots hb hpc
  | semInit hpc | customerLock hpc | customerUnlock hpc | postItems hpc | waitCustomer hpc =>
    rw [History.add_customer (by simp [hpc]) (by simp [hpc])]
    exact h.customer ⟨rfl, rfl, rfl, rfl, rfl, rfl⟩ hpc rfl rfl rfl (by decide) (by decide)
  | accept hpc ht =>
    rw [History.add_customer (by simp [hpc]) (by simp [hpc])]
    exact h.customer ⟨rfl, rfl, rfl, rfl, rfl, hbar⟩ hpc rfl rfl rfl (by decide) (by decide)
  | reject hpc ht =>
    rw [History.add_customer (by simp [hpc]) (by simp [hpc])]
    exact h.customer ⟨rfl, rfl, rfl, rfl, rfl, hbar⟩ hpc rfl rfl rfl (by decide) (by decide)
  | tail hpc ht =>
    rw [History.add_customer (by simp [hpc]) (by simp [hpc])]
    exact h.customer ⟨rfl, rfl, rfl, rfl, rfl, hbar⟩ hpc rfl rfl rfl (by decide) (by decide)
  | waitItems hb hpc | barberLock hb hpc | sleep hb hpc | postCustomer hb hpc
  | barberUnlock hb hpc =>
    rw [History.add_barber (by simp [hpc]) (by simp [hpc])]
    exact h.barber ⟨rfl, rfl, rfl, rfl, rfl, rfl⟩ hpc rfl rfl (by simp [BarberPc.customer])
  | prepare hb hpc ht =>
    rw [History.add_barber (by simp [hpc]) (by simp [hpc])]
    exact h.barber ⟨rfl, rfl, rfl, rfl, rfl, hbar⟩ hpc rfl rfl (by simp [BarberPc.customer])
  | dismiss hb hpc ht =>
    rw [History.add_barber (by simp [hpc]) (by simp [hpc])]
    exact h.barber ⟨rfl, rfl, rfl, rfl, rfl, hbar⟩ hpc rfl rfl (by simp [BarberPc.customer])

end

end Barbershop
