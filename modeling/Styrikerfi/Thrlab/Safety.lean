import Styrikerfi.Thrlab.Ring

/-!
# The barbershop's invariant

`Inv` joins the counts, the ring and the checker's table: the status of every customer agrees with
where its thread is, whether it is stored or read, and which barber serves it (`Fits`), the room of
a barber is occupied exactly during its haircut, and no counter of a violation is raised. `Inv.next`
proves that a move keeps it, and the properties of every run follow.
-/

namespace Barbershop

variable {H H' : History} {s s' : Shop} {a : Act}

/-- The status of a customer whose thread is here, where it follows from the thread alone. -/
def CustomerPc.status : CustomerPc → Option Status
  | .semInit | .trywait | .waitMutex | .accept | .reject => some .pending
  | .store => some .waiting
  | _ => none

/-- The customer a barber serves, with its status. -/
def BarberPc.status : BarberPc → Option (CustomerId × Status)
  | .waitItems | .waitMutex | .read => none
  | .prepare c => some (c, .waiting)
  | .sleep c | .dismiss c => some (c, .cutting)
  | .postCustomer c | .postMutex c | .postSlots c => some (c, .done)

/-- The customer in the barber's room. -/
def BarberPc.inRoom : BarberPc → Option CustomerId
  | .sleep c | .dismiss c => some c
  | _ => none

/-- The counters that no violation of the protocol raises. -/
def Complaint.outside : Complaint → Bool
  | .rejectAvail | .cutFast | .cutSlow => true
  | _ => false

/-- The status of one customer agrees with its thread, the history and the barbers. -/
structure Fits (H : History) (s : Shop) (c : CustomerId) : Prop where
  own : ∀ st, (s.customers c).status = some st → s.thrlab.statuses c = st
  unread : c ∈ H.stored → c ∉ H.readers → s.thrlab.statuses c = .waiting
  served : ∀ b < s.thrlab.barbers, ∀ st, (s.barbers b).status = some (c, st) →
    s.thrlab.statuses c = st
  posted : 0 < s.customerMutex c → c ∈ H.readers ∧ s.thrlab.statuses c = .done
  gone : (s.customers c).gone →
    c ∈ H.readers ∧ s.thrlab.statuses c = .done ∨
      c ∉ H.stored ∧ s.thrlab.statuses c = .rejected

/-- The invariant of the barbershop. -/
structure Inv (H : History) (s : Shop) : Prop where
  counts : Counts s
  ring : Ring H s
  fits : ∀ c, Fits H s c
  occupancy : ∀ b < s.thrlab.barbers, s.thrlab.occupancy b = (s.barbers b).inRoom
  clean : ∀ k, k.outside = false → s.thrlab.complaints k = 0

/-- The customer of a known status is the one the barber serves. -/
theorem BarberPc.customer_of_status {p : BarberPc} {c : CustomerId} {st : Status}
    (h : p.status = some (c, st)) : p.customer = some c := by
  cases p <;> simp_all [BarberPc.status, BarberPc.customer]

/-- A step that changes nothing of what is said about the customer. -/
theorem Fits.frame {c : CustomerId} (h : Fits H s c)
    (hst : s'.thrlab.statuses c = s.thrlab.statuses c)
    (hown : ∀ st, (s'.customers c).status = some st → (s.customers c).status = some st)
    (hgone : (s'.customers c).gone → (s.customers c).gone)
    (hmu : 0 < s'.customerMutex c → 0 < s.customerMutex c)
    (hsto : c ∈ H'.stored → c ∈ H.stored) (hre : c ∈ H.readers → c ∈ H'.readers)
    (hB : s'.thrlab.barbers = s.thrlab.barbers)
    (hbar : ∀ b st, (s'.barbers b).status = some (c, st) → (s.barbers b).status = some (c, st)) :
    Fits H' s' c where
  own st hq := hst ▸ h.own st (hown st hq)
  unread h1 h2 := hst ▸ h.unread (hsto h1) fun h3 => h2 (hre h3)
  served b hb st hq := hst ▸ h.served b (hB ▸ hb) st (hbar b st hq)
  posted hp := (h.posted (hmu hp)).imp hre fun hd => hst ▸ hd
  gone hg := (h.gone (hgone hg)).imp (fun hd => hd.imp hre fun hd => hst ▸ hd)
    fun hd => ⟨fun h1 => hd.1 (hsto h1), hst ▸ hd.2⟩

/-- A customer that is not stored is served by nobody. -/
theorem Fits.not_stored {c : CustomerId} (hR : Ring H s) (hc : c ∉ H.stored)
    (hmu : s.customerMutex c = 0)
    (hown : ∀ st, (s.customers c).status = some st → s.thrlab.statuses c = st)
    (hgone : (s.customers c).gone → s.thrlab.statuses c = .rejected) : Fits H s c where
  own := hown
  unread h1 _ := absurd h1 hc
  served b hb _ hq :=
    absurd (hR.readers_sub (hR.mem_readers hb (BarberPc.customer_of_status hq))) hc
  posted hp := by omega
  gone hg := .inr ⟨hc, hgone hg⟩

/-- A barber takes the customer it serves on to another status. -/
theorem Fits.serve {b : Nat} {c : CustomerId} {st st' : Status} (h : Fits H s c) (hR : Ring H s)
    (hb : b < s.thrlab.barbers) (hp : (s.barbers b).status = some (c, st)) (hne : st ≠ .done)
    (hne' : st ≠ .rejected) (hB : s'.thrlab.barbers = s.thrlab.barbers)
    (hcu : s'.customers = s.customers) (hmu : s'.customerMutex = s.customerMutex)
    (hbar : ∀ b', b' ≠ b → s'.barbers b' = s.barbers b')
    (hq : (s'.barbers b).status = some (c, st')) (hst : s'.thrlab.statuses c = st') :
    Fits H s' c := by
  have hcus := BarberPc.customer_of_status hp
  have hread := hR.mem_readers hb hcus
  have hold := h.served b hb st hp
  constructor
  · intro st₀ hs
    rw [hcu] at hs
    rcases hR.stored_pc c (hR.readers_sub hread) with hpc | hpc <;>
      cases hcc : s.customers c <;> simp [hcc, CustomerPc.seated, CustomerPc.gone,
        CustomerPc.status] at hpc hs
  · exact fun _ hc => absurd hread hc
  · intro b' hb' st₀ hs
    rw [hB] at hb'
    by_cases hbb : b' = b
    · subst hbb
      rw [hq] at hs
      cases hs
      exact hst
    · rw [hbar b' hbb] at hs
      have hcus' := BarberPc.customer_of_status hs
      exact absurd (hR.reader_unique (hR.serving b' hb' c hcus').1 (hR.serving b hb c hcus).1) hbb
  · intro hm
    rw [hmu] at hm
    exact absurd (hold.symm.trans (h.posted hm).2) hne
  · intro hg
    rw [hcu] at hg
    rcases h.gone hg with hd | hd
    · exact absurd (hold.symm.trans hd.2) hne
    · exact absurd (hold.symm.trans hd.2) hne'

/-- A customer reads nobody. -/
theorem History.readers_customer {c : CustomerId} :
    (H.add s (.customer c)).readers = H.readers := by
  simp [History.add, History.readers, readEvent]

/-- A customer stores nobody but itself. -/
theorem History.mem_stored_customer {c c' : CustomerId} (hne : c' ≠ c)
    (h : c' ∈ (H.add s (.customer c)).stored) : c' ∈ H.stored := by
  simp only [History.add, storeEvent, List.mem_append] at h
  refine h.resolve_right fun h => hne ?_
  split at h <;> simp at h
  exact h

/-- Who has been read stays read. -/
theorem History.mem_readers_add {c : CustomerId} (h : c ∈ H.readers) :
    c ∈ (H.add s a).readers := by
  simp only [History.readers, History.add, List.map_append]
  exact List.mem_append_left _ h

/-- A barber stores nobody. -/
theorem History.stored_barber {b : Nat} {fast slow : Bool} :
    (H.add s (.barber b fast slow)).stored = H.stored := by
  simp [History.add, storeEvent]

/-- A customer's thread moves: what is said about the other customers stays. -/
theorem Inv.customer (hI : Inv H s) {c : CustomerId} {q : CustomerPc} (hC : Counts s')
    (hR : Ring H' s') (hsz : s'.thrlab.barbers = s.thrlab.barbers)
    (hcs : s'.customers = Function.update s.customers c q) (hb : s'.barbers = s.barbers)
    (hstat : ∀ c', c' ≠ c → s'.thrlab.statuses c' = s.thrlab.statuses c')
    (hmu : ∀ c', c' ≠ c → s'.customerMutex c' = s.customerMutex c')
    (hocc : s'.thrlab.occupancy = s.thrlab.occupancy)
    (hcl : ∀ k, k.outside = false → s'.thrlab.complaints k = s.thrlab.complaints k)
    (hsto : ∀ c', c' ≠ c → c' ∈ H'.stored → c' ∈ H.stored) (hre : H'.readers = H.readers)
    (hfit : Fits H' s' c) : Inv H' s' := by
  refine ⟨hC, hR, fun c' => ?_, ?_, fun k hk => (hcl k hk).trans (hI.clean k hk)⟩
  · by_cases hcc : c' = c
    · exact hcc ▸ hfit
    · have hget : s'.customers c' = s.customers c' := by rw [hcs, Function.update_of_ne hcc]
      exact (hI.fits c').frame (hstat c' hcc) (by simp [hget]) (by simp [hget])
        (by simp [hmu c' hcc]) (hsto c' hcc) (by simp [hre]) hsz (by simp [hb])
  · rw [hsz, hocc, hb]
    exact hI.occupancy

/-- A barber's thread moves: what is said about the customers it does not serve stays. -/
theorem Inv.barber (hI : Inv H s) {b : Nat} {q : BarberPc} (hC : Counts s') (hR : Ring H' s')
    (hsz : s'.thrlab.barbers = s.thrlab.barbers)
    (hcs : s'.customers = s.customers) (hb : s'.barbers = Function.update s.barbers b q)
    (hstat : ∀ c, q.customer ≠ some c → s'.thrlab.statuses c = s.thrlab.statuses c)
    (hmu : ∀ c, q.customer ≠ some c → s'.customerMutex c = s.customerMutex c)
    (hocc : ∀ b', b' ≠ b → s'.thrlab.occupancy b' = s.thrlab.occupancy b')
    (hroom : s'.thrlab.occupancy b = q.inRoom)
    (hcl : ∀ k, k.outside = false → s'.thrlab.complaints k = s.thrlab.complaints k)
    (hsto : H'.stored = H.stored) (hre : ∀ c ∈ H.readers, c ∈ H'.readers)
    (hfit : ∀ c, q.customer = some c → Fits H' s' c) : Inv H' s' := by
  refine ⟨hC, hR, fun c => ?_, ?_, fun k hk => (hcl k hk).trans (hI.clean k hk)⟩
  · by_cases hq : q.customer = some c
    · exact hfit c hq
    · refine (hI.fits c).frame (hstat c hq) (by simp [hcs]) (by simp [hcs]) (by simp [hmu c hq])
        (by simp [hsto]) (hre c) hsz fun b' st hs => ?_
      by_cases hbb : b' = b
      · subst hbb
        rw [hb, Function.update_self] at hs
        exact absurd (BarberPc.customer_of_status hs) hq
      · rwa [hb, Function.update_of_ne hbb] at hs
  · rw [hsz, hb]
    intro b' hb'
    by_cases hbb : b' = b
    · subst hbb
      rw [hroom, Function.update_self]
    · rw [hocc b' hbb, Function.update_of_ne hbb]
      exact hI.occupancy b' hb'

/-- A customer that is not stored has had no post. -/
theorem Inv.customerMutex_eq (hI : Inv H s) {c : CustomerId} (hc : c ∉ H.stored) :
    s.customerMutex c = 0 := by
  by_contra hne
  exact hc (hI.ring.readers_sub ((hI.fits c).posted (Nat.pos_of_ne_zero hne)).1)

/-- Who is neither seated nor gone is not stored. -/
theorem Inv.not_stored (hI : Inv H s) {c : CustomerId} (h1 : (s.customers c).seated = false)
    (h2 : (s.customers c).gone = false) : c ∉ H.stored := fun hc => by
  have := hI.ring.stored_pc c hc
  simp [h1, h2] at this

/-- A step of a customer's thread that touches only semaphores. -/
theorem Inv.customer_quiet (hI : Inv H s) {c : CustomerId} {p q : CustomerPc}
    (hpc : s.customers c = p) (hC : Counts s') (hR : Ring (H.add s (.customer c)) s')
    (ht : s'.thrlab = s.thrlab) (hcs : s'.customers = Function.update s.customers c q)
    (hb : s'.barbers = s.barbers) (hmu : ∀ c', c' ≠ c → s'.customerMutex c' = s.customerMutex c')
    (hmuc : 0 < s'.customerMutex c → 0 < s.customerMutex c) (hp : p ≠ .store)
    (hown : ∀ st, q.status = some st → p.status = some st) (hgone : q.gone → p.gone) :
    Inv (H.add s (.customer c)) s' := by
  have hself : s'.customers c = q := by rw [hcs, Function.update_self]
  refine hI.customer hC hR (by rw [ht]) hcs hb (by simp [ht]) hmu (by rw [ht]) (by simp [ht])
    (fun _ => History.mem_stored_customer) History.readers_customer ?_
  exact (hI.fits c).frame (by rw [ht]) (by rwa [hself, hpc]) (by rwa [hself, hpc]) hmuc
    (by simp [History.add, storeEvent, hpc, hp]) History.mem_readers_add (by rw [ht]) (by simp [hb])

/-- A step of a barber's thread that touches only semaphores, and serves the same customer with the
same status. -/
theorem Inv.barber_quiet (hI : Inv H s) {b : Nat} {fast slow : Bool} {p q : BarberPc}
    (hbb : b < s.thrlab.barbers) (hpc : s.barbers b = p) (hC : Counts s')
    (hR : Ring (H.add s (.barber b fast slow)) s') (ht : s'.thrlab = s.thrlab)
    (hcs : s'.customers = s.customers) (hb : s'.barbers = Function.update s.barbers b q)
    (hmu : s'.customerMutex = s.customerMutex) (hroom : q.inRoom = p.inRoom)
    (hq : q.customer = none ∨ q.status = p.status) : Inv (H.add s (.barber b fast slow)) s' := by
  refine hI.barber hC hR (by rw [ht]) hcs hb (by simp [ht]) (by simp [hmu]) (by simp [ht]) ?_
    (by simp [ht]) History.stored_barber (fun _ => History.mem_readers_add) fun c hc => ?_
  · rw [ht, hroom, ← hpc]
    exact hI.occupancy b hbb
  · refine (hI.fits c).frame (by rw [ht]) (by simp [hcs]) (by simp [hcs]) (by simp [hmu])
      (by simp [History.stored_barber]) History.mem_readers_add (by rw [ht]) fun b' st hs => ?_
    by_cases hbb' : b' = b
    · subst hbb'
      rw [hb, Function.update_self] at hs
      rw [hpc]
      exact hq.resolve_left (by simp [hc]) ▸ hs
    · rwa [hb, Function.update_of_ne hbb'] at hs

/-- An accept finds the customer pending and a chair free. -/
theorem Inv.accept_eq (hI : Inv H s) {c : CustomerId} (hpc : s.customers c = .accept) :
    s.thrlab.accept c = some { s.thrlab.setStatus c .waiting with
      numWaiting := s.thrlab.numWaiting + 1, numPending := sizeDec s.thrlab.numPending } :=
  Thrlab.accept_pending (hI.counts.lt_visitors (by simp [hpc]))
    ((hI.fits c).own _ (by rw [hpc]; rfl)) (hI.counts.numWaiting_lt hpc)

/-- The step that accepts the customer. -/
theorem Inv.accept (hI : Inv H s) {c : CustomerId} {t : Thrlab} (hpc : s.customers c = .accept)
    (ht : s.thrlab.accept c = some t)
    (hR : t.barbers = s.thrlab.barbers → Ring (H.add s (.customer c))
      ({ s with thrlab := t }.customerAt c .store)) :
    Inv (H.add s (.customer c)) ({ s with thrlab := t }.customerAt c .store) := by
  obtain rfl := Option.some.inj ((hI.accept_eq hpc).symm.trans ht)
  have hst : c ∉ H.stored := hI.not_stored (by rw [hpc]; rfl) (by rw [hpc]; rfl)
  refine hI.customer ?_ (hR rfl) rfl rfl rfl (fun c' hne => Function.update_of_ne hne _ _)
    (fun _ _ => rfl) rfl (fun _ _ => rfl) (fun _ => History.mem_stored_customer)
    History.readers_customer ?_
  · exact hI.counts.customer hpc (by decide) (by decide) ⟨rfl, rfl, rfl, rfl⟩ rfl rfl rfl rfl rfl
      rfl rfl rfl
  · have hadd : H.add s (.customer c) = H := History.add_customer (by simp [hpc]) (by simp [hpc])
    rw [hadd] at hR ⊢
    refine .not_stored (hR rfl) hst (hI.customerMutex_eq hst) ?_ ?_
    · simp [Shop.customerAt, CustomerPc.status, Thrlab.setStatus]
    · simp [Shop.customerAt, CustomerPc.gone]

/-- The step that rejects the customer. -/
theorem Inv.reject (hI : Inv H s) {c : CustomerId} {t : Thrlab} (hpc : s.customers c = .reject)
    (ht : s.thrlab.reject c = some t)
    (hR : t.barbers = s.thrlab.barbers → Ring (H.add s (.customer c))
      ({ s with thrlab := t }.customerAt c .tail)) :
    Inv (H.add s (.customer c)) ({ s with thrlab := t }.customerAt c .tail) := by
  have hc : c < s.thrlab.visitors := hI.counts.lt_visitors (by simp [hpc])
  rw [Thrlab.reject_pending hc ((hI.fits c).own _ (by rw [hpc]; rfl))] at ht
  obtain rfl := Option.some.inj ht
  -- whether a chair is counted as free decides one counter, and no other field
  obtain ⟨u, hu, hk⟩ : ∃ u : Thrlab, u = (if s.thrlab.numWaiting < s.thrlab.chairs then
      s.thrlab.complain .rejectAvail else s.thrlab) ∧
      u = { s.thrlab with complaints := u.complaints } ∧
      ∀ k, k.outside = false → u.complaints k = s.thrlab.complaints k := by
    refine ⟨_, rfl, ?_⟩
    split
    · refine ⟨rfl, fun k hk => Function.update_of_ne ?_ _ _⟩
      rintro rfl
      cases hk
    · exact ⟨rfl, fun _ _ => rfl⟩
  rw [← hu] at hR ⊢
  rw [hk.1] at hR ⊢
  have hst : c ∉ H.stored := hI.not_stored (by rw [hpc]; rfl) (by rw [hpc]; rfl)
  refine hI.customer ?_ (hR rfl) rfl rfl rfl (fun c' hne => Function.update_of_ne hne _ _)
    (fun _ _ => rfl) rfl hk.2 (fun _ => History.mem_stored_customer) History.readers_customer ?_
  · exact hI.counts.customer hpc (by decide) (by decide) ⟨rfl, rfl, rfl, rfl⟩ rfl rfl rfl rfl rfl
      rfl rfl rfl
  · have hadd : H.add s (.customer c) = H := History.add_customer (by simp [hpc]) (by simp [hpc])
    rw [hadd] at hR ⊢
    refine .not_stored (hR rfl) hst (hI.customerMutex_eq hst) ?_ ?_
    · simp [Shop.customerAt, CustomerPc.status]
    · simp [Shop.customerAt, Thrlab.setStatus]

/-- The step that stores the customer. -/
theorem Inv.store (hI : Inv H s) {c : CustomerId} (hpc : s.customers c = .store)
    (hR : Ring (H.add s (.customer c))
      ({ s with chairs := { s.chairs with
          rear := s.chairs.rear + 1,
          customer := Function.update s.chairs.customer ((s.chairs.rear + 1) % s.chairs.max)
            (some c) } }.customerAt c .postMutex)) :
    Inv (H.add s (.customer c))
      ({ s with chairs := { s.chairs with
          rear := s.chairs.rear + 1,
          customer := Function.update s.chairs.customer ((s.chairs.rear + 1) % s.chairs.max)
            (some c) } }.customerAt c .postMutex) := by
  have hst : c ∉ H.stored := hI.not_stored (by rw [hpc]; rfl) (by rw [hpc]; rfl)
  have hrd : c ∉ H.readers := fun hc => hst (hI.ring.readers_sub hc)
  refine hI.customer ?_ hR rfl rfl rfl (fun _ _ => rfl) (fun _ _ => rfl) rfl (fun _ _ => rfl)
    (fun _ => History.mem_stored_customer) History.readers_customer ?_
  · refine hI.counts.customer hpc (by decide) (by decide) (.refl _) rfl rfl rfl rfl rfl ?_ ?_ ?_ <;>
      simp only [Shop.customerAt, CustomerPc.claims, CustomerPc.owes, CustomerPc.stores] <;> omega
  · constructor
    · simp [Shop.customerAt, CustomerPc.status]
    · exact fun _ _ => (hI.fits c).own _ (by rw [hpc]; rfl)
    · intro b hb st hs
      exact absurd (hI.ring.mem_readers hb (BarberPc.customer_of_status hs)) hrd
    · intro hm
      exact absurd (hI.customerMutex_eq hst) hm.ne'
    · simp [Shop.customerAt, CustomerPc.gone]

/-- The step on which the customer is woken. -/
theorem Inv.waitCustomer (hI : Inv H s) {c : CustomerId} (hpc : s.customers c = .waitCustomer)
    (hn : 0 < s.customerMutex c)
    (hR : Ring (H.add s (.customer c))
      ({ s with
        customerMutex := Function.update s.customerMutex c (s.customerMutex c - 1) }.customerAt c
          .tail)) :
    Inv (H.add s (.customer c))
      ({ s with
        customerMutex := Function.update s.customerMutex c (s.customerMutex c - 1) }.customerAt c
          .tail) := by
  have hadd : H.add s (.customer c) = H := History.add_customer (by simp [hpc]) (by simp [hpc])
  rw [hadd] at hR ⊢
  refine hI.customer ?_ hR rfl rfl rfl (fun _ _ => rfl)
    (fun c' hne => Function.update_of_ne hne _ _) rfl (fun _ _ => rfl) (fun _ _ => id) rfl ?_
  · exact hI.counts.customer hpc (by decide) (by decide) (.refl _) rfl rfl rfl rfl rfl rfl rfl rfl
  · have hdone := (hI.fits c).posted hn
    constructor
    · simp [Shop.customerAt, CustomerPc.status]
    · exact (hI.fits c).unread
    · exact (hI.fits c).served
    · exact fun _ => hdone
    · exact fun _ => .inl hdone

/-- The step on which a barber reads the customer. -/
theorem Inv.read (hI : Inv H s) {b : Nat} {fast slow : Bool} {c : CustomerId}
    (hb : b < s.thrlab.barbers) (hpc : s.barbers b = .read)
    (hc : s.chairs.customer ((s.chairs.front + 1) % s.chairs.max) = some c)
    (hR : Ring (H.add s (.barber b fast slow))
      ({ s with chairs := { s.chairs with front := s.chairs.front + 1 } }.barberAt b
        (.prepare c))) :
    Inv (H.add s (.barber b fast slow))
      ({ s with chairs := { s.chairs with front := s.chairs.front + 1 } }.barberAt b
        (.prepare c)) := by
  obtain ⟨hlt, hslot⟩ := hI.ring.slot_read hI.counts hb hpc
  obtain rfl : c = H.stored[s.chairs.front] := Option.some.inj (hc.symm.trans hslot)
  have hst : H.stored[s.chairs.front] ∈ H.stored := List.getElem_mem hlt
  have hrd := hI.ring.oldest_not_read hlt
  refine hI.barber ?_ hR rfl rfl rfl (fun _ _ => rfl) (fun _ _ => rfl) (fun _ _ => rfl) ?_
    (fun _ _ => rfl) History.stored_barber (fun _ => History.mem_readers_add) fun c hq => ?_
  · refine hI.counts.barber hb hpc (.refl _) rfl rfl rfl rfl rfl ?_ ?_ ?_ <;>
      simp only [Shop.barberAt, BarberPc.serves, BarberPc.takes, BarberPc.prepares] <;> omega
  · exact (hI.occupancy b hb).trans (by rw [hpc]; rfl)
  · obtain rfl := Option.some.inj hq
    have hfit := hI.fits H.stored[s.chairs.front]
    constructor
    · exact hfit.own
    · intro _ hnot
      have hmem : H.stored[s.chairs.front] ∈ (H.add s (.barber b fast slow)).readers := by
        simp [History.readers, History.add, readEvent, hpc, hc]
      exact absurd hmem hnot
    · intro b' hb' st hs
      by_cases hbb : b' = b
      · subst hbb
        simp only [Shop.barberAt, Function.update_self, BarberPc.status, Option.some.injEq,
          Prod.mk.injEq, true_and] at hs
        exact (hfit.unread hst hrd).trans hs
      · simp only [Shop.barberAt, Function.update_of_ne hbb] at hs
        exact hfit.served b' hb' st hs
    · exact fun hp => (hfit.posted hp).imp History.mem_readers_add id
    · intro hg
      rw [History.stored_barber]
      exact (hfit.gone hg).imp (fun hd => hd.imp History.mem_readers_add id) id

/-- The customer a barber serves exists. -/
theorem Inv.served_lt (hI : Inv H s) {b : Nat} {c : CustomerId} (hb : b < s.thrlab.barbers)
    (hc : (s.barbers b).customer = some c) : c < s.thrlab.visitors := by
  refine hI.counts.lt_visitors fun habs => ?_
  have hpc := hI.ring.stored_pc c (hI.ring.readers_sub (hI.ring.mem_readers hb hc))
  simp [habs, CustomerPc.seated, CustomerPc.gone] at hpc

/-- A prepare finds its customer waiting and the room empty. -/
theorem Inv.prepare_eq (hI : Inv H s) {b : Nat} {c : CustomerId} (hb : b < s.thrlab.barbers)
    (hpc : s.barbers b = .prepare c) :
    s.thrlab.prepare (.barber b) c b = some
      { (s.thrlab.setOccupancy b (some c)).setStatus c .cutting with
        numCutting := s.thrlab.numCutting + 1, numWaiting := sizeDec s.thrlab.numWaiting } := by
  refine Thrlab.prepare_waiting (hI.served_lt hb (by rw [hpc]; rfl)) hb (by simp) ?_ ?_
  · exact (hI.fits c).served b hb _ (by rw [hpc]; rfl)
  · exact (hI.occupancy b hb).trans (by rw [hpc]; rfl)

/-- A barber takes its customer on to the status `st'`, and its room is as its next step has it. -/
theorem Inv.serve (hI : Inv H s) {b : Nat} {c : CustomerId} {st st' : Status} {q : BarberPc}
    {t : Thrlab} (hb : b < s.thrlab.barbers) (hp : (s.barbers b).status = some (c, st))
    (hne : st ≠ .done) (hne' : st ≠ .rejected) (hq : q.status = some (c, st'))
    (hC : Counts ({ s with thrlab := t }.barberAt b q))
    (hR : Ring H ({ s with thrlab := t }.barberAt b q)) (hsz : t.barbers = s.thrlab.barbers)
    (hstat : t.statuses = Function.update s.thrlab.statuses c st')
    (hocc : t.occupancy = Function.update s.thrlab.occupancy b q.inRoom)
    (hcl : ∀ k, k.outside = false → t.complaints k = s.thrlab.complaints k) :
    Inv H ({ s with thrlab := t }.barberAt b q) := by
  have hcus : q.customer = some c := BarberPc.customer_of_status hq
  refine hI.barber hC hR hsz rfl rfl (fun c' hc' => ?_) (fun _ _ => rfl) (fun b' hbb => ?_) ?_ hcl
    rfl (fun _ => id) fun c' hc' => ?_
  · show t.statuses c' = s.thrlab.statuses c'
    rw [hstat, Function.update_of_ne fun h => hc' (by rw [h, hcus])]
  · show t.occupancy b' = s.thrlab.occupancy b'
    rw [hocc, Function.update_of_ne hbb]
  · show t.occupancy b = q.inRoom
    rw [hocc, Function.update_self]
  · obtain rfl := Option.some.inj (hcus.symm.trans hc')
    have hself : (({ s with thrlab := t }.barberAt b q).barbers b).status = some (c, st') := by
      show (Function.update s.barbers b q b).status = _
      rw [Function.update_self, hq]
    have hnew : t.statuses c = st' := by rw [hstat, Function.update_self]
    exact (hI.fits c).serve hI.ring hb hp hne hne' hsz rfl rfl
      (fun b' hbb => Function.update_of_ne hbb _ _) hself hnew

/-- The step that prepares the customer. -/
theorem Inv.prepare (hI : Inv H s) {b : Nat} {fast slow : Bool} {c : CustomerId} {t : Thrlab}
    (hb : b < s.thrlab.barbers) (hpc : s.barbers b = .prepare c)
    (ht : s.thrlab.prepare (.barber b) c b = some t)
    (hR : t.barbers = s.thrlab.barbers →
      Ring (H.add s (.barber b fast slow)) ({ s with thrlab := t }.barberAt b (.sleep c))) :
    Inv (H.add s (.barber b fast slow)) ({ s with thrlab := t }.barberAt b (.sleep c)) := by
  obtain rfl := Option.some.inj ((hI.prepare_eq hb hpc).symm.trans ht)
  have hadd : H.add s (.barber b fast slow) = H :=
    History.add_barber (by simp [hpc]) (by simp [hpc])
  rw [hadd] at hR ⊢
  have hnum : 0 < s.thrlab.numWaiting := by
    have hle : (s.barbers b).prepares ≤ s.barberTally BarberPc.prepares := le_tally hb
    have h1 := hI.counts.waiting_eq
    have h2 := hI.counts.front_le
    rw [hpc, BarberPc.prepares] at hle
    omega
  refine hI.serve hb (by rw [hpc]; rfl) (by decide) (by decide) rfl ?_ (hR rfl) rfl rfl rfl
    fun _ _ => rfl
  refine hI.counts.barber hb hpc ⟨rfl, rfl, rfl, rfl⟩ rfl rfl rfl rfl rfl rfl rfl ?_
  simp only [Shop.barberAt, BarberPc.prepares, sizeDec, if_neg hnum.ne']
  omega

/-- A dismiss finds in its room the customer it has been cutting. -/
theorem Inv.dismiss_eq (hI : Inv H s) {b : Nat} {c : CustomerId} (hb : b < s.thrlab.barbers)
    (hpc : s.barbers b = .dismiss c) (fast slow : Bool) :
    ∃ k, s.thrlab.dismiss (.barber b) c b fast slow = some
        { (s.thrlab.setOccupancy b none).setStatus c .done with
          numCutting := sizeDec s.thrlab.numCutting, complaints := k } ∧
      ∀ i, i.outside = false → k i = s.thrlab.complaints i := by
  have hst := (hI.fits c).served b hb _ (by rw [hpc]; rfl)
  have hself : Thread.barber b ≠ .customer c := by simp
  obtain ⟨k, hk, hclean⟩ := Thrlab.dismiss_cutting (hI.served_lt hb (by rw [hpc]; rfl)) hb hself hst
    ((hI.occupancy b hb).trans (by rw [hpc]; rfl)) fast slow
  refine ⟨k, hk, fun i hi => hclean i ?_ ?_⟩ <;> rintro rfl <;> cases hi

/-- The step that dismisses the customer. -/
theorem Inv.dismiss (hI : Inv H s) {b : Nat} {fast slow : Bool} {c : CustomerId} {t : Thrlab}
    (hb : b < s.thrlab.barbers) (hpc : s.barbers b = .dismiss c)
    (ht : s.thrlab.dismiss (.barber b) c b fast slow = some t)
    (hR : t.barbers = s.thrlab.barbers →
      Ring (H.add s (.barber b fast slow)) ({ s with thrlab := t }.barberAt b (.postCustomer c))) :
    Inv (H.add s (.barber b fast slow)) ({ s with thrlab := t }.barberAt b (.postCustomer c)) := by
  obtain ⟨k, hk, hclean⟩ := hI.dismiss_eq hb hpc fast slow
  obtain rfl := Option.some.inj (hk.symm.trans ht)
  have hadd : H.add s (.barber b fast slow) = H :=
    History.add_barber (by simp [hpc]) (by simp [hpc])
  rw [hadd] at hR ⊢
  exact hI.serve hb (by rw [hpc]; rfl) (by decide) (by decide) rfl
    (hI.counts.barber hb hpc ⟨rfl, rfl, rfl, rfl⟩ rfl rfl rfl rfl rfl rfl rfl rfl) (hR rfl) rfl rfl
    rfl hclean

/-- The step that wakes the customer. -/
theorem Inv.postCustomer (hI : Inv H s) {b : Nat} {fast slow : Bool} {c : CustomerId}
    (hb : b < s.thrlab.barbers) (hpc : s.barbers b = .postCustomer c)
    (hR : Ring (H.add s (.barber b fast slow))
      ({ s with
        customerMutex := Function.update s.customerMutex c (s.customerMutex c + 1) }.barberAt b
          (.postMutex c))) :
    Inv (H.add s (.barber b fast slow))
      ({ s with
        customerMutex := Function.update s.customerMutex c (s.customerMutex c + 1) }.barberAt b
          (.postMutex c)) := by
  have hadd : H.add s (.barber b fast slow) = H :=
    History.add_barber (by simp [hpc]) (by simp [hpc])
  rw [hadd] at hR ⊢
  have hdone := (hI.fits c).served b hb _ (by rw [hpc]; rfl)
  have hrd := hI.ring.mem_readers hb (by rw [hpc]; rfl)
  refine hI.barber ?_ hR rfl rfl rfl (fun _ _ => rfl) ?_ (fun _ _ => rfl) ?_ (fun _ _ => rfl) rfl
    (fun _ => id) fun c' hq => ?_
  · exact hI.counts.barber hb hpc (.refl _) rfl rfl rfl rfl rfl rfl rfl rfl
  · exact fun c' hne => Function.update_of_ne (fun h => hne (by rw [h]; rfl)) _ _
  · exact (hI.occupancy b hb).trans (by rw [hpc]; rfl)
  · obtain rfl := Option.some.inj hq
    constructor
    · exact (hI.fits c).own
    · exact fun _ hnot => absurd hrd hnot
    · intro b' hb' st hs
      by_cases hbb : b' = b
      · subst hbb
        simp only [Shop.barberAt, Function.update_self, BarberPc.status, Option.some.injEq,
          Prod.mk.injEq, true_and] at hs
        exact hdone.trans hs
      · simp only [Shop.barberAt, Function.update_of_ne hbb] at hs
        exact (hI.fits c).served b' hb' st hs
    · exact fun _ => ⟨hrd, hdone⟩
    · exact (hI.fits c).gone

/-- `main` goes on, or the run ends. -/
theorem Inv.control (hI : Inv H s) (p : MainPc) (e : Option Ending) :
    Inv H { s with main := p, ended := e } where
  counts := ⟨hI.counts.max_eq, hI.counts.mutex_eq, hI.counts.slots_eq, hI.counts.items_eq,
    hI.counts.waiting_eq, hI.counts.present, hI.counts.bound⟩
  ring := hI.ring.control p e
  fits c := (hI.fits c).frame rfl (fun _ => id) id id id id rfl fun _ _ => id
  occupancy := hI.occupancy
  clean := hI.clean

/-- The step on which a customer arrives. -/
theorem Inv.arrive (hI : Inv H s) {c : CustomerId} {t : Thrlab} (p : MainPc)
    (ht : s.thrlab.arrive = some (c, t))
    (hR : t.barbers = s.thrlab.barbers →
      Ring H ({ s with thrlab := t, main := p }.customerAt c .semInit)) :
    Inv H ({ s with thrlab := t, main := p }.customerAt c .semInit) := by
  have hC := hI.counts.arrive p ht
  obtain ⟨rfl, hlt, rfl⟩ := Thrlab.arrive_eq ht
  have habs := hI.counts.absent
  have hst : s.thrlab.customerCount ∉ H.stored :=
    hI.not_stored (by rw [habs]; rfl) (by rw [habs]; rfl)
  refine hI.customer hC (hR rfl) rfl rfl rfl (fun c' hne => Function.update_of_ne hne _ _)
    (fun _ _ => rfl) rfl (fun _ _ => rfl) (fun _ _ => id) rfl ?_
  refine .not_stored (hR rfl) hst (hI.customerMutex_eq hst) ?_ ?_
  · simp [Shop.customerAt, CustomerPc.status, Thrlab.setStatus]
  · simp [Shop.customerAt, CustomerPc.gone]

/-- A customer whose thread has come back is done or rejected. -/
theorem Inv.not_cutting (hI : Inv H s) {c : CustomerId} (hgone : (s.customers c).gone) :
    s.thrlab.statuses c ≠ .cutting := by
  rcases (hI.fits c).gone hgone with hd | hd
  · simp [hd.2]
  · simp [hd.2]

/-- The step that ends the callback. -/
theorem Inv.tail (hI : Inv H s) {c : CustomerId} {t : Thrlab} (hpc : s.customers c = .tail)
    (ht : s.thrlab.callbackEnd c = some t)
    (hR : t.barbers = s.thrlab.barbers → Ring (H.add s (.customer c))
      ({ s with thrlab := t }.customerAt c .finished)) :
    Inv (H.add s (.customer c)) ({ s with thrlab := t }.customerAt c .finished) := by
  have hcut := hI.not_cutting (c := c) (by rw [hpc]; rfl)
  rw [Thrlab.callbackEnd_eq (hI.counts.lt_visitors (by simp [hpc])) hcut] at ht
  obtain rfl := Option.some.inj ht
  refine hI.customer_quiet hpc ?_ (hR rfl) rfl rfl rfl (fun _ _ => rfl) id (by decide) (by decide)
    (by decide)
  exact hI.counts.customer hpc (by decide) (by decide) (.refl _) rfl rfl rfl rfl rfl rfl rfl rfl

/-- The invariant is kept by every move. -/
theorem Inv.next (hI : Inv H s) (hm : Moves s a s') : Inv (H.add s a) s' := by
  have hring := hI.ring.next hI.counts hm
  cases hm with
  | main hp =>
    rw [History.add_main]
    exact hI.control _ _
  | arrive hpc ht =>
    rw [History.add_main] at hring ⊢
    exact hI.arrive _ ht hring
  | semInit hpc =>
    refine hI.customer_quiet hpc ?_ (hring rfl) rfl rfl rfl
      (fun c' hne => Function.update_of_ne hne _ _) (by simp [Shop.customerAt]) (by decide)
      (by decide) (by decide)
    exact hI.counts.customer hpc (by decide) (by decide) (.refl _) rfl rfl rfl rfl rfl rfl rfl rfl
  | trywait hpc hn =>
    refine hI.customer_quiet hpc ?_ (hring rfl) rfl rfl rfl
      (fun _ _ => rfl) id (by decide) (by decide) (by decide)
    refine hI.counts.customer hpc (by decide) (by decide) (.refl _) rfl rfl rfl rfl rfl ?_ rfl rfl
    simp only [Shop.customerAt, CustomerPc.claims]
    omega
  | customerLock hpc hn =>
    refine hI.customer_quiet hpc ?_ (hring rfl) rfl rfl rfl
      (fun _ _ => rfl) id (by decide) (by decide) (by decide)
    refine hI.counts.customer hpc (by decide) (by decide) (.refl _) rfl rfl rfl rfl ?_ rfl rfl rfl
    simp only [Shop.customerAt, CustomerPc.locks]
    omega
  | accept hpc ht => exact hI.accept hpc ht hring
  | store hpc => exact hI.store hpc (hring rfl)
  | customerUnlock hpc =>
    refine hI.customer_quiet hpc ?_ (hring rfl) rfl rfl rfl
      (fun _ _ => rfl) id (by decide) (by decide) (by decide)
    exact hI.counts.customer hpc (by decide) (by decide) (.refl _) rfl rfl rfl rfl rfl rfl rfl rfl
  | postItems hpc =>
    refine hI.customer_quiet hpc ?_ (hring rfl) rfl rfl rfl
      (fun _ _ => rfl) id (by decide) (by decide) (by decide)
    refine hI.counts.customer hpc (by decide) (by decide) (.refl _) rfl rfl rfl rfl rfl rfl ?_ rfl
    simp only [Shop.customerAt, CustomerPc.owes]
  | waitCustomer hpc hn => exact hI.waitCustomer hpc hn (hring rfl)
  | reject hpc ht => exact hI.reject hpc ht hring
  | tail hpc ht => exact hI.tail hpc ht hring
  | waitItems hb hpc hn =>
    refine hI.barber_quiet hb hpc ?_ (hring rfl) rfl rfl rfl rfl rfl (.inl rfl)
    refine hI.counts.barber hb hpc (.refl _) rfl rfl rfl rfl rfl rfl ?_ rfl
    simp only [Shop.barberAt, BarberPc.takes]
    omega
  | barberLock hb hpc hn =>
    refine hI.barber_quiet hb hpc ?_ (hring rfl) rfl rfl rfl rfl rfl (.inl rfl)
    refine hI.counts.barber hb hpc (.refl _) rfl rfl rfl rfl ?_ rfl rfl rfl
    simp only [Shop.barberAt, BarberPc.locks]
    omega
  | read hb hpc hc => exact hI.read hb hpc hc (hring rfl)
  | prepare hb hpc ht => exact hI.prepare hb hpc ht hring
  | sleep hb hpc =>
    refine hI.barber_quiet hb hpc ?_ (hring rfl) rfl rfl rfl rfl rfl (.inr rfl)
    exact hI.counts.barber hb hpc (.refl _) rfl rfl rfl rfl rfl rfl rfl rfl
  | dismiss hb hpc ht => exact hI.dismiss hb hpc ht hring
  | postCustomer hb hpc => exact hI.postCustomer hb hpc (hring rfl)
  | barberUnlock hb hpc =>
    refine hI.barber_quiet hb hpc ?_ (hring rfl) rfl rfl rfl rfl rfl (.inr rfl)
    exact hI.counts.barber hb hpc (.refl _) rfl rfl rfl rfl rfl rfl rfl rfl
  | postSlots hb hpc =>
    refine hI.barber_quiet hb hpc ?_ (hring rfl) rfl rfl rfl rfl rfl (.inl rfl)
    exact hI.counts.barber hb hpc (.refl _) rfl rfl rfl rfl rfl rfl rfl rfl

end Barbershop
