import Styrikerfi.Thrlab.Bookkeeping
import Styrikerfi.Thrlab.Runs

/-!
# Properties of the barbershop

The results on every run of `main.c`: no violation of the checker's protocol, the ring is a FIFO
that loses nobody, and no deadlock.
-/

namespace Barbershop

variable {H : History} {s : Shop} {visitors barbers chairs b : Nat} {c : CustomerId}

/-! ## The checker's protocol -/

/-- Three customers come to a shop with one barber and two chairs. The second sits down before the
first, and the third when the second has been served and has left. -/
def threeHaircuts : List Act :=
  List.replicate 5 (.main false) ++ List.replicate 7 (.customer 1) ++
    List.replicate 7 (.customer 0) ++ List.replicate 9 (.barber 0 false false) ++
    List.replicate 2 (.customer 1) ++ List.replicate 7 (.customer 2) ++
    List.replicate 18 (.barber 0 false false) ++ List.replicate 2 (.customer 0) ++
    List.replicate 2 (.customer 2)

/-- **No violation of the protocol.** Every accept finds its customer pending and a chair free,
every prepare finds its customer waiting and the room empty, every dismiss finds the same customer
being cut in the room, and no customer leaves waiting or half cut: the counters of these violations
are 0 in every reachable state. -/
theorem no_violation (h : Reachable step (.setup visitors barbers chairs) s) :
    (∀ k, k.outside = false → s.thrlab.complaints k = 0) ∧
    (∀ c, s.customers c = .accept →
      s.thrlab.statuses c = .pending ∧ s.thrlab.numWaiting < s.thrlab.chairs) ∧
    (∀ b < barbers, ∀ c, s.barbers b = .prepare c →
      s.thrlab.statuses c = .waiting ∧ s.thrlab.occupancy b = none) ∧
    (∀ b < barbers, ∀ c, s.barbers b = .dismiss c →
      s.thrlab.statuses c = .cutting ∧ s.thrlab.occupancy b = some c) ∧
    ∀ c, (s.customers c).gone →
      s.thrlab.statuses c ≠ .waiting ∧ s.thrlab.statuses c ≠ .cutting := by
  obtain ⟨H, hR⟩ := reachable_inv h
  have hI := hR.inv
  rw [← hR.barbers_eq]
  refine ⟨hI.clean, fun c hpc => ?_, fun b hb c hpc => ?_, fun b hb c hpc => ?_, fun c hg => ?_⟩
  · exact ⟨(hI.fits c).own _ (by rw [hpc]; rfl), hI.counts.numWaiting_lt hpc⟩
  · exact ⟨(hI.fits c).served b hb _ (by rw [hpc]; rfl),
      (hI.occupancy b hb).trans (by rw [hpc]; rfl)⟩
  · exact ⟨(hI.fits c).served b hb _ (by rw [hpc]; rfl),
      (hI.occupancy b hb).trans (by rw [hpc]; rfl)⟩
  · refine ⟨fun hw => ?_, hI.not_cutting hg⟩
    rcases (hI.fits c).gone hg with hd | hd
    · simp [hw] at hd
    · simp [hw] at hd

/-- All three customers leave, and nothing has been violated. -/
theorem no_violation_haircut : ∃ s, exec step (.setup 3 1 2) threeHaircuts = some s ∧
    (∀ c < 3, s.customers c = .finished) ∧ ∀ k, k.outside = false → s.thrlab.complaints k = 0 := by
  obtain ⟨s, hs, hfin⟩ : ∃ s, exec step (.setup 3 1 2) threeHaircuts = some s ∧
    ∀ c < 3, s.customers c = .finished := ⟨_, rfl, by decide⟩
  exact ⟨s, hs, hfin, (no_violation (Reachable.start.exec hs)).1⟩

/-! ## The ring -/

/-- **The ring is a FIFO that loses nobody.** After every run: -/
theorem ring_fifo {tr : List (Shop × Act)} (h : Run step (.setup visitors barbers chairs) tr s) :
    -- the `k`-th customer read is the `k`-th stored
    ((history tr).readers <+: (history tr).stored ∧
      s.chairs.rear = (history tr).stored.length ∧ s.chairs.front = (history tr).reads.length) ∧
    -- a customer stored and not read is in its slot, and there is room for the next one stored
    (s.chairs.front ≤ s.chairs.rear ∧ s.chairs.rear ≤ s.chairs.front + s.chairs.max ∧
      (∀ k, s.chairs.front ≤ k → ∀ hk : k < (history tr).stored.length,
        s.chairs.customer ((k + 1) % s.chairs.max) = some (history tr).stored[k]) ∧
      ∀ c, s.customers c = .store → s.chairs.rear < s.chairs.front + s.chairs.max) ∧
    -- a barber about to read finds the oldest one not yet read
    (∀ b < barbers, s.barbers b = .read → ∃ hk : s.chairs.front < (history tr).stored.length,
      s.chairs.customer ((s.chairs.front + 1) % s.chairs.max) =
        some (history tr).stored[s.chairs.front]) ∧
    -- nobody is stored or read twice; whom a store has left is stored, and has been read by exactly
    -- one barber before it leaves
    ((history tr).stored.Nodup ∧
      (∀ c ∈ (history tr).readers, ∃! b, (b, c) ∈ (history tr).reads) ∧
      (∀ c, (s.customers c).seated → c ∈ (history tr).stored) ∧
      ∀ c, (s.customers c).gone → s.thrlab.statuses c ≠ .rejected →
        ∃! b, (b, c) ∈ (history tr).reads) ∧
    -- the slots not free are those taken and not given back
    s.chairs.slots + ((history tr).taken.filter (· ∉ (history tr).given)).length = s.chairs.max := by
  have hR := run_inv h
  generalize history tr = H at hR
  have hI := hR.inv
  have hring := hI.ring
  have hunique : ∀ c ∈ H.readers, ∃! b, (b, c) ∈ H.reads := by
    intro c hc
    obtain ⟨⟨b, c'⟩, hmem, rfl⟩ := List.mem_map.1 hc
    exact ⟨b, hmem, fun b' hb' => hring.reader_unique hb' hmem⟩
  refine ⟨⟨?_, hring.rear_eq, hring.front_eq⟩, ⟨hI.counts.front_le, hI.counts.rear_le,
    fun k hk hlt => hring.slot k hk hlt, fun c hpc => hI.counts.rear_lt (by rw [hpc]; rfl)⟩,
    fun b hb hpc => hring.slot_read hI.counts (hR.barbers_eq ▸ hb) hpc,
    ⟨hring.stored_nodup, hunique, hring.seated, fun c hg hne => ?_⟩, ?_⟩
  · exact hring.readers_eq ▸ List.take_prefix ..
  · exact hunique c (((hI.fits c).gone hg).resolve_right fun hd => hne hd.2).1
  · have hlen := length_filter_not_mem hring.taken_nodup hring.given_nodup
      fun c hc => hring.stored_sub (hring.readers_sub (hring.given_sub hc))
    have := hring.slots_eq
    omega

/-- The three customers are read in the order in which they sat down, the third from the slot that
the first of them has left. -/
theorem ring_fifo_haircut : ∃ tr s, Run step (.setup 3 1 2) tr s ∧
    (history tr).readers = [1, 0, 2] ∧ (history tr).readers <+: (history tr).stored ∧
    s.chairs.customer 1 = some 2 ∧
    s.chairs.slots + ((history tr).taken.filter (· ∉ (history tr).given)).length = s.chairs.max := by
  obtain ⟨s, hs, hslot⟩ : ∃ s, exec step (.setup 3 1 2) threeHaircuts = some s ∧
    s.chairs.customer 1 = some 2 := ⟨_, rfl, by decide⟩
  have hrun := Run.start.exec hs
  have hf := ring_fifo hrun
  exact ⟨_, s, hrun, by decide, hf.1.1, hslot, hf.2.2.2.2⟩

/-! ## Deadlock -/

/-- A customer's or a barber's thread can take a step. -/
def Shop.Going (s : Shop) : Prop := ∃ a, (∀ f, a ≠ .main f) ∧ (step s a).isSome

/-- A use of what may be destroyed is a step. -/
theorem using_isSome {live : Bool} {next : Option Shop} (h : next.isSome) :
    (s.using live next).isSome := by
  cases live
  · rfl
  · exact h

/-- A call is a step. -/
theorem call_isSome (r : Option Thrlab) (next : Shop → Shop) : (s.call r next).isSome := by
  unfold Shop.call
  split <;> rfl

/-- Only a wait at 0 holds up a customer's thread. -/
theorem customer_going (hlive : s.ended = none) (habs : s.customers c ≠ .absent)
    (hfin : s.customers c ≠ .finished)
    (hlock : s.customers c = .waitMutex → 0 < s.chairs.mutex)
    (hwake : s.customers c = .waitCustomer → 0 < s.customerMutex c) : s.Going := by
  refine ⟨.customer c, fun f => by simp, ?_⟩
  simp only [step, hlive, Option.isSome_none, Bool.false_eq_true, if_false]
  cases hpc : s.customers c <;> simp only [Shop.customerStep, hpc]
  case absent => exact absurd hpc habs
  case finished => exact absurd hpc hfin
  case semInit => rfl
  case trywait =>
    refine using_isSome ?_
    split <;> rfl
  case waitMutex =>
    refine using_isSome ?_
    rw [Option.isSome_map, semWait, if_neg (hlock hpc).ne']
    rfl
  case accept | reject => exact call_isSome ..
  case store | postMutex | postItems => exact using_isSome rfl
  case waitCustomer =>
    rw [Option.isSome_map, semWait, if_neg (hwake hpc).ne']
    rfl
  case tail => exact using_isSome (call_isSome ..)

/-- Only a wait at 0 holds up a barber's thread. -/
theorem barber_going (hlive : s.ended = none) (hst : s.started b)
    (hitems : s.barbers b = .waitItems → 0 < s.chairs.items)
    (hlock : s.barbers b = .waitMutex → 0 < s.chairs.mutex) : s.Going := by
  refine ⟨.barber b false false, fun f => by simp, ?_⟩
  simp only [step, hlive, Option.isSome_none, Bool.false_eq_true, if_false, hst, if_true]
  cases hpc : s.barbers b <;> simp only [Shop.barberStep, hpc] <;> refine using_isSome ?_
  case waitItems =>
    rw [Option.isSome_map, semWait, if_neg (hitems hpc).ne']
    rfl
  case waitMutex =>
    rw [Option.isSome_map, semWait, if_neg (hlock hpc).ne']
    rfl
  case read => split <;> rfl
  case prepare | sleep | dismiss => exact call_isSome ..
  case postCustomer | postMutex | postSlots => rfl

/-- A tally that is not 0 is owed to a thread. -/
theorem exists_of_tally {α : Type*} {n : Nat} {w : α → Nat} {f : Nat → α} (h : 0 < tally n w f) :
    ∃ i < n, 0 < w (f i) := by
  by_contra hno
  exact h.ne' (tally_eq_zero.2 fun i hi => Nat.eq_zero_of_not_pos fun hw => hno ⟨i, hi, hw⟩)

/-- Once a customer has come every barber has started. -/
theorem RunInv.started (hR : RunInv visitors barbers chairs H s) (hc : s.customers c ≠ .absent)
    (hb : b < s.thrlab.barbers) : s.started b := by
  have hlt := (hR.inv.counts.present c).1 hc
  have hmain := hR.mainOk
  unfold Shop.MainOk at hmain
  unfold Shop.started
  cases hpc : s.main <;> simp only [hpc] at hmain ⊢ <;> simp only [hb, decide_true, Bool.true_and]
  exact absurd (hmain ▸ hlt) (Nat.not_lt_zero c)

/-- Whoever holds the mutex can go on. -/
theorem RunInv.lock_going (hR : RunInv visitors barbers chairs H s) (hlive : s.ended = none)
    (hc : s.customers c ≠ .absent) (hlock : s.chairs.mutex = 0) : s.Going := by
  have hm := hR.inv.counts.mutex_eq
  by_cases hcust : 0 < s.customerTally CustomerPc.locks
  · obtain ⟨c', hc', hw⟩ := exists_of_tally hcust
    refine customer_going (c := c') hlive ?_ ?_ ?_ ?_ <;> intro hpc <;>
      simp [hpc, CustomerPc.locks] at hw
  · have hbarb : 0 < s.barberTally BarberPc.locks := by omega
    obtain ⟨b, hb, hw⟩ := exists_of_tally hbarb
    refine barber_going (b := b) hlive (hR.started hc hb) ?_ ?_ <;> intro hpc <;>
      simp [hpc, BarberPc.locks] at hw

/-- **No deadlock.** While a customer that has arrived has not come back from `customer_arrived`,
a customer's or a barber's thread can take a step. -/
theorem no_deadlock (hb : 1 ≤ barbers) (h : Reachable step (.setup visitors barbers chairs) s)
    (hlive : s.ended = none) (habs : s.customers c ≠ .absent)
    (hgone : (s.customers c).gone = false) : s.Going := by
  obtain ⟨H, hR⟩ := reachable_inv h
  have hI := hR.inv
  by_cases hm : s.chairs.mutex = 0
  · exact hR.lock_going hlive habs hm
  have hlock : 0 < s.chairs.mutex := Nat.pos_of_ne_zero hm
  have hfin : s.customers c ≠ .finished := fun hpc => by simp [hpc, CustomerPc.gone] at hgone
  by_cases hpc : s.customers c = .waitCustomer ∧ s.customerMutex c = 0
  · obtain ⟨hpc, hcm⟩ := hpc
    have hst : c ∈ H.stored := hI.ring.seated c (by rw [hpc]; rfl)
    by_cases hrd : c ∈ H.readers
    · -- a barber serves the customer
      rcases hR.woken c (by rw [hpc]; rfl) hrd with hpos | ⟨b, hb', hu⟩
      · omega
      · refine barber_going (b := b) hlive (hR.started habs hb') ?_ ?_ <;> intro hpb <;>
          simp [hpb, BarberPc.unposted] at hu
    · -- the ring is not empty, so an item is posted or about to be
      have hne : s.chairs.front < s.chairs.rear := by
        by_contra hle
        refine hrd ?_
        rw [hI.ring.readers_eq, List.take_of_length_le (hI.ring.rear_eq ▸ Nat.le_of_not_lt hle)]
        exact hst
      have hitems := hI.counts.items_eq
      by_cases howe : 0 < s.customerTally CustomerPc.owes
      · obtain ⟨c', hc', hw⟩ := exists_of_tally howe
        refine customer_going (c := c') hlive ?_ ?_ ?_ ?_ <;> intro hpc' <;>
          simp [hpc', CustomerPc.owes] at hw
      · by_cases htake : 0 < s.barberTally BarberPc.takes
        · obtain ⟨b, hb', hw⟩ := exists_of_tally htake
          refine barber_going (b := b) hlive (hR.started habs hb') (fun hpb => ?_) fun _ => hlock
          simp [hpb, BarberPc.takes] at hw
        · have hb0 : 0 < s.thrlab.barbers := hR.barbers_eq ▸ hb
          exact barber_going (b := 0) hlive (hR.started habs hb0) (fun _ => by omega) fun _ => hlock
  · exact customer_going (c := c) hlive habs hfin (fun _ => hlock) fun hw =>
      Nat.pos_of_ne_zero fun hz => hpc ⟨hw, hz⟩

/-- Two customers come to a shop with one barber and one chair, the first takes the chair, and the
second finds no slot. -/
def fullShop : List Act :=
  [.main false, .main false, .main false, .main false, .customer 0, .customer 0, .customer 1]

/-- The full shop can go on. -/
theorem no_deadlock_full : ∃ s, exec step (.setup 2 1 1) fullShop = some s ∧ s.Going := by
  obtain ⟨s, hs, hlive, hpc⟩ : ∃ s, exec step (.setup 2 1 1) fullShop = some s ∧
    s.ended = none ∧ s.customers 1 = .trywait := ⟨_, rfl, rfl, by decide⟩
  exact ⟨s, hs, no_deadlock (c := 1) le_rfl (Reachable.start.exec hs) hlive (by simp [hpc])
    (by simp [hpc, CustomerPc.gone])⟩

end Barbershop
