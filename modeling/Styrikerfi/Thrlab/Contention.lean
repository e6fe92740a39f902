import Styrikerfi.Thrlab.Properties

/-!
# What the semaphores do not give

Where the barbershop falls short of what it is for. `Sem_trywait` treats a full shop as an error and
ends the process. A barber holds the mutex of the ring through the whole haircut, so haircuts take
turns and nobody is accepted during one. A slot is given back after the haircut, so the slots taken
are more than the chairs in use. Joining the customers is no join of the barbers, so `cleanup` pulls
the semaphores from under them.
-/

namespace Barbershop

variable {H : History} {s s' : Shop} {visitors barbers chairs b : Nat} {c : CustomerId}

/-! ## A full shop -/

/-- What a full shop should do for an arriving customer: the customer ends rejected, and the process
goes on. -/
def TurnedAway (s : Shop) (c : CustomerId) : Prop :=
  ∃ as s', exec step s (.customer c :: as) = some s' ∧ s'.thrlab.statuses c = .rejected ∧
    s'.ended = none

/-- Nothing happens after the end. -/
theorem exec_ended {as : List Act} {e : Ending} (he : s.ended = some e)
    (h : exec step s as = some s') : s' = s := by
  cases as with
  | nil => exact (Option.some.inj h).symm
  | cons a as =>
    obtain ⟨t, ht, -⟩ := Option.bind_eq_some_iff.1 h
    simp [step, he] at ht

/-- While a customer's thread runs, `main` has not come past the join of its thread. -/
theorem RunInv.main_thrlab (hR : RunInv visitors barbers chairs H s)
    (hc : s.customers c ≠ .absent) (hf : s.customers c ≠ .finished) : s.main.thrlab = true := by
  have hlt := (hR.inv.counts.present c).1 hc
  have hmain := hR.mainOk
  unfold Shop.MainOk at hmain
  cases hpc : s.main <;> simp only [hpc] at hmain
  case creating | arriving | joining => rfl
  all_goals exact absurd (hmain c hlt) hf

/-- **A full shop turns nobody away.** Where `Sem_trywait` finds no free slot, the wrapper calls
`exit`: the customer is still pending, and no thread takes another step. -/
theorem full_exits (h : Reachable step (.setup visitors barbers chairs) s) (hlive : s.ended = none)
    (hpc : s.customers c = .trywait) (hfull : s.chairs.slots = 0) :
    ¬ TurnedAway s c ∧ s.thrlab.statuses c = .pending ∧
      step s (.customer c) = some (s.finish (.exit 1)) := by
  obtain ⟨H, hR⟩ := reachable_inv h
  have hst : s.thrlab.statuses c = .pending := (hR.inv.fits c).own _ (by rw [hpc]; rfl)
  have hmain : s.main.thrlab = true := hR.main_thrlab (c := c) (by simp [hpc]) (by simp [hpc])
  have hslots : s.main.slots = true := by
    simp [MainPc.slots, MainPc.items, MainPc.mutex, MainPc.ring, hmain]
  have hstep : step s (.customer c) = some (s.finish (.exit 1)) := by
    simp [step, hlive, Shop.customerStep, hpc, Shop.using, hslots, semTrywaitOrExit_eq, hfull]
  refine ⟨?_, hst, hstep⟩
  rintro ⟨as, s', hex, -, hgo⟩
  obtain ⟨t, ht, hex⟩ := Option.bind_eq_some_iff.1 hex
  obtain rfl := Option.some.inj (hstep.symm.trans ht)
  rw [exec_ended rfl hex] at hgo
  cases hgo

/-- The second of two customers of a shop with one chair ends the process. -/
theorem full_exits_second : ∃ s, exec step (.setup 2 1 1) fullShop = some s ∧
    s.customers 1 = .trywait ∧ step s (.customer 1) = some (s.finish (.exit 1)) := by
  obtain ⟨s, hs, hlive, hpc, hfull⟩ : ∃ s, exec step (.setup 2 1 1) fullShop = some s ∧
    s.ended = none ∧ s.customers 1 = .trywait ∧ s.chairs.slots = 0 :=
    ⟨_, rfl, rfl, by decide, by decide⟩
  exact ⟨s, hs, hpc, (full_exits (Reachable.start.exec hs) hlive hpc hfull).2.2⟩

/-- The second customer of `fullShop` ends the process while the first waits for its haircut. -/
theorem full_not_turned_away : ∃ s, Reachable step (.setup 2 1 1) s ∧ s.ended = none ∧
    s.customers 1 = .trywait ∧ s.chairs.slots = 0 ∧ s.customers 0 = .waitMutex ∧
    ¬ TurnedAway s 1 := by
  obtain ⟨s, hs, hlive, hpc, hfull, h0, hend⟩ : ∃ s, exec step (.setup 2 1 1) fullShop = some s ∧
    s.ended = none ∧ s.customers 1 = .trywait ∧ s.chairs.slots = 0 ∧ s.customers 0 = .waitMutex ∧
    step s (.customer 1) = some (s.finish (.exit 1)) :=
    ⟨_, rfl, rfl, by decide, by decide, by decide, rfl⟩
  refine ⟨s, Reachable.start.exec hs, hlive, hpc, hfull, h0, ?_⟩
  rintro ⟨as, s', hex, -, hgo⟩
  obtain ⟨t, ht, hex⟩ := Option.bind_eq_some_iff.1 hex
  obtain rfl := Option.some.inj (hend.symm.trans ht)
  rw [exec_ended rfl hex] at hgo
  cases hgo

/-! ## Haircuts -/

/-- A barber is between `thrlab_prepare_customer` and `thrlab_dismiss_customer`. -/
def InHaircut (s : Shop) (b : Nat) : Prop :=
  ∃ c, s.barbers b = .sleep c ∨ s.barbers b = .dismiss c

/-- A barber reaches `thrlab_prepare_customer` by its own steps alone. -/
def ReachesPrepare (s : Shop) (b : Nat) : Prop :=
  ∃ (clocks : List (Bool × Bool)) (s' : Shop) (c : CustomerId),
    exec step s (clocks.map fun k => .barber b k.1 k.2) = some s' ∧ s'.barbers b = .prepare c

/-- A customer is accepted by its own steps alone. -/
def GetsAccepted (s : Shop) (c : CustomerId) : Prop :=
  ∃ n s', exec step s (List.replicate n (.customer c)) = some s' ∧ s'.customers c = .store

/-- With the mutex held, an idle barber gets as far as its wait for the mutex. -/
theorem not_reachesPrepare (hm : s.chairs.mutex = 0) (hpc : s.barbers b = .waitItems) :
    ¬ ReachesPrepare s b := by
  rintro ⟨clocks, s', c, hex, hc⟩
  have hkeep := exec_invariant (I := fun s => s.chairs.mutex = 0 ∧
    (s.barbers b = .waitItems ∨ s.barbers b = .waitMutex)) ?_ ⟨hm, .inl hpc⟩ hex
  · simp [hc] at hkeep
  · rintro t a t' ha ⟨hm, hpc⟩ hst
    obtain ⟨k, -, rfl⟩ := List.mem_map.1 ha
    obtain ⟨-, ⟨e, rfl⟩ | hmv⟩ := step_cases hst
    · exact ⟨hm, hpc⟩
    · cases hmv with
      | waitItems => exact ⟨hm, .inr (Function.update_self ..)⟩
      | barberLock _ _ hn => exact absurd hm hn.ne'
      | _ => simp_all

/-- With the mutex held, a customer that has a slot waits. -/
theorem not_getsAccepted (hm : s.chairs.mutex = 0) (hpc : s.customers c = .waitMutex) :
    ¬ GetsAccepted s c := by
  rintro ⟨n, s', hex, hc⟩
  have hkeep := exec_invariant (I := fun s => s.chairs.mutex = 0 ∧ s.customers c = .waitMutex) ?_
    ⟨hm, hpc⟩ hex
  · simp [hc] at hkeep
  · rintro t a t' ha ⟨hm, hpc⟩ hst
    obtain rfl := List.eq_of_mem_replicate ha
    obtain ⟨-, ⟨e, rfl⟩ | hmv⟩ := step_cases hst
    · exact ⟨hm, hpc⟩
    · cases hmv with
      | customerLock _ hn => exact absurd hm hn.ne'
      | _ => simp_all

/-- **Haircuts take turns.** During a haircut no idle barber reaches its next customer and no
customer with a slot is accepted, by steps of its own. -/
theorem haircuts_serialised (h : Reachable step (.setup visitors barbers chairs) s)
    (hb : b < barbers) (hcut : InHaircut s b) :
    (∀ b', s.barbers b' = .waitItems → ¬ ReachesPrepare s b') ∧
      ∀ c, s.customers c = .waitMutex → ¬ GetsAccepted s c := by
  obtain ⟨H, hR⟩ := reachable_inv h
  have hlocks : (s.barbers b).locks = 1 := by
    obtain ⟨c, hc | hc⟩ := hcut <;> rw [hc] <;> rfl
  have hm := (hR.inv.counts.barber_alone (hR.barbers_eq ▸ hb) hlocks).1
  exact ⟨fun _ => not_reachesPrepare hm, fun _ => not_getsAccepted hm⟩

/-- Three customers come to a shop with two barbers and three chairs. A barber cuts the hair of the
first, the second waits in the ring and the third has a slot. -/
def busyShop : List Act :=
  List.replicate 6 (.main false) ++ List.replicate 7 (.customer 0) ++
    List.replicate 7 (.customer 1) ++ List.replicate 2 (.customer 2) ++
    List.replicate 4 (.barber 0 false false)

/-- With two barbers, one cuts and the other waits while two customers wait for it. -/
theorem haircuts_serialised_busy : ∃ s, exec step (.setup 3 2 3) busyShop = some s ∧
    s.barbers 0 = .sleep 0 ∧ s.barbers 1 = .waitItems ∧ s.chairs.items = 1 ∧
    ¬ ReachesPrepare s 1 := by
  obtain ⟨s, hs, h0, h1, hi⟩ : ∃ s, exec step (.setup 3 2 3) busyShop = some s ∧
    s.barbers 0 = .sleep 0 ∧ s.barbers 1 = .waitItems ∧ s.chairs.items = 1 :=
    ⟨_, rfl, by decide, by decide, by decide⟩
  exact ⟨s, hs, h0, h1, hi,
    (haircuts_serialised (Reachable.start.exec hs) (show 0 < 2 by decide) ⟨0, .inl h0⟩).1 1 h1⟩

/-- The second barber cannot take the second customer, and the third customer is not accepted. -/
theorem haircuts_not_parallel : ∃ s, Reachable step (.setup 3 2 3) s ∧ s.ended = none ∧
    InHaircut s 0 ∧ s.barbers 1 = .waitItems ∧ 0 < s.chairs.items ∧
    s.chairs.customer ((s.chairs.front + 1) % s.chairs.max) = some 1 ∧
    s.thrlab.statuses 1 = .waiting ∧ ¬ ReachesPrepare s 1 ∧
    s.customers 2 = .waitMutex ∧ ¬ GetsAccepted s 2 := by
  obtain ⟨s, hs, hlive, h0, h1, hi, hr, hst, h2, hm⟩ : ∃ s,
      exec step (.setup 3 2 3) busyShop = some s ∧ s.ended = none ∧ s.barbers 0 = .sleep 0 ∧
      s.barbers 1 = .waitItems ∧ 0 < s.chairs.items ∧
      s.chairs.customer ((s.chairs.front + 1) % s.chairs.max) = some 1 ∧
      s.thrlab.statuses 1 = .waiting ∧ s.customers 2 = .waitMutex ∧ s.chairs.mutex = 0 :=
    ⟨_, rfl, rfl, by decide, by decide, by decide, by decide, by decide, by decide, by decide⟩
  exact ⟨s, Reachable.start.exec hs, hlive, ⟨0, .inl h0⟩, h1, hi, hr, hst,
    not_reachesPrepare hm h1, h2, not_getsAccepted hm h2⟩

/-! ## Slots and chairs -/

/-- The customers that have obtained a slot and are not yet prepared. -/
def onTheWay (H : History) (s : Shop) : List CustomerId :=
  H.taken.filter fun c => s.thrlab.statuses c = .pending ∨ s.thrlab.statuses c = .waiting

/-- The customers that are prepared and whose slot is not yet given back. -/
def holdingOn (H : History) (s : Shop) : List CustomerId :=
  H.taken.filter fun c =>
    c ∉ H.given ∧ (s.thrlab.statuses c = .cutting ∨ s.thrlab.statuses c = .done)

/-- The customers that have obtained a slot and are not yet accepted. -/
def unaccepted (H : History) (s : Shop) : List CustomerId :=
  H.taken.filter fun c => s.thrlab.statuses c = .pending

/-- A customer whose slot is given back is done. -/
theorem RunInv.given_done (hR : RunInv visitors barbers chairs H s) (hc : c ∈ H.given) :
    s.thrlab.statuses c = .done := by
  have hI := hR.inv
  have hrd := hI.ring.given_sub hc
  rcases hI.ring.stored_pc c (hI.ring.readers_sub hrd) with hseat | hgone
  · rcases hR.woken c hseat hrd with hm | ⟨b, hb, hu⟩
    · exact ((hI.fits c).posted hm).2
    · exact absurd hc (hI.ring.serving b hb c (BarberPc.customer_of_unposted hu)).2
  · exact (((hI.fits c).gone hgone).resolve_right fun hd => hd.1 (hI.ring.readers_sub hrd)).2

/-- A customer that has obtained a slot is not rejected. -/
theorem RunInv.taken_status (hR : RunInv visitors barbers chairs H s) (hc : c ∈ H.taken) :
    s.thrlab.statuses c ≠ .rejected := by
  have hI := hR.inv
  intro hrej
  rcases hI.ring.taken_pc c hc with hcl | hst
  · cases hpc : s.customers c <;> simp only [hpc, CustomerPc.claims] at hcl <;> try omega
    all_goals
      have := (hI.fits c).own _ (by rw [hpc]; rfl)
      simp [this] at hrej
  · by_cases hrd : c ∈ H.readers
    · rcases hI.ring.stored_pc c hst with hseat | hgone
      · rcases hR.woken c hseat hrd with hm | ⟨b, hb, hu⟩
        · simp [((hI.fits c).posted hm).2] at hrej
        · cases hpc : s.barbers b <;> simp only [hpc, BarberPc.unposted, reduceCtorEq,
            Option.some.injEq] at hu
          all_goals
            have := (hI.fits c).served b hb _ (by rw [hpc, hu]; rfl)
            simp [this] at hrej
      · have := (((hI.fits c).gone hgone).resolve_right fun hd => hd.1 hst).2
        simp [this] at hrej
    · simp [(hI.fits c).unread hst hrd] at hrej

/-- A customer that waits has obtained a slot. -/
theorem RunInv.waiting_taken (hR : RunInv visitors barbers chairs H s)
    (hc : c < s.thrlab.customerCount) (hst : s.thrlab.statuses c = .waiting) : c ∈ H.taken := by
  have hI := hR.inv
  cases hpc : s.customers c
  case absent => exact absurd hpc ((hI.counts.present c).2 hc)
  case semInit | trywait | reject =>
    have := (hI.fits c).own _ (by rw [hpc]; rfl)
    simp [this] at hst
  case waitMutex | accept | store => exact hI.ring.claims c (by rw [hpc]; rfl)
  case postMutex | postItems | waitCustomer =>
    exact hI.ring.stored_sub (hI.ring.seated c (by rw [hpc]; rfl))
  case tail | finished =>
    rcases (hI.fits c).gone (by rw [hpc]; rfl) with hd | hd <;> simp [hst] at hd

/-- A move of the barbershop makes at most one call on the record, on a customer that has
arrived. -/
theorem Inv.callStep (hI : Inv H s) {a : Act} (hm : Moves s a s') :
    s'.thrlab = s.thrlab ∨ ∃ k, s.thrlab.callStep k = some s'.thrlab := by
  have hcust : ∀ {c}, s.customers c ≠ .absent → decide (c < s.thrlab.customerCount) = true :=
    fun hc => decide_eq_true ((hI.counts.present _).1 hc)
  have hserved : ∀ {b c}, b < s.thrlab.barbers → (s.barbers b).customer = some c →
      decide (c < s.thrlab.customerCount) = true := by
    intro b c hb hc
    refine hcust fun habs => ?_
    have := hI.ring.stored_pc c (hI.ring.readers_sub (hI.ring.mem_readers hb hc))
    simp [habs, CustomerPc.seated, CustomerPc.gone] at this
  cases hm with
  | arrive hpc ht =>
    exact .inr ⟨.arrive, by simp [Thrlab.callStep, Call.arrived, ht, Shop.customerAt]⟩
  | accept hpc ht =>
    exact .inr ⟨.accept _, (if_pos (hcust (by simp [hpc]))).trans ht⟩
  | reject hpc ht =>
    exact .inr ⟨.reject _, (if_pos (hcust (by simp [hpc]))).trans ht⟩
  | tail hpc ht =>
    exact .inr ⟨.callbackEnd _, (if_pos (hcust (by simp [hpc]))).trans ht⟩
  | prepare hb hpc ht =>
    exact .inr ⟨.prepare (.barber _) _ _, (if_pos (hserved hb (by rw [hpc]; rfl))).trans ht⟩
  | dismiss hb hpc ht =>
    exact .inr ⟨.dismiss (.barber _) _ _ _ _, (if_pos (hserved hb (by rw [hpc]; rfl))).trans ht⟩
  | _ => exact .inl rfl

/-- A run of the barbershop is a run of calls on the record. -/
theorem reachable_callStep (h : Reachable step (.setup visitors barbers chairs) s) :
    Reachable Thrlab.callStep (.setup visitors barbers chairs) s.thrlab := by
  have hboth : (∃ H, RunInv visitors barbers chairs H s) ∧
      Reachable Thrlab.callStep (.setup visitors barbers chairs) s.thrlab := by
    refine h.invariant (I := fun s => (∃ H, RunInv visitors barbers chairs H s) ∧
      Reachable Thrlab.callStep (.setup visitors barbers chairs) s.thrlab)
      ⟨⟨_, setup_inv visitors barbers chairs⟩, .start⟩ fun {s a s'} hI hst => ?_
    obtain ⟨⟨H, hR⟩, hreach⟩ := hI
    obtain ⟨-, ⟨e, rfl⟩ | hm⟩ := step_cases hst
    · exact ⟨⟨H, hR.inv.control _ _, hR.visitors_eq, hR.barbers_eq, hR.chairs_eq, hR.mainOk,
        hR.woken, hR.asleep⟩, hreach⟩
    · refine ⟨⟨_, hR.next hm⟩, ?_⟩
      rcases hR.inv.callStep hm with heq | ⟨k, hk⟩
      · exact heq ▸ hreach
      · exact hreach.next hk
  exact hboth.2

/-- The checker's count of waiting customers counts those that have obtained a slot and wait. -/
theorem RunInv.numWaiting_eq (hR : RunInv visitors barbers chairs H s) (hB : Books s.thrlab) :
    s.thrlab.numWaiting = (H.taken.filter fun c => s.thrlab.statuses c = .waiting).length := by
  have hnd := hR.inv.ring.taken_nodup.filter fun c => s.thrlab.statuses c = .waiting
  rw [hB.waiting, Thrlab.census, ← List.toFinset_card_of_nodup hnd]
  congr 1
  ext c
  simp only [Finset.mem_filter, Finset.mem_range, List.mem_toFinset, List.mem_filter,
    decide_eq_true_eq]
  constructor
  · exact fun hc => ⟨hR.waiting_taken hc.1 hc.2, hc.2⟩
  · intro hc
    refine ⟨(hR.inv.counts.present c).1 fun habs => ?_, hc.2⟩
    rcases hR.inv.ring.taken_pc c hc.1 with hcl | hst
    · simp [habs, CustomerPc.claims] at hcl
    · have := hR.inv.ring.stored_pc c hst
      simp [habs, CustomerPc.seated, CustomerPc.gone] at this

/-- A list filtered two ways that exclude each other. -/
theorem length_filter_add {l : List CustomerId} {p q r : CustomerId → Bool}
    (h : ∀ c ∈ l, (p c).toNat = (q c).toNat + (r c).toNat) :
    (l.filter p).length = (l.filter q).length + (l.filter r).length := by
  induction l with
  | nil => rfl
  | cons c l ih =>
    have hc := h c List.mem_cons_self
    have ih := ih fun c' hc' => h c' (List.mem_cons_of_mem _ hc')
    cases hp : p c <;> cases hq : q c <;> cases hr : r c <;>
      simp only [hp, hq, hr, Bool.toNat_true, Bool.toNat_false] at hc <;>
      simp only [List.filter_cons, hp, hq, hr, if_true, Bool.false_eq_true, if_false,
        List.length_cons] <;> omega

/-- **Who holds the slots of a full shop.** Where `Sem_trywait` fails, each chair is accounted for:
by a customer on the way to a barber or by one that is prepared and whose slot is not yet given
back. What the checker's count of waiting customers misses are the customers that have a slot and
are not yet accepted, and those the barbers still hold a slot for. -/
theorem full_accounted {tr : List (Shop × Act)}
    (h : Run step (.setup visitors barbers chairs) tr s)
    (hfail : semTrywaitOrExit s.chairs.slots = none) :
    (onTheWay (history tr) s).length + (holdingOn (history tr) s).length = chairs ∧
      s.thrlab.numWaiting + (unaccepted (history tr) s).length +
        (holdingOn (history tr) s).length = chairs := by
  have hR := run_inv h
  have hB := reachable_books (reachable_callStep h.reachable)
  generalize history tr = H at hR
  have hring := hR.inv.ring
  have hfull : s.chairs.slots = 0 := by
    rw [semTrywaitOrExit_eq] at hfail
    by_contra hne
    simp [hne] at hfail
  have hheld : (H.taken.filter (· ∉ H.given)).length = chairs := by
    have hlen := length_filter_not_mem hring.taken_nodup hring.given_nodup
      fun c hc => hring.stored_sub (hring.readers_sub (hring.given_sub hc))
    have h1 := hring.slots_eq
    have h2 := hR.inv.counts.max_eq
    have h3 := hR.chairs_eq
    omega
  have hsplit : (H.taken.filter (· ∉ H.given)).length =
      (onTheWay H s).length + (holdingOn H s).length := by
    refine length_filter_add fun c hc => ?_
    have hrej := hR.taken_status hc
    by_cases hg : c ∈ H.given
    · simp [hg, hR.given_done hg]
    · cases hst : s.thrlab.statuses c <;> simp [hg] at hrej ⊢
      exact hrej hst
  have hway : (onTheWay H s).length =
      (unaccepted H s).length + (H.taken.filter fun c => s.thrlab.statuses c = .waiting).length := by
    refine length_filter_add fun c _ => ?_
    cases s.thrlab.statuses c <;> simp
  have hnum := hR.numWaiting_eq hB
  omega

/-- One customer's hair is being cut in a shop with one barber and one chair, and a second has
arrived. -/
def fullDuringHaircut : List Act :=
  List.replicate 4 (.main false) ++ List.replicate 7 (.customer 0) ++
    List.replicate 4 (.barber 0 false false) ++ [.customer 1]

/-- The only slot is held while the second customer tries to get one. -/
theorem full_accounted_haircut : ∃ tr s, Run step (.setup 2 1 1) tr s ∧
    s.customers 1 = .trywait ∧
    (onTheWay (history tr) s).length + (holdingOn (history tr) s).length = 1 := by
  obtain ⟨s, hs, hpc, hfail⟩ : ∃ s, exec step (.setup 2 1 1) fullDuringHaircut = some s ∧
    s.customers 1 = .trywait ∧ semTrywaitOrExit s.chairs.slots = none :=
    ⟨_, rfl, by decide, by decide⟩
  have hrun := Run.start.exec hs
  exact ⟨_, s, hrun, hpc, (full_accounted hrun hfail).1⟩

/-- The second customer finds no slot, and nobody is seated or on the way: the checker counts no
customer waiting. -/
theorem refused_with_chair_free : ∃ tr s, Run step (.setup 2 1 1) tr s ∧ s.ended = none ∧
    s.customers 1 = .trywait ∧ semTrywaitOrExit s.chairs.slots = none ∧
    (onTheWay (history tr) s).length ≠ s.thrlab.chairs ∧ unaccepted (history tr) s = [] ∧
    s.thrlab.numWaiting < s.thrlab.chairs := by
  have hs : exec step (.setup 2 1 1) fullDuringHaircut = some _ := rfl
  exact ⟨_, _, Run.start.exec hs, rfl, by decide, by decide, by decide, by decide, by decide⟩

/-! ## Closing the shop -/

/-- The semaphores of `struct chairs`. -/
inductive ChairsSem where
  | mutex | items | slots
  deriving DecidableEq

/-- The semaphore of the ring that the thread's next call is on. -/
def BarberPc.operand : BarberPc → Option ChairsSem
  | .waitItems => some .items
  | .waitMutex | .postMutex _ => some .mutex
  | .postSlots _ => some .slots
  | _ => none

/-- The thread's next call is a `thrlab_*` call. -/
def BarberPc.callsThrlab : BarberPc → Bool
  | .prepare _ | .sleep _ | .dismiss _ => true
  | _ => false

/-- No barber's next call is on a semaphore of the ring, or to the checker. -/
def Settled (s : Shop) : Prop :=
  ∀ b < s.thrlab.barbers, (s.barbers b).operand = none ∧ (s.barbers b).callsThrlab = false

/-- Once `thrlab_cleanup` has joined the customers, every barber waits for an item or is about to
post after its last haircut. -/
theorem RunInv.operand_of_closed (hR : RunInv visitors barbers chairs H s)
    (hclosed : s.main.thrlab = false) (hb : b < s.thrlab.barbers) :
    (s.barbers b).operand ≠ none ∧ (s.barbers b).callsThrlab = false := by
  have hI := hR.inv
  have hfin : ∀ c, (s.customers c).seated → False := by
    intro c hseat
    have := hR.main_thrlab (c := c) (fun h => by simp [h, CustomerPc.seated] at hseat)
      (fun h => by simp [h, CustomerPc.seated] at hseat)
    simp [hclosed] at this
  have hunposted : (s.barbers b).unposted = none := by
    rw [Option.eq_none_iff_forall_ne_some]
    exact fun c hu => hfin c (hR.asleep b hb c hu).1
  cases hpc : s.barbers b <;> simp only [hpc, BarberPc.unposted, reduceCtorEq] at hunposted
  case read =>
    obtain ⟨hlt, -⟩ := hI.ring.slot_read hI.counts hb hpc
    exact (hfin _ (hI.unread_asleep (List.getElem_mem hlt) (hI.ring.oldest_not_read hlt)).1).elim
  all_goals exact ⟨by simp [BarberPc.operand], rfl⟩

/-- **Closing the shop.** When `cleanup` frees the ring and destroys its semaphores, no barber has
anything pending exactly when there are no barbers. -/
theorem settled_iff (h : Reachable step (.setup visitors barbers chairs) s)
    (hclosed : s.main.thrlab = false) : Settled s ↔ barbers = 0 := by
  obtain ⟨H, hR⟩ := reachable_inv h
  unfold Settled
  rw [hR.barbers_eq]
  constructor
  · intro hset
    by_contra hne
    have hb : 0 < barbers := Nat.pos_of_ne_zero hne
    exact (hR.operand_of_closed hclosed (hR.barbers_eq ▸ hb)).1 (hset 0 hb).1
  · rintro rfl b hb
    exact absurd hb (Nat.not_lt_zero b)

/-- The only customer is served and joined, and `main` destroys the mutex before the barber has
posted it. -/
def closedEarly : List Act :=
  List.replicate 3 (.main false) ++ List.replicate 7 (.customer 0) ++
    List.replicate 7 (.barber 0 false false) ++ List.replicate 2 (.customer 0) ++
    List.replicate 5 (.main false)

/-- A shop with one barber is not settled when it closes early. -/
theorem settled_iff_closedEarly : ∃ s, exec step (.setup 1 1 1) closedEarly = some s ∧
    s.main = .destroyItems ∧ (Settled s ↔ 1 = 0) := by
  obtain ⟨s, hs, hmain⟩ : ∃ s, exec step (.setup 1 1 1) closedEarly = some s ∧
    s.main = .destroyItems := ⟨_, rfl, by decide⟩
  exact ⟨s, hs, hmain, settled_iff (Reachable.start.exec hs) (by rw [hmain]; rfl)⟩

/-- The barber's next call is a post of the destroyed mutex. -/
theorem not_settled_closedEarly : ∃ s, Reachable step (.setup 1 1 1) s ∧ s.ended = none ∧
    s.main = .destroyItems ∧ (s.barbers 0).operand = some .mutex ∧ ¬ Settled s ∧
    step s (.barber 0 false false) = some (s.finish .undefined) := by
  obtain ⟨s, hs, hlive, hmain, hop, hb, hst⟩ : ∃ s, exec step (.setup 1 1 1) closedEarly = some s ∧
    s.ended = none ∧ s.main = .destroyItems ∧ (s.barbers 0).operand = some .mutex ∧
    0 < s.thrlab.barbers ∧ step s (.barber 0 false false) = some (s.finish .undefined) :=
    ⟨_, rfl, rfl, by decide, by decide, by decide, rfl⟩
  refine ⟨s, Reachable.start.exec hs, hlive, hmain, hop, fun hset => ?_, hst⟩
  have := (hset 0 hb).1
  rw [hop] at this
  cases this

end Barbershop
