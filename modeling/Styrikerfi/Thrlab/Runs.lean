import Styrikerfi.Thrlab.Safety

/-!
# Runs of the barbershop

What holds after every run from `setup`: the invariant of the history of its trace, what `main` has
waited for when it is where it is, and who still has to wake a customer that waits to be.
-/

namespace Barbershop

variable {H : History} {s s' : Shop} {a : Act} {visitors barbers chairs : Nat}

/-- What `main` knows where it is: how many customers have arrived, or which have finished. -/
def Shop.MainOk (s : Shop) : Prop :=
  match s.main with
  | .creating _ => s.thrlab.customerCount = 0
  | .arriving i => s.thrlab.customerCount = i
  | .joining i => ∀ c < i, s.customers c = .finished
  | _ => ∀ c < s.thrlab.customerCount, s.customers c = .finished

/-- The customer a barber has read and not yet woken. -/
def BarberPc.unposted : BarberPc → Option CustomerId
  | .prepare c | .sleep c | .dismiss c | .postCustomer c => some c
  | _ => none

/-- A customer that has been read is woken, or will be by the barber that serves it. -/
def Woken (H : History) (s : Shop) : Prop :=
  ∀ c, (s.customers c).seated → c ∈ H.readers →
    0 < s.customerMutex c ∨ ∃ b < s.thrlab.barbers, (s.barbers b).unposted = some c

/-- The customer a barber has still to wake is there, and nobody has woken it. -/
def Asleep (s : Shop) : Prop :=
  ∀ b < s.thrlab.barbers, ∀ c, (s.barbers b).unposted = some c →
    (s.customers c).seated ∧ s.customerMutex c = 0

/-- What holds after a run with this history. -/
structure RunInv (visitors barbers chairs : Nat) (H : History) (s : Shop) : Prop where
  inv : Inv H s
  visitors_eq : s.thrlab.visitors = visitors
  barbers_eq : s.thrlab.barbers = barbers
  chairs_eq : s.thrlab.chairs = chairs
  mainOk : s.MainOk
  woken : Woken H s
  asleep : Asleep s

/-- A move changes no size of the record, save that an arrival adds a customer. -/
theorem Inv.sizes (hI : Inv H s) (hm : Moves s a s') :
    s'.thrlab.visitors = s.thrlab.visitors ∧ s'.thrlab.barbers = s.thrlab.barbers ∧
      s'.thrlab.chairs = s.thrlab.chairs ∧
      ((∃ f, a = .main f) ∨ s'.thrlab.customerCount = s.thrlab.customerCount ∧ s'.main = s.main) := by
  cases hm with
  | arrive hpc ht =>
    obtain ⟨-, -, rfl⟩ := Thrlab.arrive_eq ht
    exact ⟨rfl, rfl, rfl, .inl ⟨_, rfl⟩⟩
  | main hp => exact ⟨rfl, rfl, rfl, .inl ⟨_, rfl⟩⟩
  | accept hpc ht =>
    obtain rfl := Option.some.inj ((hI.accept_eq hpc).symm.trans ht)
    exact ⟨rfl, rfl, rfl, .inr ⟨rfl, rfl⟩⟩
  | reject hpc ht =>
    have hst := (hI.fits _).own _ (by rw [hpc]; rfl)
    rw [Thrlab.reject_pending (hI.counts.lt_visitors (by simp [hpc])) hst] at ht
    obtain rfl := Option.some.inj ht
    refine ⟨?_, ?_, ?_, .inr ⟨?_, rfl⟩⟩ <;> simp only [Shop.customerAt, Thrlab.setStatus] <;>
      split <;> rfl
  | tail hpc ht =>
    have hcut := hI.not_cutting (c := _) (by rw [hpc]; rfl)
    rw [Thrlab.callbackEnd_eq (hI.counts.lt_visitors (by simp [hpc])) hcut] at ht
    obtain rfl := Option.some.inj ht
    exact ⟨rfl, rfl, rfl, .inr ⟨rfl, rfl⟩⟩
  | prepare hb hpc ht =>
    obtain rfl := Option.some.inj ((hI.prepare_eq hb hpc).symm.trans ht)
    exact ⟨rfl, rfl, rfl, .inr ⟨rfl, rfl⟩⟩
  | dismiss hb hpc ht =>
    obtain ⟨k, hk, -⟩ := hI.dismiss_eq hb hpc _ _
    obtain rfl := Option.some.inj (hk.symm.trans ht)
    exact ⟨rfl, rfl, rfl, .inr ⟨rfl, rfl⟩⟩
  | _ => exact ⟨rfl, rfl, rfl, .inr ⟨rfl, rfl⟩⟩

/-- A thread that has finished takes no step. -/
theorem Moves.finished (hm : Moves s a s') (hC : Counts s) {c : CustomerId}
    (hc : s.customers c = .finished) : s'.customers c = .finished := by
  have hother : ∀ {c'} {q : CustomerPc}, s.customers c' ≠ .finished →
      Function.update s.customers c' q c = .finished := by
    intro c' q hne
    rwa [Function.update_of_ne]
    rintro rfl
    exact hne hc
  cases hm with
  | arrive hpc ht =>
    obtain ⟨rfl, -, rfl⟩ := Thrlab.arrive_eq ht
    exact hother (by simp [hC.absent])
  | semInit hpc => exact hother (by simp [hpc])
  | trywait hpc => exact hother (by simp [hpc])
  | customerLock hpc => exact hother (by simp [hpc])
  | accept hpc => exact hother (by simp [hpc])
  | store hpc => exact hother (by simp [hpc])
  | customerUnlock hpc => exact hother (by simp [hpc])
  | postItems hpc => exact hother (by simp [hpc])
  | waitCustomer hpc => exact hother (by simp [hpc])
  | reject hpc => exact hother (by simp [hpc])
  | tail hpc => exact hother (by simp [hpc])
  | _ => exact hc

/-- What `main` knows is kept: only `main` moves itself on, and only past customers that have
finished. -/
theorem Shop.MainOk.next (h : s.MainOk) (hI : Inv H s) (hm : Moves s a s') : s'.MainOk := by
  have hfin : ∀ c, s.customers c = .finished → s'.customers c = .finished :=
    fun c => hm.finished hI.counts
  by_cases ha : ∃ f, a = .main f
  · obtain ⟨f, rfl⟩ := ha
    cases hm with
    | arrive hpc ht =>
      obtain ⟨rfl, -, rfl⟩ := Thrlab.arrive_eq ht
      unfold Shop.MainOk at h
      rw [hpc] at h
      exact congrArg (· + 1) h
    | main hp =>
      unfold Shop.MainOk at h
      cases hp with
      | create hpc | created hpc | freeChairs hpc | destroyMutex hpc | destroyItems hpc
      | destroySlots hpc =>
        rw [hpc] at h
        exact h
      | closed => exact fun c hc => absurd hc (Nat.not_lt_zero c)
      | join hpc hi =>
        rw [hpc] at h
        intro c hc
        rcases Nat.lt_succ_iff_lt_or_eq.1 hc with hlt | rfl
        · exact h c hlt
        · exact hi
      | joined hpc hi =>
        rw [hpc] at h
        exact fun c hc => h c (lt_of_lt_of_le hc hi)
  · obtain ⟨-, -, -, hsz⟩ := hI.sizes hm
    obtain ⟨hcount, hmain⟩ := hsz.resolve_left ha
    unfold Shop.MainOk at h ⊢
    rw [hcount, hmain]
    cases hpc : s.main <;> simp only [hpc] at h ⊢
    case creating => exact h
    case arriving => exact h
    all_goals exact fun c hc => hfin c (h c hc)

/-- A step of a customer leaves those read woken, or to be woken. -/
theorem Woken.customer (h : Woken H s) {c : CustomerId} {q : CustomerPc}
    (hcs : s'.customers = Function.update s.customers c q) (hb : s'.barbers = s.barbers)
    (hB : s'.thrlab.barbers = s.thrlab.barbers)
    (hmu : ∀ c', c' ≠ c → s'.customerMutex c' = s.customerMutex c')
    (hq : q.seated → c ∈ H.readers →
      (s.customers c).seated ∧ s'.customerMutex c = s.customerMutex c)
    (hre : H'.readers = H.readers) : Woken H' s' := by
  intro c' hseat hrd
  rw [hre] at hrd
  rw [hB, hb]
  by_cases hcc : c' = c
  · subst hcc
    rw [hcs, Function.update_self] at hseat
    obtain ⟨hold, hm⟩ := hq hseat hrd
    exact hm ▸ h c' hold hrd
  · rw [hcs, Function.update_of_ne hcc] at hseat
    exact hmu c' hcc ▸ h c' hseat hrd

/-- A step of a barber leaves those read woken, or to be woken. -/
theorem Woken.barber (h : Woken H s) {b : Nat} {q : BarberPc} (hbb : b < s.thrlab.barbers)
    (hcs : s'.customers = s.customers) (hb : s'.barbers = Function.update s.barbers b q)
    (hB : s'.thrlab.barbers = s.thrlab.barbers)
    (hmu : ∀ c, 0 < s.customerMutex c → 0 < s'.customerMutex c)
    (hun : ∀ c, (s.barbers b).unposted = some c → q.unposted = some c ∨ 0 < s'.customerMutex c)
    (hre : ∀ c ∈ H'.readers, c ∈ H.readers ∨ q.unposted = some c) : Woken H' s' := by
  intro c hseat hrd
  have hself : s'.barbers b = q := by rw [hb, Function.update_self]
  rw [hcs] at hseat
  rw [hB]
  rcases hre c hrd with hrd | hq
  · rcases h c hseat hrd with hm | ⟨b', hb', hu⟩
    · exact .inl (hmu c hm)
    · by_cases hbb' : b' = b
      · subst hbb'
        exact (hun c hu).elim (fun hq => .inr ⟨b', hb', hself ▸ hq⟩) .inl
      · exact .inr ⟨b', hb', by rwa [hb, Function.update_of_ne hbb']⟩
  · exact .inr ⟨b, hbb, hself ▸ hq⟩

/-- **Step lemma.** -/
theorem Woken.next (h : Woken H s) (hI : Inv H s) (hm : Moves s a s') :
    Woken (H.add s a) s' := by
  obtain ⟨-, hB, -, -⟩ := hI.sizes hm
  cases hm with
  | main hp =>
    rw [History.add_main]
    exact h
  | arrive hpc ht =>
    obtain ⟨rfl, -, rfl⟩ := Thrlab.arrive_eq ht
    rw [History.add_main]
    exact h.customer rfl rfl rfl (fun _ _ => rfl) (by simp [CustomerPc.seated]) rfl
  | semInit hpc | waitCustomer hpc =>
    exact h.customer rfl rfl rfl (fun c' hne => Function.update_of_ne hne _ _)
      (by simp [CustomerPc.seated]) History.readers_customer
  | trywait hpc | customerLock hpc | accept hpc | reject hpc | tail hpc =>
    exact h.customer rfl rfl hB (fun _ _ => rfl) (by simp [CustomerPc.seated])
      History.readers_customer
  | store hpc =>
    refine h.customer rfl rfl rfl (fun _ _ => rfl) (fun _ hrd => ?_) History.readers_customer
    exact absurd (hI.ring.readers_sub hrd) (hI.not_stored (by rw [hpc]; rfl) (by rw [hpc]; rfl))
  | customerUnlock hpc | postItems hpc =>
    exact h.customer rfl rfl rfl (fun _ _ => rfl) (fun _ _ => ⟨by rw [hpc]; rfl, rfl⟩)
      History.readers_customer
  | read hb hpc hc =>
    refine h.barber hb rfl rfl rfl (fun _ => id) (by simp [hpc, BarberPc.unposted]) fun c hrd => ?_
    simp only [History.readers, History.add, readEvent, hpc, if_true, hc, Option.map_some,
      Option.toList_some, List.map_append, List.map_singleton, List.mem_append,
      List.mem_singleton] at hrd
    exact hrd.imp id fun he => congrArg some he.symm
  | postCustomer hb hpc =>
    rw [History.add_barber (by simp [hpc]) (by simp [hpc])]
    refine h.barber hb rfl rfl rfl (fun c hm => ?_) (fun c hu => .inr ?_) fun _ => .inl
    · simp only [Shop.barberAt, Function.update_apply]
      split <;> omega
    · rw [hpc] at hu
      cases hu
      simp [Shop.barberAt]
  | postSlots hb hpc =>
    refine h.barber hb rfl rfl rfl (fun _ => id) (by simp [hpc, BarberPc.unposted]) fun c hrd => ?_
    simpa [History.readers, History.add, readEvent, hpc, BarberPc.unposted] using hrd
  | waitItems hb hpc | barberLock hb hpc | prepare hb hpc | sleep hb hpc | dismiss hb hpc
  | barberUnlock hb hpc =>
    rw [History.add_barber (by simp [hpc]) (by simp [hpc])]
    exact h.barber hb rfl rfl hB (fun _ => id) (by simp [hpc, BarberPc.unposted]) fun _ => .inl

/-- The customer a barber has to wake is the one it serves. -/
theorem BarberPc.customer_of_unposted {p : BarberPc} {c : CustomerId}
    (h : p.unposted = some c) : p.customer = some c := by
  cases p <;> simp_all [BarberPc.unposted, BarberPc.customer]

/-- A customer that is stored and not read is there, and nobody has woken it. -/
theorem Inv.unread_asleep (hI : Inv H s) {c : CustomerId} (hst : c ∈ H.stored)
    (hrd : c ∉ H.readers) : (s.customers c).seated ∧ s.customerMutex c = 0 := by
  have hwait := (hI.fits c).unread hst hrd
  refine ⟨(hI.ring.stored_pc c hst).resolve_right fun hgone => ?_, ?_⟩
  · rcases (hI.fits c).gone hgone with hd | hd
    · exact hrd hd.1
    · exact hd.1 hst
  · by_contra hne
    exact hrd ((hI.fits c).posted (Nat.pos_of_ne_zero hne)).1

/-- A step of a customer leaves those to be woken asleep. -/
theorem Asleep.customer (h : Asleep s) {c : CustomerId} {q : CustomerPc}
    (hcs : s'.customers = Function.update s.customers c q) (hb : s'.barbers = s.barbers)
    (hB : s'.thrlab.barbers = s.thrlab.barbers)
    (hmu : ∀ c', c' ≠ c → s'.customerMutex c' = s.customerMutex c')
    (hq : (s.customers c).seated → s.customerMutex c = 0 → q.seated ∧ s'.customerMutex c = 0) :
    Asleep s' := by
  intro b hb' c' hu
  rw [hb] at hu
  obtain ⟨hseat, hm⟩ := h b (hB ▸ hb') c' hu
  by_cases hcc : c' = c
  · subst hcc
    rw [hcs, Function.update_self]
    exact hq hseat hm
  · rw [hcs, Function.update_of_ne hcc, hmu c' hcc]
    exact ⟨hseat, hm⟩

/-- A step of a barber that posts nobody leaves those to be woken asleep. -/
theorem Asleep.barber (h : Asleep s) {b : Nat} {q : BarberPc} (hbb : b < s.thrlab.barbers)
    (hcs : s'.customers = s.customers) (hb : s'.barbers = Function.update s.barbers b q)
    (hB : s'.thrlab.barbers = s.thrlab.barbers) (hmu : s'.customerMutex = s.customerMutex)
    (hq : ∀ c, q.unposted = some c → (s.barbers b).unposted = some c ∨
      (s.customers c).seated ∧ s.customerMutex c = 0) : Asleep s' := by
  intro b' hb' c hu
  rw [hB] at hb'
  rw [hcs, hmu]
  by_cases hbb' : b' = b
  · subst hbb'
    rw [hb, Function.update_self] at hu
    exact (hq c hu).elim (h b' hbb c) id
  · rw [hb, Function.update_of_ne hbb'] at hu
    exact h b' hb' c hu

/-- **Step lemma.** -/
theorem Asleep.next (h : Asleep s) (hI : Inv H s) (hm : Moves s a s') : Asleep s' := by
  obtain ⟨-, hB, -, -⟩ := hI.sizes hm
  cases hm with
  | main hp => exact h
  | arrive hpc ht =>
    obtain ⟨rfl, -, rfl⟩ := Thrlab.arrive_eq ht
    exact h.customer rfl rfl rfl (fun _ _ => rfl) (by simp [hI.counts.absent, CustomerPc.seated])
  | semInit hpc =>
    exact h.customer rfl rfl rfl (fun c' hne => Function.update_of_ne hne _ _)
      (by simp [hpc, CustomerPc.seated])
  | waitCustomer hpc hn =>
    exact h.customer rfl rfl rfl (fun c' hne => Function.update_of_ne hne _ _)
      (fun _ hm => absurd hm hn.ne')
  | trywait hpc | customerLock hpc | accept hpc | store hpc | reject hpc | tail hpc =>
    exact h.customer rfl rfl hB (fun _ _ => rfl) (by simp [hpc, CustomerPc.seated])
  | customerUnlock hpc | postItems hpc =>
    exact h.customer rfl rfl rfl (fun _ _ => rfl) (fun _ hm => ⟨rfl, hm⟩)
  | read hb hpc hc =>
    refine h.barber hb rfl rfl rfl rfl fun c hq => .inr ?_
    obtain ⟨hlt, hslot⟩ := hI.ring.slot_read hI.counts hb hpc
    obtain rfl := Option.some.inj hq
    obtain rfl := Option.some.inj (hc.symm.trans hslot)
    exact hI.unread_asleep (List.getElem_mem hlt) (hI.ring.oldest_not_read hlt)
  | @postCustomer b _ _ c hb hpc =>
    intro b' hb' c' hu
    have hne : b' ≠ b := by
      rintro rfl
      simp [Shop.barberAt, BarberPc.unposted] at hu
    simp only [Shop.barberAt, Function.update_of_ne hne] at hu hb' ⊢
    have hcc : c' ≠ c := by
      rintro rfl
      exact hne (hI.ring.reader_unique
        (hI.ring.serving b' hb' c' (BarberPc.customer_of_unposted hu)).1
        (hI.ring.serving b hb c' (by rw [hpc]; rfl)).1)
    rw [Function.update_of_ne hcc]
    exact h b' hb' c' hu
  | prepare hb hpc | sleep hb hpc | dismiss hb hpc =>
    exact h.barber hb rfl rfl hB rfl fun c hq => .inl (by rw [hpc]; exact hq)
  | waitItems hb hpc | barberLock hb hpc | barberUnlock hb hpc | postSlots hb hpc =>
    exact h.barber hb rfl rfl rfl rfl fun c hq => absurd hq (by simp [BarberPc.unposted])

/-- The state after `setup` is in the invariant. -/
theorem setup_inv (visitors barbers chairs : Nat) :
    RunInv visitors barbers chairs .empty (.setup visitors barbers chairs) := by
  have hcustomer : ∀ w : CustomerPc → Nat, w .absent = 0 →
      tally visitors w (fun _ => .absent) = 0 := fun w hw => tally_eq_zero.2 fun _ _ => hw
  have hbarber : ∀ w : BarberPc → Nat, w .waitItems = 0 →
      tally barbers w (fun _ => .waitItems) = 0 := fun w hw => tally_eq_zero.2 fun _ _ => hw
  have hcounts : Counts (.setup visitors barbers chairs) := by
    constructor <;> simp only [Shop.setup, Shop.customerTally, Shop.barberTally, Thrlab.setup]
    · rw [hcustomer _ rfl, hbarber _ rfl]
    · rw [hcustomer _ rfl, hbarber _ rfl]
    · rw [hcustomer _ rfl, hbarber _ rfl]
    · rw [hcustomer _ rfl, hbarber _ rfl]
    · simp
    · exact Nat.zero_le _
  refine ⟨⟨hcounts, ?_, fun c => ?_, fun _ _ => rfl, fun _ _ => rfl⟩, rfl, rfl, rfl, rfl, ?_, ?_⟩
  · constructor <;> simp [Shop.setup, History.empty, History.readers, CustomerPc.seated,
      CustomerPc.claims, BarberPc.customer]
  · constructor <;> simp [Shop.setup, History.empty, Thrlab.setup, CustomerPc.status,
      CustomerPc.gone, BarberPc.status]
  · exact fun c hc => absurd hc (by simp [Shop.setup, CustomerPc.seated])
  · exact fun b _ c hu => absurd hu (by simp [Shop.setup, BarberPc.unposted])

/-- **Step lemma.** -/
theorem RunInv.next (h : RunInv visitors barbers chairs H s) (hm : Moves s a s') :
    RunInv visitors barbers chairs (H.add s a) s' := by
  obtain ⟨hv, hb, hc, -⟩ := h.inv.sizes hm
  exact ⟨h.inv.next hm, hv.trans h.visitors_eq, hb.trans h.barbers_eq, hc.trans h.chairs_eq,
    h.mainOk.next h.inv hm, h.woken.next h.inv hm, h.asleep.next h.inv hm⟩

/-- The invariant holds after every run, of the history of its trace. -/
theorem run_inv {tr : List (Shop × Act)} (h : Run step (.setup visitors barbers chairs) tr s) :
    RunInv visitors barbers chairs (history tr) s := by
  refine h.invariant (I := fun tr s => RunInv visitors barbers chairs (history tr) s)
    (setup_inv visitors barbers chairs) fun {tr s a s'} hI hst => ?_
  obtain ⟨hlive, ⟨e, rfl⟩ | hm⟩ := step_cases hst
  · have hret : returns s a = false := by simp [returns, hst, Shop.finish]
    rw [history_next, hret]
    exact ⟨hI.inv.control _ _, hI.visitors_eq, hI.barbers_eq, hI.chairs_eq, hI.mainOk, hI.woken,
      hI.asleep⟩
  · have hret : returns s a = true := by simp [returns, hst, hm.ended, hlive]
    rw [history_next, hret]
    exact hI.next hm

/-- A reachable state, with the history of some run to it. -/
theorem reachable_inv (h : Reachable step (.setup visitors barbers chairs) s) :
    ∃ H, RunInv visitors barbers chairs H s := by
  obtain ⟨tr, hr⟩ := h
  exact ⟨_, run_inv hr⟩

end Barbershop
