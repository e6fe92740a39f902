import Styrikerfi.Thrlab.Contention

/-!
# How a run of the barbershop ends

Every step of a thread is one that it has left, and a barber has as many left as there are items
for it, so no run goes on for ever, whatever the schedule (`run_finite`). With a barber in the shop
a run that cannot go on has ended: with `exit(1)`, where `main` fails to get a thread or a customer
finds no slot, and otherwise after every visitor has come and has had its hair cut by one barber
(`run_outcome`).
-/

namespace Barbershop

variable {H : History} {s s' : Shop} {a : Act} {visitors barbers chairs b : Nat} {c : CustomerId}
  {e : Ending}

/-! ## The steps that are left -/

/-- The steps that a customer's thread has left, with the nine of a barber that the post of its item
calls for. -/
def CustomerPc.left : CustomerPc → Nat
  | .absent | .semInit => 18
  | .trywait => 17
  | .waitMutex => 16
  | .accept => 15
  | .store => 14
  | .postMutex => 13
  | .postItems => 12
  | .waitCustomer | .reject => 2
  | .tail => 1
  | .finished => 0

/-- The steps that a barber's thread has left until it waits for an item. -/
def BarberPc.left : BarberPc → Nat
  | .waitItems => 0
  | .waitMutex => 8
  | .read => 7
  | .prepare _ => 6
  | .sleep _ => 5
  | .dismiss _ => 4
  | .postCustomer _ => 3
  | .postMutex _ => 2
  | .postSlots _ => 1

/-- The steps that `main` has left. -/
def Shop.mainLeft (s : Shop) : Nat :=
  match s.main with
  | .creating i => (s.thrlab.barbers - i) + 2 * s.thrlab.visitors + 8
  | .arriving i => (s.thrlab.visitors - i) + s.thrlab.visitors + 7
  | .joining i => (s.thrlab.visitors - i) + 6
  | .freeChairs => 5
  | .destroyMutex => 4
  | .destroyItems => 3
  | .destroySlots => 2
  | .returning => 1

/-- The steps that all threads have left. -/
def Shop.left (s : Shop) : Nat :=
  s.mainLeft + 9 * s.chairs.items + s.customerTally CustomerPc.left + s.barberTally BarberPc.left

/-- The most steps that the process takes. -/
def Shop.fuel (s : Shop) : Nat := if s.ended.isSome then 0 else s.left

/-- `main` always has a step left: its return. -/
theorem Shop.mainLeft_pos (s : Shop) : 0 < s.mainLeft := by
  unfold Shop.mainLeft
  split <;> omega

/-- A step of a customer's thread. -/
theorem Counts.customer_left (h : Counts s) {p q : CustomerPc} (hpc : s.customers c = p)
    (hp : p ≠ .absent) (hv : s'.thrlab.visitors = s.thrlab.visitors)
    (hB : s'.thrlab.barbers = s.thrlab.barbers) (hm : s'.main = s.main)
    (hc : s'.customers = Function.update s.customers c q) (hb : s'.barbers = s.barbers)
    (hlt : 9 * s'.chairs.items + q.left < 9 * s.chairs.items + p.left) : s'.left < s.left := by
  have hcv : c < s.thrlab.visitors := h.lt_visitors (hpc ▸ hp)
  have htally : s'.customerTally CustomerPc.left + p.left =
      s.customerTally CustomerPc.left + q.left := by
    unfold Shop.customerTally
    rw [hv, hc, ← hpc]
    exact tally_update hcv q
  have hbarber : s'.barberTally BarberPc.left = s.barberTally BarberPc.left := by
    unfold Shop.barberTally
    rw [hB, hb]
  have hmain : s'.mainLeft = s.mainLeft := by
    unfold Shop.mainLeft
    rw [hm, hv, hB]
  unfold Shop.left
  omega

/-- A step of a barber's thread. -/
theorem Counts.barber_left (hb : b < s.thrlab.barbers) {p q : BarberPc} (hpc : s.barbers b = p)
    (hv : s'.thrlab.visitors = s.thrlab.visitors) (hB : s'.thrlab.barbers = s.thrlab.barbers)
    (hm : s'.main = s.main) (hc : s'.customers = s.customers)
    (hbs : s'.barbers = Function.update s.barbers b q)
    (hlt : 9 * s'.chairs.items + q.left < 9 * s.chairs.items + p.left) : s'.left < s.left := by
  have htally : s'.barberTally BarberPc.left + p.left =
      s.barberTally BarberPc.left + q.left := by
    unfold Shop.barberTally
    rw [hB, hbs, ← hpc]
    exact tally_update hb q
  have hcustomer : s'.customerTally CustomerPc.left = s.customerTally CustomerPc.left := by
    unfold Shop.customerTally
    rw [hv, hc]
  have hmain : s'.mainLeft = s.mainLeft := by
    unfold Shop.mainLeft
    rw [hm, hv, hB]
  unfold Shop.left
  omega

/-- Each step of `main` is one that it has left. -/
theorem RunInv.main_left (hR : RunInv visitors barbers chairs H s) {p : MainPc}
    (hp : MainNext s p) : { s with main := p }.left < s.left := by
  have hmain := hR.mainOk
  have hcount := hR.inv.counts
  have hlt : { s with main := p }.mainLeft < s.mainLeft := by
    unfold Shop.MainOk at hmain
    unfold Shop.mainLeft
    cases hp with
    | create hpc hi =>
      simp only [hpc]
      omega
    | created hpc =>
      simp only [hpc]
      omega
    | closed hpc hi =>
      simp only [hpc]
      omega
    | @join i hpc hi =>
      have hlt := (hcount.present i).1 (by rw [hi]; decide)
      simp only [hpc]
      exact Nat.add_lt_add_right
        (Nat.sub_lt_sub_left (Nat.lt_of_lt_of_le hlt hcount.bound) (Nat.lt_succ_self i)) 6
    | joined hpc hi =>
      simp only [hpc]
      omega
    | freeChairs hpc | destroyMutex hpc | destroyItems hpc | destroySlots hpc =>
      simp only [hpc]
      omega
  unfold Shop.left
  exact Nat.add_lt_add_right (Nat.add_lt_add_right (Nat.add_lt_add_right hlt _) _) _

/-- An arrival is a step of `main`, and the customer has yet to begin. -/
theorem RunInv.arrive_left (hR : RunInv visitors barbers chairs H s) {i : Nat} {t : Thrlab}
    (hpc : s.main = .arriving i) (ht : s.thrlab.arrive = some (c, t)) :
    ({ s with thrlab := t, main := .arriving (i + 1) }.customerAt c .semInit).left < s.left := by
  have hcount : s.thrlab.customerCount = i := by
    have := hR.mainOk
    unfold Shop.MainOk at this
    rwa [hpc] at this
  have habs := hR.inv.counts.absent
  obtain ⟨rfl, hlt, rfl⟩ := Thrlab.arrive_eq ht
  have htally := tally_update (w := CustomerPc.left) (f := s.customers) hlt .semInit
  rw [habs] at htally
  have hlast : CustomerPc.left .absent = CustomerPc.left .semInit := rfl
  simp only [Shop.left, Shop.mainLeft, hpc, Shop.customerAt, Shop.customerTally, Shop.barberTally,
    Thrlab.setStatus]
  omega

/-- **Step lemma.** A move leaves fewer steps. -/
theorem RunInv.left_lt (hR : RunInv visitors barbers chairs H s) (hm : Moves s a s') :
    s'.left < s.left := by
  have hC := hR.inv.counts
  obtain ⟨hv, hB, -, -⟩ := hR.inv.sizes hm
  cases hm with
  | main hp => exact hR.main_left hp
  | arrive hpc ht => exact hR.arrive_left hpc ht
  | semInit hpc | customerLock hpc | store hpc | customerUnlock hpc | trywait hpc
  | accept hpc | reject hpc | tail hpc | waitCustomer hpc =>
    refine hC.customer_left hpc (by decide) hv hB rfl rfl rfl ?_
    simp [Shop.customerAt, CustomerPc.left]
  | postItems hpc =>
    refine hC.customer_left hpc (by decide) hv hB rfl rfl rfl ?_
    simp only [Shop.customerAt, CustomerPc.left]
    omega
  | waitItems hb hpc hn =>
    refine Counts.barber_left hb hpc hv hB rfl rfl rfl ?_
    simp only [Shop.barberAt, BarberPc.left]
    omega
  | barberLock hb hpc | read hb hpc | prepare hb hpc | sleep hb hpc | dismiss hb hpc
  | postCustomer hb hpc | barberUnlock hb hpc | postSlots hb hpc =>
    refine Counts.barber_left hb hpc hv hB rfl rfl rfl ?_
    simp [Shop.barberAt, BarberPc.left]

/-- Every step of a run leaves fewer. -/
theorem fuel_lt {tr : List (Shop × Act)} (h : Run step (.setup visitors barbers chairs) tr s)
    (hst : step s a = some s') : s'.fuel < s.fuel := by
  obtain ⟨hlive, ⟨e, rfl⟩ | hm⟩ := step_cases hst
  · have := s.mainLeft_pos
    simp only [Shop.fuel, Shop.finish, Option.isSome_some, if_true, hlive, Option.isSome_none,
      Bool.false_eq_true, if_false, Shop.left]
    omega
  · have := (run_inv h).left_lt hm
    simp only [Shop.fuel, hm.ended, hlive, Option.isSome_none, Bool.false_eq_true, if_false]
    exact this

/-- The steps of a shop that opens, at most. -/
theorem setup_fuel (visitors barbers chairs : Nat) :
    (Shop.setup visitors barbers chairs).fuel = barbers + 20 * visitors + 8 := by
  have hc : tally visitors CustomerPc.left (fun _ => .absent) = 18 * visitors := by
    simp [tally, CustomerPc.left, Nat.mul_comm]
  have hb : tally barbers BarberPc.left (fun _ => .waitItems) = 0 :=
    tally_eq_zero.2 fun _ _ => rfl
  show (barbers - 0 + 2 * visitors + 8) + 9 * 0 +
      tally visitors CustomerPc.left (fun _ => .absent) +
      tally barbers BarberPc.left (fun _ => .waitItems) = _
  rw [hc, hb]
  omega

/-- **No run goes on for ever.** Whatever the schedule, a run has at most `barbers + 20 * visitors +
8` steps, and it goes on to a state in which no thread can take one. -/
theorem run_finite {tr : List (Shop × Act)} (h : Run step (.setup visitors barbers chairs) tr s) :
    tr.length ≤ barbers + 20 * visitors + 8 ∧
      ∃ tr' s', Run step (.setup visitors barbers chairs) (tr ++ tr') s' ∧
        ∀ a, step s' a = none := by
  refine ⟨?_, h.completed fuel_lt⟩
  have := h.length_add_le fuel_lt
  rw [setup_fuel] at this
  omega

/-- One customer comes to a shop with one barber and one chair, and leaves. -/
def oneHaircut : List Act :=
  [.main false, .main false, .main false] ++ List.replicate 7 (.customer 0) ++
    List.replicate 9 (.barber 0 false false) ++ List.replicate 2 (.customer 0)

/-- One customer comes to a shop with one barber and one chair, and the shop closes after it. -/
def oneDay : List Act := oneHaircut ++ List.replicate 8 (.main false)

/-- The day takes the 29 steps, and no run takes one more. -/
theorem run_finite_day : ∃ tr s, Run step (.setup 1 1 1) tr s ∧ tr.length = 29 ∧
    tr.length ≤ 1 + 20 * 1 + 8 := by
  obtain ⟨s, hs⟩ : ∃ s, exec step (.setup 1 1 1) oneDay = some s := ⟨_, rfl⟩
  have hrun := Run.start.exec hs
  exact ⟨_, s, hrun, by rfl, (run_finite hrun).1⟩

/-! ## How a step ends the run -/

/-- A step that ends the process at once. -/
inductive Ends (s : Shop) : Act → Ending → Prop
  | fails : Ends s (.main true) (.exit 1)
  | returns {fails : Bool} (hpc : s.main = .returning) : Ends s (.main fails) (.exit 0)
  | full {c : CustomerId} (hpc : s.customers c = .trywait) (hn : s.chairs.slots = 0) :
      Ends s (.customer c) (.exit 1)
  | closed {b : Nat} {fast slow : Bool} (hm : s.main.thrlab = false) :
      Ends s (.barber b fast slow) .undefined

/-- A run ends in one way. -/
theorem finish_inj {e' : Ending} (h : some (s.finish e') = some (s.finish e)) : e' = e :=
  Option.some.inj (congrArg Shop.ended (Option.some.inj h))

/-- A state that has not ended is no ending. -/
theorem not_finish (hlive : s.ended = none) (h : some s' = some (s.finish e))
    (hs : s'.ended = s.ended) : False := by
  have he : s'.ended = some e := congrArg Shop.ended (Option.some.inj h)
  rw [hs, hlive] at he
  cases he

/-- What is not destroyed is used. -/
theorem using_live {live : Bool} (next : Option Shop) (h : live = true) :
    s.using live next = next := by
  rw [Shop.using, if_pos h]

/-- A call to a checker that is alive returns its record. -/
theorem call_live {t : Thrlab} (next : Shop → Shop) (h : s.main.thrlab = true) :
    s.call (some t) next = some (next { s with thrlab := t }) := by
  simp only [Shop.call, h]

/-- As long as `thrlab` is there, so are the ring and its semaphores. -/
theorem MainPc.live {p : MainPc} (h : p.thrlab = true) :
    p.ring = true ∧ p.mutex = true ∧ p.items = true ∧ p.slots = true := by
  simp [MainPc.slots, MainPc.items, MainPc.mutex, MainPc.ring, h]

/-- While a customer may run, `thrlab` is there. -/
theorem MainPc.thrlab_of_customer {p : MainPc} (h : p.customer c = true) : p.thrlab = true := by
  cases p <;> first | rfl | cases h

/-- `main` ends the process where it fails, and where it returns: every arrival finds a place in the
table of customers. -/
theorem RunInv.main_ends (hR : RunInv visitors barbers chairs H s) (hlive : s.ended = none)
    {fails : Bool} (h : s.mainStep fails = some (s.finish e)) : Ends s (.main fails) e := by
  have hmain := hR.mainOk
  unfold Shop.MainOk at hmain
  unfold Shop.mainStep at h
  split at h
  · split at h
    · split at h
      · next hf =>
        subst hf
        exact finish_inj h ▸ .fails
      · exact (not_finish hlive h rfl).elim
    · exact (not_finish hlive h rfl).elim
  · next i hpc =>
    split at h
    · next hi =>
      split at h
      · next hf =>
        subst hf
        exact finish_inj h ▸ .fails
      · rw [hpc] at hmain
        have hplace : s.thrlab.customerCount < s.thrlab.visitors := hmain ▸ hi
        rw [Thrlab.arrive, Thrlab.addCustomer, if_pos hplace] at h
        exact (not_finish hlive h rfl).elim
    · exact (not_finish hlive h rfl).elim
  · split at h
    · split at h
      · exact (not_finish hlive h rfl).elim
      · cases h
    · exact (not_finish hlive h rfl).elim
  · exact (not_finish hlive h rfl).elim
  · exact (not_finish hlive h rfl).elim
  · exact (not_finish hlive h rfl).elim
  · exact (not_finish hlive h rfl).elim
  · next hpc => exact finish_inj h ▸ .returns hpc

/-- A customer's thread ends the process where it finds no slot: nothing that it uses is gone, and
no assertion fails. -/
theorem RunInv.customer_ends (hR : RunInv visitors barbers chairs H s) (hlive : s.ended = none)
    (h : s.customerStep c = some (s.finish e)) : Ends s (.customer c) e := by
  have hI := hR.inv
  by_cases habs : s.customers c = .absent ∨ s.customers c = .finished
  · rcases habs with hpc | hpc <;> simp only [Shop.customerStep, hpc] at h <;> cases h
  obtain ⟨habs, hfin⟩ := not_or.1 habs
  have hm := hR.main_thrlab habs hfin
  have hc := hI.counts.lt_visitors habs
  obtain ⟨hring, hmutex, hitems, hslots⟩ := MainPc.live hm
  unfold Shop.customerStep at h
  split at h
  · exact absurd ‹_› habs
  · exact (not_finish hlive h rfl).elim
  · next hpc =>
    rw [using_live _ hslots, semTrywaitOrExit_eq] at h
    by_cases hn : s.chairs.slots = 0
    · rw [if_pos hn] at h
      exact finish_inj h ▸ .full hpc hn
    · rw [if_neg hn] at h
      exact (not_finish hlive h rfl).elim
  · rw [using_live _ hmutex] at h
    obtain ⟨v, -, hv⟩ := Option.map_eq_some_iff.1 h
    exact (not_finish hlive (congrArg some hv) rfl).elim
  · next hpc =>
    rw [hI.accept_eq hpc, call_live _ hm] at h
    exact (not_finish hlive h rfl).elim
  · rw [using_live _ hring] at h
    exact (not_finish hlive h rfl).elim
  · rw [using_live _ hmutex] at h
    exact (not_finish hlive h rfl).elim
  · rw [using_live _ hitems] at h
    exact (not_finish hlive h rfl).elim
  · obtain ⟨v, -, hv⟩ := Option.map_eq_some_iff.1 h
    exact (not_finish hlive (congrArg some hv) rfl).elim
  · next hpc =>
    rw [Thrlab.reject_pending hc ((hI.fits c).own _ (by rw [hpc]; rfl)), call_live _ hm] at h
    exact (not_finish hlive h rfl).elim
  · next hpc =>
    rw [using_live _ hm, Thrlab.callbackEnd_eq hc (hI.not_cutting (by rw [hpc]; rfl)),
      call_live _ hm] at h
    exact (not_finish hlive h rfl).elim
  · exact absurd ‹_› hfin

/-- While a barber serves a customer that it has not woken, the customer is not freed. -/
theorem RunInv.customer_live (hR : RunInv visitors barbers chairs H s)
    (hb : b < s.thrlab.barbers) (hu : (s.barbers b).unposted = some c) :
    s.main.customer c = true := by
  have hseat := (hR.asleep b hb c hu).1
  have hmain := hR.mainOk
  have hpres := (hR.inv.counts.present c).1 fun h => by simp [h, CustomerPc.seated] at hseat
  have hfin : s.customers c ≠ .finished := fun h => by simp [h, CustomerPc.seated] at hseat
  unfold Shop.MainOk at hmain
  cases hpc : s.main with simp only [hpc] at hmain
  | creating | arriving => rfl
  | joining i => exact decide_eq_true (Nat.le_of_not_lt fun hlt => hfin (hmain c hlt))
  | _ => exact absurd (hmain c hpres) hfin

/-- While the shop is open a barber's thread does not end the process. -/
theorem RunInv.barber_open (hR : RunInv visitors barbers chairs H s) (hlive : s.ended = none)
    (hb : b < s.thrlab.barbers) (hm : s.main.thrlab = true) {fast slow : Bool}
    (h : s.barberStep b fast slow = some (s.finish e)) : False := by
  have hI := hR.inv
  obtain ⟨hring, hmutex, hitems, hslots⟩ := MainPc.live hm
  unfold Shop.barberStep at h
  split at h
  · rw [using_live _ hitems] at h
    obtain ⟨v, -, hv⟩ := Option.map_eq_some_iff.1 h
    exact not_finish hlive (congrArg some hv) rfl
  · rw [using_live _ hmutex] at h
    obtain ⟨v, -, hv⟩ := Option.map_eq_some_iff.1 h
    exact not_finish hlive (congrArg some hv) rfl
  · next hpc =>
    obtain ⟨hlt, hslot⟩ := hI.ring.slot_read hI.counts hb hpc
    rw [using_live _ hring] at h
    simp only [hslot] at h
    exact not_finish hlive h rfl
  · next hpc =>
    rw [using_live _ (hR.customer_live hb (by rw [hpc]; rfl)), hI.prepare_eq hb hpc,
      call_live _ hm] at h
    exact not_finish hlive h rfl
  · next hpc =>
    rw [using_live _ (hR.customer_live hb (by rw [hpc]; rfl)), call_live _ hm] at h
    exact not_finish hlive h rfl
  · next hpc =>
    obtain ⟨k, hk, -⟩ := hI.dismiss_eq hb hpc fast slow
    rw [using_live _ (hR.customer_live hb (by rw [hpc]; rfl)), hk, call_live _ hm] at h
    exact not_finish hlive h rfl
  · next hpc =>
    rw [using_live _ (hR.customer_live hb (by rw [hpc]; rfl))] at h
    exact not_finish hlive h rfl
  · rw [using_live _ hmutex] at h
    exact not_finish hlive h rfl
  · rw [using_live _ hslots] at h
    exact not_finish hlive h rfl

/-- Once the shop is closed a barber's thread ends the process by using what is gone. -/
theorem barber_closed (hlive : s.ended = none) (hm : s.main.thrlab = false) {fast slow : Bool}
    (h : s.barberStep b fast slow = some (s.finish e)) : Ends s (.barber b fast slow) e := by
  have hgone : ∀ c, s.main.customer c = false := fun c => by
    by_contra hne
    rw [MainPc.thrlab_of_customer (Bool.not_eq_false _ ▸ hne)] at hm
    cases hm
  suffices he : .undefined = e from he ▸ .closed hm
  have huse : ∀ {live : Bool} {next : Option Shop}, s.using live next = some (s.finish e) →
      (live = true → next = some (s.finish e) → .undefined = e) → .undefined = e := by
    intro live next hu hnext
    rcases Shop.using_cases hu with he | ⟨hl, hn⟩
    · exact finish_inj (congrArg some he.symm)
    · exact hnext hl hn
  have hdead : ∀ {c : CustomerId} {next : Option Shop},
      s.using (s.main.customer c) next = some (s.finish e) → .undefined = e := fun hu =>
    huse hu fun hl _ => by
      rw [hgone] at hl
      cases hl
  unfold Shop.barberStep at h
  split at h
  · refine huse h fun _ h => ?_
    obtain ⟨v, -, hv⟩ := Option.map_eq_some_iff.1 h
    exact (not_finish hlive (congrArg some hv) rfl).elim
  · refine huse h fun _ h => ?_
    obtain ⟨v, -, hv⟩ := Option.map_eq_some_iff.1 h
    exact (not_finish hlive (congrArg some hv) rfl).elim
  · refine huse h fun _ h => ?_
    dsimp only at h
    split at h
    · exact finish_inj h
    · exact (not_finish hlive h rfl).elim
  · exact hdead h
  · exact hdead h
  · exact hdead h
  · exact hdead h
  · exact huse h fun _ h => (not_finish hlive h rfl).elim
  · exact huse h fun _ h => (not_finish hlive h rfl).elim

/-- **The end of a run** is one of four: `main` fails or returns, a customer finds no slot, or a
barber uses what is gone after `main` has closed the shop. -/
theorem RunInv.ends (hR : RunInv visitors barbers chairs H s)
    (h : step s a = some (s.finish e)) : Ends s a e := by
  obtain ⟨hlive, -⟩ := step_cases h
  simp only [step, hlive, Option.isSome_none, Bool.false_eq_true, if_false] at h
  cases a with
  | main fails => exact hR.main_ends hlive h
  | customer c => exact hR.customer_ends hlive h
  | barber b fast slow =>
    dsimp only at h
    split at h
    · next hst =>
      simp only [Shop.started, Bool.and_eq_true, decide_eq_true_eq] at hst
      cases hm : s.main.thrlab with
      | false => exact barber_closed hlive hm h
      | true => exact (hR.barber_open hlive hst.1 hm h).elim
    · cases h

/-! ## Who has been served -/

/-- Nobody is turned away, and when `main` joins the customers all visitors have come. -/
structure Welcomes (s : Shop) : Prop where
  reject : ∀ c, s.customers c ≠ .reject
  rejected : ∀ c, s.thrlab.statuses c ≠ .rejected
  filled : (∃ i, s.main = .creating i) ∨ (∃ i, s.main = .arriving i) ∨
    s.thrlab.customerCount = s.thrlab.visitors

/-- The statuses after a move: those of before, with that of one customer changed, not to
`rejected` unless that customer was at the reject. -/
theorem Inv.statuses (hI : Inv H s) (hm : Moves s a s') (hrej : ∀ c, s.customers c ≠ .reject) :
    s'.thrlab.statuses = s.thrlab.statuses ∨ ∃ c st, st ≠ .rejected ∧
      s'.thrlab.statuses = Function.update s.thrlab.statuses c st := by
  cases hm with
  | arrive hpc ht =>
    obtain ⟨rfl, -, rfl⟩ := Thrlab.arrive_eq ht
    exact .inr ⟨_, .pending, by decide, rfl⟩
  | accept hpc ht =>
    obtain rfl := Option.some.inj ((hI.accept_eq hpc).symm.trans ht)
    exact .inr ⟨_, .waiting, by decide, rfl⟩
  | reject hpc ht => exact absurd hpc (hrej _)
  | tail hpc ht =>
    have hcut := hI.not_cutting (c := _) (by rw [hpc]; rfl)
    rw [Thrlab.callbackEnd_eq (hI.counts.lt_visitors (by simp [hpc])) hcut] at ht
    obtain rfl := Option.some.inj ht
    exact .inl rfl
  | prepare hb hpc ht =>
    obtain rfl := Option.some.inj ((hI.prepare_eq hb hpc).symm.trans ht)
    exact .inr ⟨_, .cutting, by decide, rfl⟩
  | dismiss hb hpc ht =>
    obtain ⟨k, hk, -⟩ := hI.dismiss_eq hb hpc _ _
    obtain rfl := Option.some.inj (hk.symm.trans ht)
    exact .inr ⟨_, .done, by decide, rfl⟩
  | _ => exact .inl rfl

/-- The threads of the customers after a move: one of them, at most, is somewhere else, and not at
the reject. -/
theorem Moves.customers (hm : Moves s a s') : s'.customers = s.customers ∨
    ∃ c q, q ≠ .reject ∧ s'.customers = Function.update s.customers c q := by
  cases hm with
  | arrive | semInit | trywait | customerLock | accept | store | customerUnlock | postItems
  | waitCustomer | reject | tail => exact .inr ⟨_, _, by decide, rfl⟩
  | _ => exact .inl rfl

/-- A value that no entry has is not brought in by another one. -/
theorem ne_of_update {α : Type} {f g : CustomerId → α} {x : α} (h : ∀ c, f c ≠ x)
    (hg : g = f ∨ ∃ c y, y ≠ x ∧ g = Function.update f c y) (c : CustomerId) : g c ≠ x := by
  rcases hg with rfl | ⟨c', y, hy, rfl⟩
  · exact h c
  · rw [Function.update_apply]
    split
    · exact hy
    · exact h c

/-- **Step lemma.** -/
theorem Welcomes.next (h : Welcomes s) (hR : RunInv visitors barbers chairs H s)
    (hm : Moves s a s') : Welcomes s' := by
  have hmain := hR.mainOk
  have hbound := hR.inv.counts.bound
  obtain ⟨hv, -, -, hsz⟩ := hR.inv.sizes hm
  refine ⟨ne_of_update h.reject hm.customers,
    ne_of_update h.rejected (hR.inv.statuses hm h.reject), ?_⟩
  by_cases ha : ∃ f, a = .main f
  · obtain ⟨f, rfl⟩ := ha
    cases hm with
    | arrive => exact .inr (.inl ⟨_, rfl⟩)
    | main hp =>
      have hfilled := h.filled
      unfold Shop.MainOk at hmain
      cases hp with
      | create => exact .inl ⟨_, rfl⟩
      | created => exact .inr (.inl ⟨_, rfl⟩)
      | closed hpc hi =>
        rw [hpc] at hmain
        exact .inr (.inr (Nat.le_antisymm hbound (hmain ▸ hi)))
      | join hpc | joined hpc | freeChairs hpc | destroyMutex hpc | destroyItems hpc
      | destroySlots hpc => simpa [hpc] using hfilled
  · obtain ⟨hcount, hmain'⟩ := hsz.resolve_left ha
    rw [hcount, hmain', hv]
    exact h.filled

/-- Nobody is turned away in any run. -/
theorem run_welcomes {tr : List (Shop × Act)}
    (h : Run step (.setup visitors barbers chairs) tr s) : Welcomes s := by
  have hsetup : Welcomes (.setup visitors barbers chairs) :=
    ⟨fun _ => by simp [Shop.setup], fun _ => by simp [Shop.setup, Thrlab.setup], .inl ⟨0, rfl⟩⟩
  induction h with
  | start => exact hsetup
  | next hr hst ih =>
    obtain ⟨-, ⟨e, rfl⟩ | hm⟩ := step_cases hst
    · exact ⟨ih.reject, ih.rejected, ih.filled⟩
    · exact ih.next (run_inv hr) hm

/-- Once the shop is closed every visitor has come and has been served by one barber. -/
theorem RunInv.served (hR : RunInv visitors barbers chairs H s) (hW : Welcomes s)
    (hclosed : s.main.thrlab = false) : s.thrlab.customerCount = visitors ∧ ∀ c < visitors,
      s.customers c = .finished ∧ s.thrlab.statuses c = .done ∧ ∃! b, (b, c) ∈ H.reads := by
  have hmain := hR.mainOk
  unfold Shop.MainOk at hmain
  have hcount : s.thrlab.customerCount = visitors := by
    rw [← hR.visitors_eq]
    rcases hW.filled with ⟨i, hi⟩ | ⟨i, hi⟩ | h
    · rw [hi] at hclosed
      cases hclosed
    · rw [hi] at hclosed
      cases hclosed
    · exact h
  have hfin : ∀ c < visitors, s.customers c = .finished := by
    rw [← hcount]
    cases hpc : s.main with simp only [hpc] at hmain hclosed
    | creating | arriving | joining => cases hclosed
    | _ => exact hmain
  refine ⟨hcount, fun c hc => ⟨hfin c hc, ?_⟩⟩
  rcases (hR.inv.fits c).gone (by rw [hfin c hc]; rfl) with ⟨hrd, hdone⟩ | ⟨-, hrej⟩
  · obtain ⟨⟨b, c'⟩, hmem, rfl⟩ := List.mem_map.1 hrd
    exact ⟨hdone, b, hmem, fun b' hb' => hR.inv.ring.reader_unique hb' hmem⟩
  · exact absurd hrej (hW.rejected c)

/-- A customer that finds no slot is one more than there are chairs. -/
theorem RunInv.full (hR : RunInv visitors barbers chairs H s) (hpc : s.customers c = .trywait)
    (hn : s.chairs.slots = 0) : chairs < visitors := by
  have hring := hR.inv.ring
  have hC := hR.inv.counts
  have hlen := hring.slots_eq
  have hpres : ∀ x ∈ c :: H.taken, x < visitors := by
    intro x hx
    rw [← hR.visitors_eq]
    refine hC.lt_visitors fun habs => ?_
    rcases List.mem_cons.1 hx with rfl | hx
    · rw [hpc] at habs
      cases habs
    · rcases hring.taken_pc x hx with h | h
      · simp [habs, CustomerPc.claims] at h
      · have := hring.stored_pc x h
        simp [habs, CustomerPc.seated, CustomerPc.gone] at this
  have hnew : c ∉ H.taken := fun hc => by
    rcases hring.taken_pc c hc with h | h
    · simp [hpc, CustomerPc.claims] at h
    · have := hring.stored_pc c h
      simp [hpc, CustomerPc.seated, CustomerPc.gone] at this
  have hle : (c :: H.taken).length ≤ visitors := by
    have hsub : c :: H.taken ⊆ List.range visitors := fun x hx => List.mem_range.2 (hpres x hx)
    have := (List.subperm_of_subset (List.nodup_cons.2 ⟨hnew, hring.taken_nodup⟩) hsub).length_le
    rwa [List.length_range] at this
  rw [List.length_cons] at hle
  rw [hC.max_eq, hR.chairs_eq] at hlen
  omega

/-! ## A state without a step -/

/-- Only the join of a customer's thread holds `main` up. -/
theorem main_stuck (hlive : s.ended = none) (h : step s (.main false) = none) :
    ∃ i, s.main = .joining i ∧ i < s.thrlab.customerCount ∧ s.customers i ≠ .finished := by
  simp only [step, hlive, Option.isSome_none, Bool.false_eq_true, if_false, Shop.mainStep] at h
  split at h
  · split at h <;> cases h
  · split at h
    · split at h <;> cases h
    · cases h
  · next i hpc =>
    split at h
    · next hi =>
      split at h
      · cases h
      · next hfin => exact ⟨i, hpc, hi, hfin⟩
    · cases h
  · cases h
  · cases h
  · cases h
  · cases h
  · cases h

/-- **With a barber in the shop**, a process that has not ended can go on. -/
theorem RunInv.ended_of_stuck (hR : RunInv visitors barbers chairs H s) (hb : 1 ≤ barbers)
    (hstuck : ∀ a, step s a = none) : s.ended ≠ none := by
  intro hlive
  have hI := hR.inv
  obtain ⟨c, -, hpres, hfin⟩ := main_stuck hlive (hstuck _)
  have habs := (hI.counts.present c).2 hpres
  have hstop : ¬ s.Going := fun ⟨a, _, ha⟩ => by
    rw [hstuck a] at ha
    cases ha
  have hmutex : 0 < s.chairs.mutex :=
    Nat.pos_of_ne_zero fun h => hstop (hR.lock_going hlive habs h)
  -- customers wait to be woken, and barbers for an item
  have hcustomer : ∀ c, s.customers c ≠ .absent → s.customers c ≠ .finished →
      s.customers c = .waitCustomer ∧ s.customerMutex c = 0 := by
    intro c habs hfin
    by_contra hno
    refine hstop (customer_going hlive habs hfin (fun _ => hmutex) fun hw => ?_)
    exact Nat.pos_of_ne_zero fun hz => hno ⟨hw, hz⟩
  have hbarber : ∀ b < s.thrlab.barbers, s.barbers b = .waitItems ∧ s.chairs.items = 0 := by
    intro b hb
    by_contra hno
    refine hstop (barber_going hlive (hR.started habs hb) (fun hw => ?_) fun _ => hmutex)
    exact Nat.pos_of_ne_zero fun hz => hno ⟨hw, hz⟩
  obtain ⟨hpc, hcm⟩ := hcustomer c habs hfin
  have hst : c ∈ H.stored := hI.ring.seated c (by rw [hpc]; rfl)
  have hitems := (hbarber 0 (hR.barbers_eq ▸ hb)).2
  have howes : s.customerTally CustomerPc.owes = 0 := tally_eq_zero.2 fun c _ => by
    by_cases habs : s.customers c = .absent
    · rw [habs]
      rfl
    by_cases hfin : s.customers c = .finished
    · rw [hfin]
      rfl
    rw [(hcustomer c habs hfin).1]
    rfl
  have htakes : s.barberTally BarberPc.takes = 0 := tally_eq_zero.2 fun b hb => by
    rw [(hbarber b hb).1]
    rfl
  -- so the ring is empty, and the customer has been read
  have hempty : s.chairs.rear ≤ s.chairs.front := by
    have := hI.counts.items_eq
    omega
  have hrd : c ∈ H.readers := by
    rw [hI.ring.readers_eq, List.take_of_length_le (hI.ring.rear_eq ▸ hempty)]
    exact hst
  rcases hR.woken c (by rw [hpc]; rfl) hrd with hpos | ⟨b, hb', hu⟩
  · omega
  · rw [(hbarber b hb').1] at hu
    cases hu

/-- **How a run ends.** With a barber in the shop, a run that cannot go on has ended. Either `main`
has failed to get a thread, or a customer has found no slot, when there are fewer chairs than
visitors; or every visitor has come, has been served by exactly one barber and has left, and the
process has returned from `main`, or a barber has used what `main` had already destroyed. -/
theorem run_outcome {tr : List (Shop × Act)} (hb : 1 ≤ barbers)
    (h : Run step (.setup visitors barbers chairs) tr s) (hstuck : ∀ a, step s a = none) :
    (s.ended = some (.exit 1) ∧ ∃ tr' p a, tr = tr' ++ [(p, a)] ∧ (a = .main true ∨
        ∃ c, a = .customer c ∧ p.customers c = .trywait ∧ p.chairs.slots = 0 ∧
          chairs < visitors)) ∨
      (s.ended = some (.exit 0) ∨ s.ended = some .undefined) ∧
        s.thrlab.customerCount = visitors ∧ ∀ c < visitors, s.customers c = .finished ∧
          s.thrlab.statuses c = .done ∧ ∃! b, (b, c) ∈ (history tr).reads := by
  have hR := run_inv h
  have hend := hR.ended_of_stuck hb hstuck
  have hserved := hR.served (run_welcomes h)
  cases h with
  | start => exact absurd rfl hend
  | @next tr' p _ a hr hst =>
    obtain ⟨hlive, ⟨e, rfl⟩ | hm⟩ := step_cases hst
    · cases (run_inv hr).ends hst with
      | fails => exact .inl ⟨rfl, tr', p, _, rfl, .inl rfl⟩
      | full hpc hn =>
        exact .inl ⟨rfl, tr', p, _, rfl, .inr ⟨_, rfl, hpc, hn, (run_inv hr).full hpc hn⟩⟩
      | returns hpc => exact .inr ⟨.inl rfl, hserved (by rw [Shop.finish, hpc]; rfl)⟩
      | closed hm => exact .inr ⟨.inr rfl, hserved hm⟩
    · exact absurd (hm.ended.trans hlive) hend

/-- At the end of the day the customer has been served. -/
theorem run_outcome_day : ∃ tr s, Run step (.setup 1 1 1) tr s ∧ s.ended = some (.exit 0) ∧
    s.thrlab.statuses 0 = .done ∧ ∃! b, (b, 0) ∈ (history tr).reads := by
  obtain ⟨s, hs, hend⟩ : ∃ s, exec step (.setup 1 1 1) oneDay = some s ∧
    s.ended = some (.exit 0) := ⟨_, rfl, rfl⟩
  have hrun := Run.start.exec hs
  have hstuck : ∀ a, step s a = none := fun a => by simp [step, hend]
  rcases run_outcome le_rfl hrun hstuck with ⟨h1, -⟩ | ⟨-, -, hall⟩
  · rw [hend] at h1
    cases h1
  · exact ⟨_, s, hrun, hend, (hall 0 Nat.one_pos).2⟩

end Barbershop
