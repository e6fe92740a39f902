import Styrikerfi.Lib.Run
import Mathlib.Logic.Function.Basic

/-!
# Arrays that come and go

What a dynamic memory is for: arrays of elements are created, written to, moved and given back. The
store knows each array by the address of its first element and remembers the elements that have been
written; an event is refused that would put an array on top of another (`Store.step`). A memory
`Holds` a store when every element remembered is found at its address.

`Does` is what one step of a program does to its memory and to the extents its client has, said of
both and of nothing else. `Run.stores` is the rule: a program whose steps all do what their events
say runs as the store does, and its memory holds the arrays throughout.
-/

namespace Store

variable {α : Type*}

/-- The addresses of an array: where it starts and how long it is. -/
abbrev Extent := Nat × Nat

/-- The address belongs to the extent. -/
def Extent.Mem (x : Extent) (a : Nat) : Prop := x.1 ≤ a ∧ a < x.1 + x.2

instance (x : Extent) (a : Nat) : Decidable (x.Mem a) := inferInstanceAs (Decidable (_ ∧ _))

/-- The extents have no address in common. -/
def Extent.Apart (x y : Extent) : Prop := x.1 + x.2 ≤ y.1 ∨ y.1 + y.2 ≤ x.1

instance (x y : Extent) : Decidable (x.Apart y) := inferInstanceAs (Decidable (_ ∨ _))

/-- The extents that do not start at `base`. -/
def without (base : Nat) (xs : List Extent) : List Extent :=
  xs.filter fun x => decide (x.1 ≠ base)

/-- An array, with the elements that have been written to it. -/
structure Cells (α : Type*) where
  extent : Extent
  known : Nat → Option α

/-- A new array: nothing has been written. -/
def Cells.fresh (base len : Nat) : Cells α := ⟨(base, len), fun _ => none⟩

/-- The array at a new place: its elements go along as far as both reach. -/
def Cells.moved (c : Cells α) (base len : Nat) : Cells α :=
  ⟨(base, len), fun i => if i < min c.extent.2 len then c.known i else none⟩

/-- The array after an element is written at `a`. -/
def Cells.write (c : Cells α) (a : Nat) (v : α) : Cells α :=
  if c.extent.Mem a then { c with known := Function.update c.known (a - c.extent.1) (some v) }
  else c

/-- What happens to the arrays. -/
inductive Event (α : Type*) where
  | alloc (base len : Nat)
  | move (old base len : Nat)
  | free (base : Nat)
  | write (a : Nat) (v : α)

/-- The arrays that do not start at `base`. -/
def others (base : Nat) (st : List (Cells α)) : List (Cells α) :=
  st.filter fun c => decide (c.extent.1 ≠ base)

/-- One event, if it is possible. -/
def step (st : List (Cells α)) : Event α → Option (List (Cells α))
  | .alloc base len =>
    if ∀ c ∈ st, Extent.Apart (base, len) c.extent then some (.fresh base len :: st) else none
  | .move old base len =>
    (st.find? fun c => decide (c.extent.1 = old)).bind fun c =>
      if ∀ d ∈ others old st, Extent.Apart (base, len) d.extent then
        some (c.moved base len :: others old st)
      else none
  | .free base => if ∃ c ∈ st, c.extent.1 = base then some (others base st) else none
  | .write a v => if ∃ c ∈ st, c.extent.Mem a then some (st.map fun c => c.write a v) else none

/-- Every element remembered is found in the memory. -/
def Holds (mem : Nat → α) (st : List (Cells α)) : Prop :=
  ∀ c ∈ st, ∀ i < c.extent.2, ∀ v, c.known i = some v → mem (c.extent.1 + i) = v

/-- The elements of an extent are the same in both memories. -/
def Same (mem mem' : Nat → α) (x : Extent) : Prop := ∀ i < x.2, mem' (x.1 + i) = mem (x.1 + i)

/-- What a step does for an event, or for none: the client's extents are `xs` before it and `xs'`
after it. -/
def Does (mem mem' : Nat → α) (xs xs' : List Extent) : Option (Event α) → Prop
  | none => xs' = xs ∧ ∀ x ∈ xs, Same mem mem' x
  | some (.alloc base len) => xs' = (base, len) :: xs ∧
      ∀ x ∈ xs, Extent.Apart (base, len) x ∧ Same mem mem' x
  | some (.move old base len) => old ∈ xs.map Prod.fst ∧ xs' = (base, len) :: without old xs ∧
      (∀ x ∈ without old xs, Extent.Apart (base, len) x ∧ Same mem mem' x) ∧
      ∀ n, (old, n) ∈ xs → ∀ i < min n len, mem' (base + i) = mem (old + i)
  | some (.free base) => base ∈ xs.map Prod.fst ∧ xs' = without base xs ∧
      ∀ x ∈ without base xs, Same mem mem' x
  | some (.write a v) => (∃ x ∈ xs, x.Mem a) ∧ xs' = xs ∧ mem' = Function.update mem a v

variable {mem mem' : Nat → α} {st st' : List (Cells α)} {xs' : List Extent} {c : Cells α}
  {e : Event α} {a base : Nat} {v : α}

/-! ## The extents of the arrays -/

@[simp] theorem Cells.write_extent : (c.write a v).extent = c.extent := by
  unfold Cells.write
  split <;> rfl

/-- The extents of the other arrays. -/
theorem map_others : (others base st).map Cells.extent = without base (st.map Cells.extent) := by
  rw [others, without, List.filter_map]
  rfl

/-- An address at which an array begins. -/
theorem exists_base (h : base ∈ (st.map Cells.extent).map Prod.fst) :
    ∃ c ∈ st, c.extent.1 = base := by
  rw [List.map_map] at h
  exact List.mem_map.1 h

/-- The other arrays are those that begin elsewhere. -/
theorem mem_others : c ∈ others base st ↔ c ∈ st ∧ c.extent.1 ≠ base := by
  simp [others]

/-! ## What a memory holds -/

/-- A memory holds one array more. -/
theorem Holds.cons (hc : ∀ i < c.extent.2, ∀ v, c.known i = some v → mem (c.extent.1 + i) = v)
    (h : Holds mem st) : Holds mem (c :: st) :=
  List.forall_mem_cons.2 ⟨hc, h⟩

/-- Where the elements stay the same they are still held. -/
theorem Holds.same (h : Holds mem st) (hst : ∀ c ∈ st', c ∈ st)
    (hs : ∀ c ∈ st', Same mem mem' c.extent) : Holds mem' st' :=
  fun c hc i hi v hv => (hs c hc i hi).trans (h c (hst c hc) i hi v hv)

/-- A write is remembered by the array it is in, and is no business of another. -/
theorem Holds.write (h : Holds mem st) (a : Nat) (v : α) :
    Holds (Function.update mem a v) (st.map fun c => c.write a v) := by
  intro c hc i hi w hw
  obtain ⟨d, hd, rfl⟩ := List.mem_map.1 hc
  rw [Cells.write_extent] at hi ⊢
  unfold Cells.write at hw
  split at hw
  · next hm =>
    dsimp only at hw
    by_cases ha : d.extent.1 + i = a
    · have hi' : a - d.extent.1 = i := by omega
      rw [hi', Function.update_self] at hw
      rw [ha, Function.update_self]
      exact Option.some.inj hw
    · have hne : i ≠ a - d.extent.1 := by
        have := hm.1
        omega
      rw [Function.update_of_ne hne] at hw
      rw [Function.update_of_ne ha]
      exact h d hd i hi w hw
  · next hm =>
    have hne : d.extent.1 + i ≠ a := fun ha => hm ⟨by omega, by omega⟩
    rw [Function.update_of_ne hne]
    exact h d hd i hi w hw

/-! ## Steps and runs -/

/-- Where no event happens the memory still holds the store. -/
theorem Does.none (hd : Does mem mem' (st.map Cells.extent) xs' none) (h : Holds mem st) :
    xs' = st.map Cells.extent ∧ Holds mem' st :=
  ⟨hd.1, h.same (fun _ hc => hc) fun _ hc => hd.2 _ (List.mem_map_of_mem hc)⟩

/-- **Step lemma.** A step that does what the event says is one of the store, and its memory holds
the arrays after it. -/
theorem Does.step (hd : Does mem mem' (st.map Cells.extent) xs' (some e)) (h : Holds mem st) :
    ∃ st', Store.step st e = some st' ∧ st'.map Cells.extent = xs' ∧ Holds mem' st' := by
  have hothers : ∀ base, ∀ c ∈ others base st, c.extent ∈ without base (st.map Cells.extent) :=
    fun base c hc => by
      rw [← map_others]
      exact List.mem_map_of_mem hc
  cases e with
  | alloc base len =>
    obtain ⟨rfl, hx⟩ := hd
    refine ⟨.fresh base len :: st, if_pos fun c hc => (hx _ (List.mem_map_of_mem hc)).1, rfl, ?_⟩
    exact .cons (fun _ _ _ hv => nomatch hv)
      (h.same (fun _ hc => hc) fun c hc => (hx _ (List.mem_map_of_mem hc)).2)
  | move old base len =>
    obtain ⟨hold, rfl, hx, hmv⟩ := hd
    obtain ⟨c, hc⟩ : ∃ c, st.find? (fun c => decide (c.extent.1 = old)) = some c := by
      obtain ⟨c, hc, he⟩ := exists_base hold
      exact Option.isSome_iff_exists.1 (List.find?_isSome.2 ⟨c, hc, decide_eq_true he⟩)
    have hcm := List.mem_of_find?_eq_some hc
    have hold : c.extent.1 = old := by
      have := List.find?_some hc
      exact of_decide_eq_true this
    refine ⟨c.moved base len :: others old st, ?_, ?_, .cons (fun i _ v hv => ?_) ?_⟩
    · rw [Store.step, hc]
      exact if_pos fun d hd => (hx _ (hothers old d hd)).1
    · rw [List.map_cons, map_others]
      rfl
    · -- what is remembered has been copied
      dsimp only [Cells.moved] at hv
      split at hv
      · next hi =>
        have hm := hmv c.extent.2 (List.mem_map.2 ⟨c, hcm, Prod.ext hold rfl⟩) i hi
        have := h c hcm i (by omega) v hv
        rw [hold] at this
        exact hm.trans this
      · cases hv
    · exact h.same (fun _ hd => (mem_others.1 hd).1) fun d hd => (hx _ (hothers old d hd)).2
  | free base =>
    obtain ⟨hbase, rfl, hx⟩ := hd
    exact ⟨others base st, if_pos (exists_base hbase), map_others,
      h.same (fun _ hd => (mem_others.1 hd).1) fun d hd => hx _ (hothers base d hd)⟩
  | write a v =>
    obtain ⟨⟨x, hx, ha⟩, rfl, rfl⟩ := hd
    refine ⟨st.map (Cells.write · a v), if_pos ?_, ?_, h.write a v⟩
    · obtain ⟨c, hc, rfl⟩ := List.mem_map.1 hx
      exact ⟨c, hc, ha⟩
    · rw [List.map_map]
      exact List.map_congr_left fun c _ => Cells.write_extent

/-- Arrays are apart in every state of the store. -/
theorem apart_of_reachable (h : Reachable step ([] : List (Cells α)) st) :
    st.Pairwise fun c d => c.extent.Apart d.extent := by
  have hother : ∀ (base : Nat) {st : List (Cells α)},
      st.Pairwise (fun c d => c.extent.Apart d.extent) →
      (others base st).Pairwise fun c d => c.extent.Apart d.extent :=
    fun _ _ hp => hp.sublist List.filter_sublist
  refine h.invariant (I := fun st => st.Pairwise fun c d => c.extent.Apart d.extent) .nil ?_
  intro st e st' hp hst
  cases e with
  | alloc base len =>
    obtain ⟨hap, hst⟩ := Option.ite_none_right_eq_some.1 hst
    cases hst
    exact .cons hap hp
  | move old base len =>
    obtain ⟨c, -, hst⟩ := Option.bind_eq_some_iff.1 hst
    obtain ⟨hap, hst⟩ := Option.ite_none_right_eq_some.1 hst
    cases hst
    exact .cons hap (hother old hp)
  | free base =>
    obtain ⟨-, hst⟩ := Option.ite_none_right_eq_some.1 hst
    cases hst
    exact hother base hp
  | write a v =>
    obtain ⟨-, hst⟩ := Option.ite_none_right_eq_some.1 hst
    cases hst
    rw [List.pairwise_map]
    simpa only [Cells.write_extent] using hp

end Store

/-- **The rule for programs.** A program whose steps, under a condition `C` and an invariant `I`,
all do what their events say runs as the store does: its client has the extents of the arrays, and
its memory holds them. -/
theorem Run.stores {σ β α : Type*} {step : σ → β → Option σ} {m : σ → Nat → α}
    {x : σ → List Store.Extent} {e : σ → β → Option (Store.Event α)} {I : σ → Prop}
    {C : σ → β → Prop} {s₀ s : σ} {tr : List (σ × β)} (h0 : x s₀ = []) (hI : I s₀)
    (hs : ∀ {s b s'}, I s → C s b → step s b = some s' →
      I s' ∧ Store.Does (m s) (m s') (x s) (x s') (e s b))
    (h : Run step s₀ tr s) (hC : ∀ y ∈ tr, C y.1 y.2) :
    ∃ tr' st, Run Store.step [] tr' st ∧ st.map Store.Cells.extent = x s ∧
      Store.Holds (m s) st ∧ tr'.map Prod.snd = tr.filterMap fun y => e y.1 y.2 := by
  refine h.invariant_of (C := C) (I := fun tr s => I s ∧ ∃ tr' st, Run Store.step [] tr' st ∧
    st.map Store.Cells.extent = x s ∧ Store.Holds (m s) st ∧
    tr'.map Prod.snd = tr.filterMap fun y => e y.1 y.2)
    ⟨hI, [], [], .start, h0.symm, fun _ hc => absurd hc List.not_mem_nil, rfl⟩ ?_ hC |>.2
  rintro tr s b s' ⟨hI, tr', st, hr, hx, hh, ha⟩ hc hst
  obtain ⟨hI', hd⟩ := hs hI hc hst
  refine ⟨hI', ?_⟩
  rw [← hx] at hd
  cases he : e s b with
  | none =>
    rw [he] at hd
    obtain ⟨hx', hh'⟩ := hd.none hh
    exact ⟨tr', st, hr, hx'.symm, hh', by simp [ha, he]⟩
  | some ev =>
    rw [he] at hd
    obtain ⟨st', hstep, hx', hh'⟩ := hd.step hh
    exact ⟨_, st', hr.next hstep, hx', hh', by simp [ha, he]⟩
