import Styrikerfi.Malloc.Reshape
import Styrikerfi.Malloc.Clients
import Styrikerfi.Lib.Store

/-!
# Sessions that reallocate

A client that calls `mm_realloc` too. Its session follows a ledger as one without it does
(`Session.Follows.serve`): which demands are served, the pointers returned and the break are
functions of the calls. So the heap invariant holds in every state reached and the answers do not
depend on the memory, as long as no block is made to outgrow the chunk its extension adds
(`Session.Careful`).

What the client has is a store of arrays (`Lib.Store`): a block allocated is a new array apart from
the others, a block reallocated is the same array elsewhere, and a byte written is there until its
array goes (`session_stores`).
-/

namespace Malloc

open Machine32 Tiling LinkedList

/-- What a client does, reallocation included. -/
inductive Demand where
  | malloc (size : Nat)
  | realloc (ptr size : Nat)
  | free (ptr : Nat)
  | write (p : Nat) (v : UInt8)

/-- The demand, if it is one on the allocator. -/
def Demand.asked : Demand → Option Demand
  | .write _ _ => none
  | d => some d

/-- The requests that are held once a block has become one of `size` bytes at `p`. -/
def regrant (live : List (Nat × Nat)) (ptr p size : Nat) : List (Nat × Nat) :=
  if p = 0 then live else (p, size) :: Store.without ptr live

/-- One demand, if the client may make it and it returns. -/
def Session.serve (s : Session) : Demand → Option Session
  | .malloc size => s.step (.malloc size)
  | .realloc ptr size =>
    if ptr ∈ s.live.map Prod.fst ∧ 1 ≤ size ∧ size < 2 ^ 31 then
      match s.heap.mmRealloc ptr size with
      | some (.ret p h) => some ⟨h, regrant s.live ptr p size⟩
      | _ => none
    else none
  | .free ptr => s.step (.free ptr)
  | .write p v => s.step (.write p v)

/-- What a client sees of a demand: the pointer returned, 0 where there is none, and the break after
it. -/
def Session.reply (s : Session) : Demand → Option (Nat × Nat)
  | .malloc size => s.answer (.malloc size)
  | .realloc ptr size =>
    match s.heap.mmRealloc ptr size with
    | some (.ret p h) => some (p, h.memBrk)
    | _ => none
  | .free ptr => s.answer (.free ptr)
  | .write _ _ => some (0, s.heap.memBrk)

/-- One demand on the ledger. -/
def Ledger.serve (l : Ledger) : Demand → Option Ledger
  | .malloc size => l.step (.malloc size)
  | .realloc ptr size =>
    if ptr ∈ l.live.map Prod.fst ∧ 1 ≤ size ∧ size < 2 ^ 31 then
      match l.shape.realloc l.brk l.limit ptr size with
      | .ret p brk t => some ⟨t, brk, l.limit, regrant l.live ptr p size⟩
      | _ => none
    else none
  | .free ptr => l.step (.free ptr)
  | .write p _ => if ∃ x ∈ l.live, x.1 ≤ p ∧ p < x.1 + x.2 then some l else none

/-- What the client sees of it. -/
def Ledger.reply (l : Ledger) : Demand → Option (Nat × Nat)
  | .malloc size => l.answer (.malloc size)
  | .realloc ptr size =>
    match l.shape.realloc l.brk l.limit ptr size with
    | .ret p brk _ => some (p, brk)
    | _ => none
  | .free ptr => l.answer (.free ptr)
  | .write _ _ => some (0, l.brk)

/-- The block at `ptr` is the last one, the heap is extended for it, and no block is left of the
chunk when it has the size asked for. -/
def Heap.Overgrows (h : Heap) (ptr size : Nat) : Prop :=
  h.reallocBranch ptr (adjust size) (h.getSize (hdrp ptr)) = .extend ∧
    h.memBrk + chunksize ≤ h.memMaxAddr ∧
    h.getSize (hdrp ptr) + chunksize < adjust size + minimum

instance (h : Heap) (ptr size : Nat) : Decidable (h.Overgrows ptr size) :=
  inferInstanceAs (Decidable (_ ∧ _))

/-- The demand makes no block outgrow its chunk. -/
def Session.Careful (s : Session) : Demand → Prop
  | .realloc ptr size => ¬ s.heap.Overgrows ptr size
  | _ => True

section
variable {s s' : Session} {l l' : Ledger} {d : Demand} {h' : Heap} {x : Nat × Nat}
  {size ptr p brk : Nat} {t : Shape}

/-! ## Reallocation in a session -/

/-- A held block in the shape of the ledger. -/
theorem Session.Follows.mem (F : s.Follows l) (hp : ptr ∈ s.live.map Prod.fst) :
    ∃ b ∈ l.shape.blocks, b.bp = ptr ∧ b.alloc = true := by
  obtain ⟨b, hb, he⟩ := F.inv.mem_live hp
  exact ⟨b, (mem_allocs.1 hb).1, he, (mem_allocs.1 hb).2⟩

/-- What a reallocation does for the client of a session: pointer and break are those of the ledger;
the block is at its new place with its contents and the others are as they were, or nothing has
changed and the answer is `NULL`. -/
theorem Session.Follows.realloc (F : s.Follows l) (hx : x ∈ s.live) (h1 : 1 ≤ size)
    (hlt : size < 2 ^ 31) (hl : l.shape.realloc l.brk l.limit x.1 size = .ret p brk t) :
    ∃ h', s.heap.mmRealloc x.1 size = some (.ret p h') ∧
      Session.Follows ⟨h', regrant s.live x.1 p size⟩ ⟨t, brk, l.limit, regrant l.live x.1 p size⟩ ∧
      (p = 0 → h' = s.heap) ∧
      (p ≠ 0 → (∀ i < min x.2 size, h'.mem (p + i) = s.heap.mem (x.1 + i)) ∧
        ∀ y ∈ Store.without x.1 s.live, Store.Same s.heap.mem h'.mem y) := by
  obtain ⟨b, hb, hbx, ha⟩ := F.mem (List.mem_map_of_mem hx)
  have H : s.heap.Has l.shape := F.inv.wellFormed
  obtain ⟨pre, post, hsplit, hf⟩ := H.mmRealloc hb ha h1 hlt
  have I := F.inv
  rw [hsplit] at I
  obtain ⟨hheld, hroom⟩ := I.release ha
  have hsize : x.2 + 8 ≤ b.size := by
    obtain ⟨c, hc, hcx, hle⟩ := F.inv.room x hx
    rwa [F.inv.wellFormed.layout.bp_inj hb (mem_allocs.1 hc).1 (hbx.trans hcx.symm)]
  rw [hbx, F.brk, F.limit, hl] at hf
  rw [hbx] at hheld hroom
  generalize s.heap.mmRealloc x.1 size = o at hf
  cases hf with
  | refused hhas =>
    have hlive : regrant s.live x.1 0 size = s.live := if_pos rfl
    obtain ⟨hbs, hfl⟩ := F.inv.wellFormed.unique hhas
    have I' := F.inv
    rw [hbs, hfl] at I'
    exact ⟨s.heap, rfl, ⟨⟨hhas, hlive ▸ I'.held, hlive ▸ I'.room⟩, rfl, F.limit, by rw [F.live]⟩,
      fun _ => rfl, fun h0 => absurd rfl h0⟩
  | @moved _ _ _ h' hp hhas hframe hre hmv =>
    obtain ⟨bs, fl, a, hwf, hap, haa, hasz, hall, hk⟩ := hre
    obtain ⟨rfl, rfl⟩ := hwf.unique hhas
    have hlive : regrant s.live x.1 p size = (p, size) :: Store.without x.1 s.live := if_neg hp
    refine ⟨h', rfl, ⟨⟨hhas, ?_, ?_⟩, hframe.memBrk, hframe.memMaxAddr.trans F.limit,
      by rw [F.live]⟩, fun h0 => absurd h0 hp, fun _ => ⟨fun i hi => ?_, fun y hy i hi => ?_⟩⟩
    · rw [hlive]
      have := hall.map Block.bp
      rw [List.map_cons, hap] at this
      exact (hheld.cons p).trans this.symm
    · rw [hlive]
      refine List.forall_mem_cons.2 ⟨⟨a, hall.mem_iff.2 List.mem_cons_self, hap, hasz⟩, ?_⟩
      intro y hy
      obtain ⟨c, hc, he, hle⟩ := hroom y hy
      exact ⟨c, hall.mem_iff.2 (List.mem_cons_of_mem _ hc), he, hle⟩
    · have := hmv i (by omega)
      rwa [hbx] at this
    · obtain ⟨c, hc, he, hle⟩ := hroom y hy
      exact hk c hc _ (by omega) (by omega)

/-- Where the ledger has no block for a reallocation, the program exits. -/
theorem Session.Follows.realloc_exit (F : s.Follows l) (hx : ptr ∈ s.live.map Prod.fst)
    (h1 : 1 ≤ size) (hlt : size < 2 ^ 31) (hl : l.shape.realloc l.brk l.limit ptr size = .exit) :
    s.heap.mmRealloc ptr size = some (.exit 1 s.heap) := by
  obtain ⟨b, hb, rfl, ha⟩ := F.mem hx
  have H : s.heap.Has l.shape := F.inv.wellFormed
  obtain ⟨pre, post, -, hf⟩ := H.mmRealloc hb ha h1 hlt
  rw [F.brk, F.limit, hl] at hf
  generalize s.heap.mmRealloc b.bp size = o at hf
  cases hf with
  | exit => rfl

/-- A reallocation damages the heap of the ledger exactly when it makes a block outgrow its
chunk. -/
theorem Session.Follows.overgrows_iff (F : s.Follows l) (hx : ptr ∈ s.live.map Prod.fst)
    (hlt : size < 2 ^ 31) :
    s.heap.Overgrows ptr size ↔ l.shape.realloc l.brk l.limit ptr size = .damaged := by
  obtain ⟨b, hb, rfl, ha⟩ := F.mem hx
  have H := F.inv.wellFormed
  obtain ⟨-, -, -, hmax⟩ := adjust_spec (show size + 15 < 2 ^ 32 by omega)
  obtain ⟨pre, post, hsplit⟩ := List.append_of_mem hb
  rw [hsplit] at H
  have hbr := H.layout.reallocBranch_eq (show adjust size + 16 < 2 ^ 32 by omega)
  rw [Heap.Overgrows, H.layout.getSize (b := b) (by simp), hbr, F.brk, F.limit, Shape.realloc,
    hsplit, H.locate]
  dsimp only [Shape.resize]
  cases branch pre b post (adjust size) with
  | extend =>
    dsimp only
    split
    · next hroom =>
      split
      · next hle => exact iff_of_false (fun hov => absurd hov.2.2 (by omega)) (by simp)
      · next hle => exact iff_of_true ⟨rfl, hroom, by omega⟩ rfl
    · next hroom => exact iff_of_false (fun hov => hroom hov.2.1) (by simp)
  | mallocCopyFree =>
    dsimp only
    split <;> simp
  | unchanged | shrink | absorbNext | absorbPrev | absorbBoth => simp

/-- **Every demand** of a careful client is served in the session exactly when it is in the ledger,
with the same reply. -/
theorem Session.Follows.serve (F : s.Follows l) (hc : s.Careful d) :
    s.serve d = none ∧ l.serve d = none ∨ ∃ s' l', s.serve d = some s' ∧ l.serve d = some l' ∧
      s'.Follows l' ∧ s.reply d = l.reply d := by
  cases d with
  | malloc size => exact F.call (.malloc size)
  | free ptr => exact F.call (.free ptr)
  | write p v =>
    by_cases hx : ∃ x ∈ s.live, x.1 ≤ p ∧ p < x.1 + x.2
    · obtain ⟨s', hs⟩ : ∃ s', s.step (.write p v) = some s' := ⟨_, if_pos hx⟩
      exact .inr ⟨s', l, hs, if_pos (F.live ▸ hx), F.write hs rfl,
        congrArg (fun b => some (0, b)) F.brk⟩
    · exact .inl ⟨if_neg hx, if_neg (F.live ▸ hx)⟩
  | realloc ptr size =>
    by_cases hcan : ptr ∈ s.live.map Prod.fst ∧ 1 ≤ size ∧ size < 2 ^ 31
    · obtain ⟨hp, h1, hlt⟩ := hcan
      have hcan' : ptr ∈ l.live.map Prod.fst ∧ 1 ≤ size ∧ size < 2 ^ 31 := ⟨F.live ▸ hp, h1, hlt⟩
      have hov := (F.overgrows_iff hp hlt).not.1 hc
      obtain ⟨x, hx, rfl⟩ := List.mem_map.1 hp
      simp only [Session.serve, Ledger.serve, Session.reply, Ledger.reply, if_pos hcan',
        if_pos (And.intro hp (And.intro h1 hlt))]
      cases hl : l.shape.realloc l.brk l.limit x.1 size with
      | ret p brk t =>
        obtain ⟨h', hm, F', -⟩ := F.realloc hx h1 hlt hl
        rw [hm]
        exact .inr ⟨_, _, rfl, rfl, F', congrArg (fun b => some (p, b)) F'.brk⟩
      | exit =>
        rw [F.realloc_exit hp h1 hlt hl]
        exact .inl ⟨rfl, rfl⟩
      | damaged => exact absurd hl hov
    · exact .inl ⟨if_neg hcan, if_neg (F.live ▸ hcan)⟩

/-! ## What the client can use -/

/-- A held request is aligned and lies in the heap. -/
theorem Heap.Holding.within {h : Heap} {bs : List Block} {live : List (Nat × Nat)}
    (H : h.Holding bs live) (hx : x ∈ live) :
    x.1 ≠ 0 ∧ x.1 % 8 = 0 ∧ h.memStartBrk ≤ x.1 ∧ x.1 + x.2 ≤ h.memBrk := by
  obtain ⟨b, hb, hbp, hroom⟩ := H.room x hx
  have hbm := (mem_allocs.1 hb).1
  have hB := H.layout.bounds hbm
  have := hB.lo; have := hB.hi; have := hB.listp; have := H.layout.listp
  exact ⟨by omega, hbp ▸ H.layout.bp_mod.1 b hbm, by omega, by omega⟩

/-- Held requests are apart. -/
theorem Heap.Holding.apart {h : Heap} {bs : List Block} {live : List (Nat × Nat)}
    (H : h.Holding bs live) : live.Pairwise Store.Extent.Apart := by
  refine (List.pairwise_map.1 H.nodup).imp_of_mem fun {x y} hx hy hne => ?_
  obtain ⟨b, hb, hbp, hbr⟩ := H.room x hx
  obtain ⟨c, hc, hcp, hcr⟩ := H.room y hy
  have := H.layout.apart (mem_allocs.1 hb).1 (mem_allocs.1 hc).1
    fun e => hne (by rw [← hbp, e, hcp])
  unfold Store.Extent.Apart
  omega

/-! ## Runs -/

/-- A run of a careful client is one of its ledger, with the same replies to the demands other than
writes. -/
theorem Session.Follows.serve_run {s₀ : Session} {l₀ : Ledger} {tr : List (Session × Demand)}
    (F : s₀.Follows l₀) (h : Run Session.serve s₀ tr s) (hc : ∀ x ∈ tr, x.1.Careful x.2) :
    ∃ tr' l, Run Ledger.serve l₀ tr' l ∧ s.Follows l ∧ tr'.map Prod.snd = tr.filterMap
      (fun x => x.2.asked) ∧ tr'.map (fun x => x.1.reply x.2) =
        tr.filterMap fun x => x.2.asked.map fun _ => x.1.reply x.2 := by
  refine h.simulate_of (R := Session.Follows) (C := Session.Careful) (f := fun _ d => d.asked)
    (u := Session.reply) (v := Ledger.reply) F (fun {s l d s'} F hc hst hd => ?_)
    (fun {s l d s' e} F hc hst hd => ?_) hc
  · rcases F.serve hc with ⟨hno, -⟩ | ⟨s'', l', hs, hl, F', -⟩
    · rw [hno] at hst
      cases hst
    · cases hst.symm.trans hs
      cases d with
      | malloc | realloc | free => cases hd
      | write p v =>
        obtain ⟨-, hl⟩ := Option.ite_none_right_eq_some.1 hl
        cases hl
        exact F'
  · obtain rfl : d = e := by
      cases d with
      | write => cases hd
      | malloc | realloc | free => exact Option.some.inj hd
    rcases F.serve hc with ⟨hno, -⟩ | ⟨s'', l', hs, hl, F', ha⟩
    · rw [hno] at hst
      cases hst
    · cases hst.symm.trans hs
      exact ⟨ha, l', hl, F'⟩

/-- What the ledger serves is careful. -/
theorem Session.Follows.careful (F : s.Follows l) (hl : l.serve d = some l') : s.Careful d := by
  cases d with
  | malloc | free | write => trivial
  | realloc ptr size =>
    intro hov
    obtain ⟨⟨hp, -, hlt⟩, hl⟩ := Option.ite_none_right_eq_some.1 hl
    rw [(F.overgrows_iff (F.live ▸ hp) hlt).1 hov] at hl
    cases hl

/-- What the ledger allows, a careful client can do. -/
theorem Session.serve_exec {ds : List Demand} (F : s.Follows l)
    (he : exec Ledger.serve l ds = some l') : ∃ s', exec Session.serve s ds = some s' ∧
      s'.Follows l' ∧ ∀ x ∈ traceFrom Session.serve s ds, x.1.Careful x.2 := by
  induction ds generalizing s l with
  | nil =>
    cases he
    exact ⟨s, rfl, F, fun _ hx => absurd hx List.not_mem_nil⟩
  | cons d ds ih =>
    obtain ⟨l₁, hl₁, he⟩ := Option.bind_eq_some_iff.1 he
    have hc := F.careful hl₁
    rcases F.serve hc with ⟨-, hno⟩ | ⟨s₁, l₂, hs₁, hl₂, F₁, -⟩
    · rw [hno] at hl₁
      cases hl₁
    · obtain rfl := Option.some.inj (hl₂.symm.trans hl₁)
      obtain ⟨s', hs', F', hcs⟩ := ih F₁ he
      refine ⟨s', Option.bind_eq_some_iff.2 ⟨s₁, hs₁, hs'⟩, F', ?_⟩
      rw [traceFrom, hs₁, Option.elim_some]
      exact List.forall_mem_cons.2 ⟨hc, hcs⟩

/-! ## The client's arrays -/

/-- What a demand does to the arrays of the client. -/
def Session.event (s : Session) : Demand → Option (Store.Event UInt8)
  | .malloc size =>
    match s.heap.mmMalloc size with
    | some (p, _) => if p = 0 then none else some (.alloc p size)
    | none => none
  | .realloc ptr size =>
    match s.heap.mmRealloc ptr size with
    | some (.ret p _) => if p = 0 then none else some (.move ptr p size)
    | _ => none
  | .free ptr => some (.free ptr)
  | .write p v => some (.write p v)

/-- An allocated block that is left alone keeps the bytes of the request it is held for. -/
theorem Session.Inv.same {bs : List Block} {fl : List Nat} {h' : Heap} (I : s.Inv bs fl)
    (hx : x ∈ s.live) (hs : s.heap.SameBlock h' x.1) : Store.Same s.heap.mem h'.mem x := by
  obtain ⟨b, hb, hbp, hroom⟩ := I.room x hx
  intro i hi
  refine hs.1 _ (Nat.le_add_right _ _) ?_
  rw [← hbp, I.wellFormed.layout.getSize (mem_allocs.1 hb).1]
  omega

/-- **Step lemma.** A demand does to the memory what its event says. -/
theorem Session.Follows.does (F : s.Follows l) (hc : s.Careful d) (hst : s.serve d = some s') :
    Store.Does s.heap.mem s'.heap.mem s.live s'.live (s.event d) := by
  obtain ⟨l', F'⟩ : ∃ l', s'.Follows l' := by
    rcases F.serve hc with ⟨hno, -⟩ | ⟨s'', l', hs, -, F', -⟩
    · rw [hno] at hst
      cases hst
    · cases hst.symm.trans hs
      exact ⟨l', F'⟩
  have hap := F'.inv.holding.apart
  cases d with
  | malloc size =>
    obtain ⟨hlt, hst⟩ := Option.ite_none_right_eq_some.1 hst
    obtain ⟨p, h', hm, hsame⟩ := F.inv.wellFormed.mmMalloc_sameBlock hlt
    have hsame' : ∀ x ∈ s.live, Store.Same s.heap.mem h'.mem x := fun x hx => by
      obtain ⟨b, hb, hbx⟩ := F.inv.mem_live (List.mem_map_of_mem hx)
      exact F.inv.same hx (hbx ▸ hsame b hb)
    rw [hm, Option.map_some, Option.some.injEq] at hst
    by_cases hp : p = 0
    · have he : s.event (.malloc size) = none := by simp only [Session.event, hm, if_pos hp]
      have hs' : s' = ⟨h', s.live⟩ := hst.symm.trans (if_pos hp)
      rw [he, hs']
      exact ⟨rfl, hsame'⟩
    · have he : s.event (.malloc size) = some (.alloc p size) := by
        simp only [Session.event, hm, if_neg hp]
      have hs' : s' = ⟨h', (p, size) :: s.live⟩ := hst.symm.trans (if_neg hp)
      rw [hs'] at hap
      rw [he, hs']
      exact ⟨rfl, fun x hx => ⟨(List.pairwise_cons.1 hap).1 x hx, hsame' x hx⟩⟩
  | realloc ptr size =>
    obtain ⟨⟨hptr, h1, hlt⟩, hst⟩ := Option.ite_none_right_eq_some.1 hst
    have hov := (F.overgrows_iff hptr hlt).not.1 hc
    obtain ⟨x, hx, rfl⟩ := List.mem_map.1 hptr
    cases hl : l.shape.realloc l.brk l.limit x.1 size with
    | damaged => exact absurd hl hov
    | exit =>
      rw [F.realloc_exit hptr h1 hlt hl] at hst
      cases hst
    | ret p brk t =>
      obtain ⟨h', hm, -, hnull, hmv⟩ := F.realloc hx h1 hlt hl
      rw [hm] at hst
      have hs' : s' = ⟨h', regrant s.live x.1 p size⟩ := (Option.some.inj hst).symm
      by_cases hp : p = 0
      · have he : s.event (.realloc x.1 size) = none := by
          simp only [Session.event, hm, if_pos hp]
        rw [he, hs', hnull hp]
        exact ⟨if_pos hp, fun _ _ _ _ => rfl⟩
      · have he : s.event (.realloc x.1 size) = some (.move x.1 p size) := by
          simp only [Session.event, hm, if_neg hp]
        have hlive : regrant s.live x.1 p size = (p, size) :: Store.without x.1 s.live := if_neg hp
        rw [hs', hlive] at hap
        rw [he, hs']
        obtain ⟨hown, hothers⟩ := hmv hp
        refine ⟨hptr, hlive, fun y hy => ⟨(List.pairwise_cons.1 hap).1 y hy, hothers y hy⟩, ?_⟩
        intro n hn i hi
        have hxn : x.2 = n :=
          congrArg Prod.snd (List.inj_on_of_nodup_map F.inv.nodup hx hn rfl)
        exact hown i (hxn ▸ hi)
  | free ptr =>
    obtain ⟨hp, hst⟩ := Option.ite_none_right_eq_some.1 hst
    cases hst
    obtain ⟨b, hb, rfl⟩ := F.inv.mem_live hp
    refine ⟨hp, rfl, fun x hx => ?_⟩
    obtain ⟨hx, hne⟩ := List.mem_filter.1 hx
    obtain ⟨c, hc, hcx⟩ := F.inv.mem_live (List.mem_map_of_mem hx)
    refine F.inv.same hx (hcx ▸ F.inv.wellFormed.mmFree_sameBlock hb c hc fun e => ?_)
    exact of_decide_eq_true hne (hcx.symm.trans e)
  | write p v =>
    obtain ⟨hx, hst⟩ := Option.ite_none_right_eq_some.1 hst
    cases hst
    exact ⟨hx, rfl, rfl⟩

/-! ## Sessions -/

/-- **Heap invariant with reallocation.** In every state that a session of a careful client reaches,
the heap has the four invariants and its allocated blocks are those held; what is held is aligned,
in the heap and apart; and every demand that the client may make, of a size below 2^31, comes back,
a reallocation either to the client or to the exit of the program with the heap unchanged. -/
theorem resizing_sound {h₀ h : Heap} (hstart : h₀.memStartBrk % 8 = 0)
    (haddr : h₀.memMaxAddr < 2 ^ 32) (hi : h₀.memResetBrk.mmInit = (0, h))
    {tr : List (Session × Demand)} (hr : Run Session.serve ⟨h, []⟩ tr s)
    (hc : ∀ x ∈ tr, x.1.Careful x.2) :
    (∃ bs fl, s.heap.Sound bs fl ∧ (s.live.map Prod.fst).Perm ((allocs bs).map Block.bp)) ∧
      (∀ x ∈ s.live, x.1 ≠ 0 ∧ x.1 % 8 = 0 ∧ s.heap.memStartBrk ≤ x.1 ∧
        x.1 + x.2 ≤ s.heap.memBrk) ∧
      s.live.Pairwise Store.Extent.Apart ∧
      (∀ size < 2 ^ 31, (s.serve (.malloc size)).isSome) ∧
      ∀ x ∈ s.live, (s.serve (.free x.1)).isSome ∧
        ∀ size, 1 ≤ size → size < 2 ^ 31 → ¬ s.heap.Overgrows x.1 size →
          (s.serve (.realloc x.1 size)).isSome ∨
            s.heap.mmRealloc x.1 size = some (.exit 1 s.heap) := by
  obtain ⟨-, l, -, F, -⟩ := (Session.follows_init hstart haddr hi).serve_run hr hc
  have I := F.inv
  refine ⟨⟨_, _, I.wellFormed.sound, I.held⟩, fun x hx => I.holding.within hx, I.holding.apart,
    fun size hlt => ?_, fun x hx => ⟨?_, fun size h1 hlt hov => ?_⟩⟩
  · obtain ⟨s', -, -, hs, -⟩ := I.malloc hlt
    exact Option.isSome_iff_exists.2 ⟨s', hs⟩
  · obtain ⟨s', -, -, hs, -⟩ := I.free (List.mem_map_of_mem hx)
    exact Option.isSome_iff_exists.2 ⟨s', hs⟩
  · have hp : x.1 ∈ s.live.map Prod.fst := List.mem_map_of_mem hx
    cases hl : l.shape.realloc l.brk l.limit x.1 size with
    | ret p brk t =>
      obtain ⟨h', hm, -⟩ := F.realloc hx h1 hlt hl
      refine .inl ?_
      rw [Session.serve, if_pos ⟨hp, h1, hlt⟩, hm]
      rfl
    | exit => exact .inr (F.realloc_exit hp h1 hlt hl)
    | damaged => exact absurd ((F.overgrows_iff hp hlt).2 hl) hov

/-- **Answers with reallocation do not depend on the memory.** Two sessions on the same storage,
whatever the memory and the globals held before, whose careful clients make the same demands other
than writes, get the same replies, hold the same requests under the same break, and a careful next
demand is served in both with the same reply or in neither. -/
theorem resizing_fresh {g₁ g₂ h₁ h₂ : Heap} {s₁ s₂ : Session} {tr₁ tr₂ : List (Session × Demand)}
    (hstart : g₁.memStartBrk % 8 = 0) (haddr : g₁.memMaxAddr < 2 ^ 32)
    (hs : g₂.memStartBrk = g₁.memStartBrk) (hm : g₂.memMaxAddr = g₁.memMaxAddr)
    (hi₁ : g₁.memResetBrk.mmInit = (0, h₁)) (hi₂ : g₂.memResetBrk.mmInit = (0, h₂))
    (hr₁ : Run Session.serve ⟨h₁, []⟩ tr₁ s₁) (hr₂ : Run Session.serve ⟨h₂, []⟩ tr₂ s₂)
    (hc₁ : ∀ x ∈ tr₁, x.1.Careful x.2) (hc₂ : ∀ x ∈ tr₂, x.1.Careful x.2)
    (hd : tr₁.filterMap (fun x => x.2.asked) = tr₂.filterMap fun x => x.2.asked) :
    tr₁.filterMap (fun x => x.2.asked.map fun _ => x.1.reply x.2) =
        tr₂.filterMap (fun x => x.2.asked.map fun _ => x.1.reply x.2) ∧
      s₁.live = s₂.live ∧ s₁.heap.memBrk = s₂.heap.memBrk ∧
      ∀ d, s₁.Careful d → s₂.Careful d →
        (s₁.serve d).isSome = (s₂.serve d).isSome ∧
          ((s₁.serve d).isSome → s₁.reply d = s₂.reply d) := by
  have F₂ := Session.follows_init (hs ▸ hstart) (hm ▸ haddr) hi₂
  rw [hs, hm] at F₂
  obtain ⟨t₁, l₁, hl₁, F₁, ha₁, hb₁⟩ := (Session.follows_init hstart haddr hi₁).serve_run hr₁ hc₁
  obtain ⟨t₂, l₂, hl₂, F₂, ha₂, hb₂⟩ := F₂.serve_run hr₂ hc₂
  obtain ⟨rfl, rfl⟩ := hl₁.unique hl₂ (by rw [ha₁, ha₂, hd])
  refine ⟨by rw [← hb₁, ← hb₂], F₁.live.trans F₂.live.symm, F₁.brk.trans F₂.brk.symm,
    fun d hd₁ hd₂ => ?_⟩
  rcases F₁.serve hd₁ with ⟨e₁, hn₁⟩ | ⟨_, _, e₁, hn₁, -, a₁⟩ <;>
  rcases F₂.serve hd₂ with ⟨e₂, hn₂⟩ | ⟨_, _, e₂, hn₂, -, a₂⟩ <;> rw [e₁, e₂]
  · exact ⟨rfl, nofun⟩
  · cases hn₁.symm.trans hn₂
  · cases hn₁.symm.trans hn₂
  · exact ⟨rfl, fun _ => a₁.trans a₂.symm⟩

/-- No demand moves the limit of the storage. -/
theorem Ledger.serve_limit (h : l.serve d = some l') : l'.limit = l.limit := by
  cases d with
  | malloc size =>
    obtain ⟨-, h⟩ := Option.ite_none_right_eq_some.1 h
    cases h
    rfl
  | realloc ptr size =>
    obtain ⟨-, h⟩ := Option.ite_none_right_eq_some.1 h
    cases hr : l.shape.realloc l.brk l.limit ptr size with rw [hr] at h
    | ret p brk t =>
      cases h
      rfl
    | exit | damaged => cases h
  | free ptr =>
    obtain ⟨-, h⟩ := Option.ite_none_right_eq_some.1 h
    cases h
    rfl
  | write p v =>
    obtain ⟨-, h⟩ := Option.ite_none_right_eq_some.1 h
    cases h
    rfl

/-- **Addresses.** On storage placed so that no sum wraps, `mem_sbrk` is that of machine words in
every state that a session of a careful client reaches. -/
theorem session_sbrk {h₀ h : Heap} (hstart : h₀.memStartBrk % 8 = 0) (hp : h₀.Placed)
    (hi : h₀.memResetBrk.mmInit = (0, h)) {tr : List (Session × Demand)}
    (hr : Run Session.serve ⟨h, []⟩ tr s) (hc : ∀ x ∈ tr, x.1.Careful x.2) {incr : Int}
    (hlt : incr < 2 ^ 31) : s.heap.memSbrk incr = s.heap.memSbrkWord incr := by
  have haddr : h₀.memMaxAddr < 2 ^ 32 := by
    unfold Heap.Placed at hp
    omega
  obtain ⟨tr', l, hl, F, -⟩ := (Session.follows_init hstart haddr hi).serve_run hr hc
  have hlimit : l.limit = h₀.memMaxAddr :=
    hl.reachable.invariant (I := fun l => l.limit = h₀.memMaxAddr) rfl
      fun hlim hst => (Ledger.serve_limit hst).trans hlim
  have hplaced : s.heap.Placed := by
    rw [Heap.Placed, F.limit, hlimit]
    exact hp
  exact Heap.memSbrk_eq_word hplaced F.inv.wellFormed.layout.inBounds hlt

/-- **A store of arrays.** The session of a careful client runs as a store does: the arrays created,
moved, written to and given back are those of its demands, no two share an address, and every byte
that was written is found in its array until that goes. `memcpy` is taken as `memmove`: the copies
of `mm_realloc` may overlap. -/
theorem session_stores {h₀ h : Heap} (hstart : h₀.memStartBrk % 8 = 0)
    (haddr : h₀.memMaxAddr < 2 ^ 32) (hi : h₀.memResetBrk.mmInit = (0, h))
    {tr : List (Session × Demand)} (hr : Run Session.serve ⟨h, []⟩ tr s)
    (hc : ∀ x ∈ tr, x.1.Careful x.2) :
    ∃ tr' st, Run Store.step [] tr' st ∧
      tr'.map Prod.snd = tr.filterMap (fun x => x.1.event x.2) ∧
      st.map Store.Cells.extent = s.live ∧ Store.Holds s.heap.mem st ∧
      st.Pairwise fun c d => c.extent.Apart d.extent := by
  have hrun : ∃ tr' st, Run Store.step [] tr' st ∧ st.map Store.Cells.extent = s.live ∧
      Store.Holds s.heap.mem st ∧
      tr'.map Prod.snd = tr.filterMap fun x => x.1.event x.2 := by
    refine hr.stores (m := fun s => s.heap.mem) (x := Session.live) (e := Session.event)
      (I := fun s => ∃ l, s.Follows l) (C := Session.Careful) rfl
      ⟨_, Session.follows_init hstart haddr hi⟩ ?_ hc
    rintro s d s' ⟨l, F⟩ hc hst
    refine ⟨?_, F.does hc hst⟩
    rcases F.serve hc with ⟨hno, -⟩ | ⟨s'', l', hs, -, F', -⟩
    · rw [hno] at hst
      cases hst
    · cases hst.symm.trans hs
      exact ⟨l', F'⟩
  obtain ⟨tr', st, hr', hx, hh, ha⟩ := hrun
  exact ⟨tr', st, hr', ha, hx, hh, Store.apart_of_reachable hr'.reachable⟩

end

/-- A block of 100 bytes is written to and outgrows its place, so it moves; then the one after it
moves to where it was. -/
def resizingDemands : List Demand :=
  [.malloc 100, .malloc 40, .write 24 7, .realloc 24 5000, .realloc 136 120]

/-- On zeroed storage at address 8, or on what an earlier client has left there, a careful client
makes these demands. -/
theorem resizing_run {g : Heap} (hs : g.memStartBrk = 8) (hm : g.memMaxAddr = 8 + maxHeap) :
    ∃ h s, g.memResetBrk.mmInit = (0, h) ∧ Run Session.serve ⟨h, []⟩
        (traceFrom Session.serve ⟨h, []⟩ resizingDemands) s ∧
      (traceFrom Session.serve ⟨h, []⟩ resizingDemands).map Prod.snd = resizingDemands ∧
      (∀ x ∈ traceFrom Session.serve ⟨h, []⟩ resizingDemands, x.1.Careful x.2) ∧
      s.live = [(24, 120), (184, 5000)] := by
  obtain ⟨l, hl, hlive⟩ : ∃ l, exec Ledger.serve (.init 8 (8 + maxHeap)) resizingDemands = some l ∧
      l.live = [(24, 120), (184, 5000)] := ⟨_, rfl, by decide +kernel⟩
  have haddr : g.memMaxAddr < 2 ^ 32 := by
    rw [hm]
    decide
  have hstart : g.memStartBrk % 8 = 0 := by rw [hs]
  obtain ⟨h, hi⟩ := Heap.mmInit_succeeds (h := g.memResetBrk) hstart rfl haddr
    (show g.memStartBrk ≠ 0 by rw [hs]; decide)
    (show g.memStartBrk + 4112 ≤ g.memMaxAddr by rw [hs, hm]; decide)
  have F := Session.follows_init hstart haddr hi
  rw [hs, hm] at F
  obtain ⟨s, he, F', hc⟩ := Session.serve_exec F hl
  refine ⟨h, s, hi, ?_, traceFrom_actions he, hc, F'.live.trans hlive⟩
  simpa using Run.start.exec he

/-- The heap has its invariants after these demands. -/
theorem resizing_sound_moved : ∃ (h : Heap) (s : Session),
    (memInit (fun _ => 0) 8).memResetBrk.mmInit = (0, h) ∧ s.live = [(24, 120), (184, 5000)] ∧
    ∃ bs fl, s.heap.Sound bs fl := by
  obtain ⟨h, s, hi, hr, -, hc, hlive⟩ := resizing_run (g := memInit (fun _ => 0) 8) rfl rfl
  obtain ⟨⟨bs, fl, hsound, -⟩, -⟩ := resizing_sound rfl (by decide) hi hr hc
  exact ⟨h, s, hi, hlive, bs, fl, hsound⟩

/-- The calls a run was asked for are those of its demands. -/
theorem asked_eq {tr : List (Session × Demand)} {ds : List Demand} (hd : tr.map Prod.snd = ds) :
    tr.filterMap (fun x => x.2.asked) = ds.filterMap Demand.asked := by
  rw [← hd, List.filterMap_map]
  rfl

/-- On zeroed storage and on what an earlier client has left, the replies are the same. -/
theorem resizing_fresh_leftover : ∃ h₁ h₂ s₁ s₂ tr₁ tr₂,
    (memInit (fun _ => 0) 8).memResetBrk.mmInit = (0, h₁) ∧ leftover.memResetBrk.mmInit = (0, h₂) ∧
    Run Session.serve ⟨h₁, []⟩ tr₁ s₁ ∧ Run Session.serve ⟨h₂, []⟩ tr₂ s₂ ∧
    tr₁.map Prod.snd = resizingDemands ∧ tr₂.map Prod.snd = resizingDemands ∧
    tr₁.filterMap (fun x => x.2.asked.map fun _ => x.1.reply x.2) =
      tr₂.filterMap fun x => x.2.asked.map fun _ => x.1.reply x.2 := by
  have hstart : (memInit (fun _ => 0) 8).memStartBrk % 8 = 0 := rfl
  have haddr : (memInit (fun _ => 0) 8).memMaxAddr < 2 ^ 32 := by decide
  have hs : leftover.memStartBrk = (memInit (fun _ => 0) 8).memStartBrk := rfl
  have hm : leftover.memMaxAddr = (memInit (fun _ => 0) 8).memMaxAddr := rfl
  obtain ⟨h₁, s₁, hi₁, hr₁, hd₁, hc₁, -⟩ := resizing_run (g := memInit (fun _ => 0) 8) rfl rfl
  obtain ⟨h₂, s₂, hi₂, hr₂, hd₂, hc₂, -⟩ := resizing_run hs hm
  have hreplies := (resizing_fresh hstart haddr hs hm hi₁ hi₂ hr₁ hr₂ hc₁ hc₂
    ((asked_eq hd₁).trans (asked_eq hd₂).symm)).1
  exact ⟨h₁, h₂, s₁, s₂, _, _, hi₁, hi₂, hr₁, hr₂, hd₁, hd₂, hreplies⟩

/-- The two arrays left are where the replies say. -/
theorem session_stores_moved : ∃ h s tr st, (memInit (fun _ => 0) 8).memResetBrk.mmInit = (0, h) ∧
    Run Session.serve ⟨h, []⟩ tr s ∧ tr.map Prod.snd = resizingDemands ∧
    st.map Store.Cells.extent = [(24, 120), (184, 5000)] ∧ Store.Holds s.heap.mem st := by
  obtain ⟨h, s, hi, hr, hd, hc, hlive⟩ := resizing_run (g := memInit (fun _ => 0) 8) rfl rfl
  obtain ⟨-, st, -, -, hx, hh, -⟩ := session_stores rfl (by decide) hi hr hc
  exact ⟨h, s, _, st, hi, hr, hd, hx.trans hlive, hh⟩

end Malloc
