import Styrikerfi.Malloc.Allocate
import Styrikerfi.Lib.Run

/-!
# Sessions of a client

A session is what a client of the allocator can do after `mm_init`: allocate any size the driver can
ask for, free a block it holds, and write to the payload of a block it holds. `Session.Inv` holds in
every state a session reaches: the heap is well formed, and its allocated blocks are the ones the
client holds. `Heap.Sound` says what that means in the terms of the source, where the blocks are
found by following headers and the free list by following `next`.
-/

namespace Malloc

open Machine32 Tiling LinkedList

/-! ## The heap as the source reads it -/

/-- The block the header of `bp` describes. -/
def Heap.blockAt (h : Heap) (bp : Nat) : Block :=
  ⟨bp, h.getSize (hdrp bp), decide (h.getAlloc (hdrp bp) ≠ 0)⟩

/-- Following header sizes from `bp`, the blocks met are `bs`, and the walk ends at `e`, where the
header has size 0. -/
def Heap.Walk (h : Heap) : Nat → List Block → Nat → Prop
  | bp, [], e => bp = e ∧ h.getSize (hdrp bp) = 0
  | bp, b :: bs, e => b = h.blockAt bp ∧ b.size ≠ 0 ∧ h.Walk (h.nextBlkp bp) bs e

/-- The four invariants of the heap. -/
structure Heap.Sound (h : Heap) (bs : List Block) (fl : List Nat) : Prop where
  /-- the blocks lead from the prologue to the epilogue header at the break -/
  walk : h.Walk h.heapListp (h.prologue :: bs) h.memBrk
  epilogue : h.get (hdrp h.memBrk) = pack 0 1
  /-- every block is aligned, large enough and has equal header and footer -/
  user : ∀ b ∈ bs, b.bp % 8 = 0 ∧ b.size % 8 = 0 ∧ 16 ≤ b.size ∧
    h.get (hdrp b.bp) = h.get (h.ftrp b.bp)
  /-- no two adjacent blocks are free -/
  merged : Merged bs
  /-- from `free_listp`, `next` visits `fl` and ends at `NULL`, and `prev` mirrors it -/
  links : Linked 0 h.next h.prev h.freeListp fl
  /-- the list holds every free block once and nothing else -/
  nodup : fl.Nodup
  exact : ∀ p, p ∈ fl ↔ ∃ b ∈ bs, b.bp = p ∧ b.alloc = false

section
variable {h h' : Heap} {bs : List Block} {b : Block} {fl : List Nat}

/-- The tags of a block say what it is. -/
theorem Heap.Layout.blockAt (hl : h.Layout bs) (hb : b ∈ bs) : h.blockAt b.bp = b := by
  rw [Heap.blockAt, hl.getSize hb, hl.getAlloc hb]
  cases hb : b.alloc <;> cases b <;> simp_all

/-- Blocks that tile the heap up to the break are a walk along the tags. -/
theorem Heap.Layout.walk_of_tiles {l : List Block} {a : Nat} (hl : h.Layout bs)
    (ht : Tiles Block.bp Block.size a l h.memBrk) (hsub : ∀ b ∈ l, b ∈ bs) :
    h.Walk a l h.memBrk := by
  induction l generalizing a with
  | nil =>
    refine ⟨ht, ?_⟩
    have he : a = h.memBrk := ht
    have := hl.le_brk
    rw [he]
    exact Heap.getSize_of_header (b := h.epilogue) hl.epilogue rfl (by omega)
  | cons b l ih =>
    obtain ⟨rfl, ht⟩ := ht
    have hb := hsub b List.mem_cons_self
    have := (hl.bounds hb).size
    refine ⟨(hl.blockAt hb).symm, by omega, ?_⟩
    rw [hl.nextBlkp hb]
    exact ih ht fun c hc => hsub c (List.mem_cons_of_mem _ hc)

/-- The prologue is found at `heap_listp`, and the first block after it. -/
theorem Heap.Layout.prologue_at (hl : h.Layout bs) :
    h.blockAt h.heapListp = h.prologue ∧ h.nextBlkp h.heapListp = h.heapListp + 8 := by
  have hw : h.get (h.heapListp - 4) = h.prologue.word := hl.prologue.header
  have hm : h.prologue.size % 8 = 0 := Nat.mod_self 8
  have hlp := hl.listp
  have hle := hl.le_brk
  have hbrk := hl.brk_lt
  constructor
  · rw [Heap.blockAt, Heap.getSize_of_header hw hm (by omega),
      Heap.getAlloc_of_header hw hm (by omega)]
    rfl
  · exact Heap.nextBlkp_of_header hw hm (by omega) (show h.heapListp + 8 < 2 ^ 32 by omega)

/-- The blocks are walked from the prologue to the break. -/
theorem Heap.Layout.walk (hl : h.Layout bs) :
    h.Walk h.heapListp (h.prologue :: bs) h.memBrk := by
  refine ⟨hl.prologue_at.1.symm, Nat.succ_ne_zero 7, ?_⟩
  rw [hl.prologue_at.2]
  exact hl.walk_of_tiles hl.tiles fun _ hb => hb

/-- Every block is aligned, large enough and has equal header and footer. -/
theorem Heap.Layout.user (hl : h.Layout bs) (hb : b ∈ bs) : b.bp % 8 = 0 ∧ b.size % 8 = 0 ∧
    16 ≤ b.size ∧ h.get (hdrp b.bp) = h.get (h.ftrp b.bp) := by
  refine ⟨hl.bp_mod.1 b hb, (hl.sizes b hb).1, (hl.sizes b hb).2, ?_⟩
  rw [hl.ftrp hb, hdrp_eq (by have := (hl.bounds hb).lo; omega), (hl.tags b hb).header,
    (hl.tags b hb).footer]

/-- A well-formed heap has the four invariants. -/
theorem Heap.WellFormed.sound (H : h.WellFormed bs fl) : h.Sound bs fl := by
  have hl := H.layout
  have hlp := hl.listp
  have hle := hl.le_brk
  refine
    { walk := hl.walk
      epilogue := ?_
      user := fun b hb => hl.user hb
      merged := H.merged
      links := H.links
      nodup := Linked.nodup H.links
      exact := fun p => ?_ }
  · rw [hdrp_eq (by omega)]
    exact hl.epilogue
  · rw [H.listed.mem_iff, mem_freeBps]
    constructor
    · rintro ⟨c, hc, ha, he⟩; exact ⟨c, hc, he, ha⟩
    · rintro ⟨c, hc, he, ha⟩; exact ⟨c, hc, ha, he⟩

end

/-! ## Sessions -/

/-- The heap, and the pointers the client holds with the sizes it asked for. -/
structure Session where
  heap : Heap
  live : List (Nat × Nat)

/-- What a client does. The driver reads sizes as `int`. -/
inductive Request where
  | malloc (size : Nat)
  | free (bp : Nat)
  | write (p : Nat) (v : UInt8)

/-- One request, if the client may make it and it returns. -/
def Session.step (s : Session) : Request → Option Session
  | .malloc size =>
    if size < 2 ^ 31 then
      (s.heap.mmMalloc size).map fun (p, h) =>
        if p = 0 then { s with heap := h } else ⟨h, (p, size) :: s.live⟩
    else none
  | .free bp =>
    if bp ∈ s.live.map Prod.fst then
      some ⟨s.heap.mmFree bp, s.live.filter fun x => decide (x.1 ≠ bp)⟩
    else none
  | .write p v =>
    if ∃ x ∈ s.live, x.1 ≤ p ∧ p < x.1 + x.2 then
      some { s with heap := { s.heap with mem := Function.update s.heap.mem p v } }
    else none

/-- The heap is well formed, and its allocated blocks are the ones the client holds, each with room
for what was asked for. -/
structure Session.Inv (s : Session) (bs : List Block) (fl : List Nat) : Prop where
  wellFormed : s.heap.WellFormed bs fl
  held : (s.live.map Prod.fst).Perm ((allocs bs).map Block.bp)
  room : ∀ x ∈ s.live, ∃ b ∈ allocs bs, b.bp = x.1 ∧ x.2 + 8 ≤ b.size

/-- The blocks tile the heap, and the allocated ones are those that `live` lists, each with room for
what was asked for. -/
structure Heap.Holding (h : Heap) (bs : List Block) (live : List (Nat × Nat)) : Prop where
  layout : h.Layout bs
  held : (live.map Prod.fst).Perm ((allocs bs).map Block.bp)
  room : ∀ x ∈ live, ∃ b ∈ allocs bs, b.bp = x.1 ∧ x.2 + 8 ≤ b.size

/-- Between two requests the live blocks are held. -/
theorem Session.Inv.holding {s : Session} {bs : List Block} {fl : List Nat} (I : s.Inv bs fl) :
    s.heap.Holding bs s.live := ⟨I.wellFormed.layout, I.held, I.room⟩

/-! ## What is held -/

namespace Heap.Holding

variable {h h' : Heap} {bs bs' cs pre post : List Block} {a b : Block} {live : List (Nat × Nat)}
  {bp p size : Nat}

/-- A live request has an allocated block. -/
theorem mem_live (H : h.Holding bs live) (hp : p ∈ live.map Prod.fst) :
    ∃ b ∈ allocs bs, b.bp = p := List.mem_map.1 (H.held.mem_iff.1 hp)

/-- The pointers of the live requests are distinct. -/
theorem nodup (H : h.Holding bs live) : (live.map Prod.fst).Nodup := by
  refine H.held.nodup_iff.2 ?_
  have hn : (bs.map Block.bp).Nodup := H.layout.tiles.nodup fun b hb => by
    have := (H.layout.sizes b hb).2
    omega
  exact hn.sublist (List.filter_sublist.map Block.bp)

/-- A held block splits the list of blocks. -/
theorem split (H : h.Holding bs live) (hbp : bp ∈ live.map Prod.fst) :
    ∃ pre b post, bs = pre ++ b :: post ∧ b.bp = bp ∧ b.alloc = true := by
  obtain ⟨b, hb, rfl⟩ := H.mem_live hbp
  obtain ⟨hb, ha⟩ := mem_allocs.1 hb
  obtain ⟨pre, post, rfl⟩ := List.append_of_mem hb
  exact ⟨pre, b, post, rfl, rfl, ha⟩

/-- Without a held block the client holds the other allocated blocks. -/
theorem release (H : h.Holding (pre ++ b :: post) live) (ha : b.alloc = true) :
    ((live.filter fun x => decide (x.1 ≠ b.bp)).map Prod.fst).Perm
        ((allocs pre ++ allocs post).map Block.bp) ∧
      ∀ x ∈ live.filter fun x => decide (x.1 ≠ b.bp),
        ∃ c ∈ allocs pre ++ allocs post, c.bp = x.1 ∧ x.2 + 8 ≤ c.size := by
  -- no other block starts where `b` does
  have hne : ∀ c ∈ allocs pre ++ allocs post, c.bp ≠ b.bp := by
    intro c hc he
    rw [← allocs_append, mem_allocs] at hc
    have := H.layout.tiles.apart c hc.1
    have := (H.layout.bounds (mem_insert_middle (b := b) hc.1)).size
    have := (H.layout.bounds (b := b) (by simp)).size
    omega
  refine ⟨?_, fun x hx => ?_⟩
  · have hp := H.held.filter fun x => decide (x ≠ b.bp)
    rw [List.filter_map, allocs_append, allocs_cons_alloc ha] at hp
    refine hp.trans (.of_eq ?_)
    rw [List.map_append, List.map_cons, List.filter_append, List.filter_cons_of_neg (by simp),
      ← List.filter_append, ← List.map_append]
    refine List.filter_eq_self.2 fun x hx => ?_
    obtain ⟨c, hc, rfl⟩ := List.mem_map.1 hx
    exact decide_eq_true (hne c hc)
  · obtain ⟨hx, hxb⟩ := List.mem_filter.1 hx
    obtain ⟨c, hc, he, hr⟩ := H.room x hx
    exact ⟨c, mem_allocs_of_ne ha hc fun e => of_decide_eq_true hxb (he.symm.trans e), he, hr⟩

/-- A new block is held beside those there were. -/
theorem grant (hl : h'.Layout bs') (hadd : (allocs bs').Perm (a :: cs))
    (hsize : size + 8 ≤ a.size) (hheld : (live.map Prod.fst).Perm (cs.map Block.bp))
    (hroom : ∀ x ∈ live, ∃ b ∈ cs, b.bp = x.1 ∧ x.2 + 8 ≤ b.size) :
    h'.Holding bs' ((a.bp, size) :: live) := by
  refine ⟨hl, (hheld.cons a.bp).trans (hadd.map Block.bp).symm, List.forall_mem_cons.2 ⟨?_, ?_⟩⟩
  · exact ⟨a, hadd.mem_iff.2 List.mem_cons_self, rfl, hsize⟩
  · intro x hx
    obtain ⟨b, hb, hr⟩ := hroom x hx
    exact ⟨b, hadd.mem_iff.2 (List.mem_cons_of_mem _ hb), hr⟩

end Heap.Holding

section
variable {s s' : Session} {bs : List Block} {fl : List Nat} {size bp p : Nat} {v : UInt8}

/-- A session begins with `mm_init` on an empty heap. -/
theorem Session.inv_init {h₀ h : Heap} (hstart : h₀.memStartBrk % 8 = 0)
    (haddr : h₀.memMaxAddr < 2 ^ 32) (hi : h₀.memResetBrk.mmInit = (0, h)) :
    ∃ bs fl, Session.Inv ⟨h, []⟩ bs fl := by
  obtain ⟨bs, fl, hwf, hall⟩ := Heap.mmInit_wellFormed (h := h₀.memResetBrk) hstart rfl haddr hi
  exact ⟨bs, fl, hwf, by rw [hall]; rfl, by simp⟩

/-- Every allocation is served, with a new block or with `NULL`. -/
theorem Session.Inv.malloc (I : s.Inv bs fl) (hlt : size < 2 ^ 31) :
    ∃ s' bs' fl', s.step (.malloc size) = some s' ∧ s'.Inv bs' fl' := by
  rcases I.wellFormed.mmMalloc (show size + 15 < 2 ^ 32 by omega) with
    hnull | ⟨a, h', bs', fl', hp, hp0, A⟩
  · refine ⟨s, bs, fl, ?_, I⟩
    rw [Session.step, if_pos hlt, hnull]
    rfl
  · refine ⟨⟨h', (a.bp, size) :: s.live⟩, bs', fl', ?_, A.wellFormed, ?_, ?_⟩
    · rw [Session.step, if_pos hlt, hp, Option.map_some]
      exact congrArg some (if_neg hp0)
    · have := A.added.map Block.bp
      exact (I.held.cons a.bp).trans this.symm
    · intro x hx
      rcases List.mem_cons.1 hx with rfl | hx
      · exact ⟨a, A.added.mem_iff.2 List.mem_cons_self, rfl, A.size⟩
      · obtain ⟨b, hb, hr⟩ := I.room x hx
        exact ⟨b, A.added.mem_iff.2 (List.mem_cons_of_mem _ hb), hr⟩

/-- A live request has an allocated block. -/
theorem Session.Inv.mem_live (I : s.Inv bs fl) (hp : p ∈ s.live.map Prod.fst) :
    ∃ b ∈ allocs bs, b.bp = p := I.holding.mem_live hp

/-- The pointers of the live requests are distinct. -/
theorem Session.Inv.nodup (I : s.Inv bs fl) : (s.live.map Prod.fst).Nodup := I.holding.nodup

/-- Without a held block the client holds the other allocated blocks. -/
theorem Session.Inv.release {pre post : List Block} {b : Block} (I : s.Inv (pre ++ b :: post) fl)
    (ha : b.alloc = true) :
    ((s.live.filter fun x => decide (x.1 ≠ b.bp)).map Prod.fst).Perm
        ((allocs pre ++ allocs post).map Block.bp) ∧
      ∀ x ∈ s.live.filter fun x => decide (x.1 ≠ b.bp),
        ∃ c ∈ allocs pre ++ allocs post, c.bp = x.1 ∧ x.2 + 8 ≤ c.size := I.holding.release ha

/-- A `mm_free` of a live block keeps the invariant. -/
theorem Session.Inv.free (I : s.Inv bs fl) (hbp : bp ∈ s.live.map Prod.fst) :
    ∃ s' bs' fl', s.step (.free bp) = some s' ∧ s'.Inv bs' fl' := by
  obtain ⟨pre, b, post, rfl, rfl, ha⟩ := I.holding.split hbp
  obtain ⟨hwf, hall, -⟩ := I.wellFormed.mmFree ha
  obtain ⟨hheld, hroom⟩ := I.release ha
  exact ⟨_, _, _, if_pos hbp, hwf, hall ▸ hheld, hall ▸ hroom⟩

/-- A write of a client keeps the invariant. -/
theorem Session.Inv.write (I : s.Inv bs fl) (hw : s.step (.write p v) = some s') :
    s'.Inv bs fl := by
  rw [Session.step] at hw
  split at hw
  · next hx =>
    cases hw
    obtain ⟨x, hx, h1, h2⟩ := hx
    obtain ⟨b, hb, he, hr⟩ := I.room x hx
    obtain ⟨hb, ha⟩ := mem_allocs.1 hb
    refine ⟨I.wellFormed.of_payload hb ha ⟨rfl, rfl, rfl, rfl, rfl⟩ rfl fun q hq => ?_, I.held,
      I.room⟩
    have hqp : q ≠ p := by omega
    exact Function.update_of_ne hqp v s.heap.mem
  · cases hw

/-- Every request keeps the invariant. -/
theorem Session.Inv.step {r : Request} (I : ∃ bs fl, s.Inv bs fl) (hst : s.step r = some s') :
    ∃ bs fl, s'.Inv bs fl := by
  obtain ⟨bs, fl, I⟩ := I
  cases r with
  | malloc size =>
    by_cases hlt : size < 2 ^ 31
    · obtain ⟨s'', bs', fl', hs, I'⟩ := I.malloc hlt
      cases hs.symm.trans hst
      exact ⟨bs', fl', I'⟩
    · rw [Session.step, if_neg hlt] at hst; cases hst
  | free bp =>
    by_cases hbp : bp ∈ s.live.map Prod.fst
    · obtain ⟨s'', bs', fl', hs, I'⟩ := I.free hbp
      cases hs.symm.trans hst
      exact ⟨bs', fl', I'⟩
    · rw [Session.step, if_neg hbp] at hst; cases hst
  | write p v => exact ⟨bs, fl, I.write hst⟩

/-- **Heap invariant.** In every state a session reaches the heap has the four invariants, and every
allocation and every free of a held block returns. -/
theorem session_sound {h₀ h : Heap} (hstart : h₀.memStartBrk % 8 = 0)
    (haddr : h₀.memMaxAddr < 2 ^ 32) (hi : h₀.memResetBrk.mmInit = (0, h))
    (hr : Reachable Session.step ⟨h, []⟩ s) :
    (∃ bs fl, s.heap.Sound bs fl) ∧
      (∀ size < 2 ^ 31, (s.step (.malloc size)).isSome) ∧
      ∀ x ∈ s.live, (s.step (.free x.1)).isSome := by
  obtain ⟨bs, fl, I⟩ := hr.invariant (I := fun s => ∃ bs fl, s.Inv bs fl)
    (Session.inv_init hstart haddr hi) Session.Inv.step
  refine ⟨⟨bs, fl, I.wellFormed.sound⟩, fun size hlt => ?_, fun x hx => ?_⟩
  · obtain ⟨s', -, -, hs, -⟩ := I.malloc hlt
    rw [hs]; rfl
  · obtain ⟨s', -, -, hs, -⟩ := I.free (List.mem_map_of_mem hx)
    rw [hs]; rfl

end

/-- `mm_init` succeeds after `mem_init` on zeroed storage at address 8. -/
theorem memInit_zero : ∃ h, (memInit (fun _ => 0) 8).memResetBrk.mmInit = (0, h) :=
  Heap.mmInit_succeeds rfl rfl (by decide) (by decide) (by decide)

/-- After `mem_init` and `mm_init` on zeroed storage at address 8, the heap has the four invariants
when 100 bytes have been allocated. -/
theorem session_sound_malloc : ∃ h s, (memInit (fun _ => 0) 8).memResetBrk.mmInit = (0, h) ∧
    Session.step ⟨h, []⟩ (.malloc 100) = some s ∧ ∃ bs fl, s.heap.Sound bs fl := by
  have hstart : (memInit (fun _ => 0) 8).memStartBrk % 8 = 0 := rfl
  have haddr : (memInit (fun _ => 0) 8).memMaxAddr < 2 ^ 32 := by decide
  obtain ⟨h, hi⟩ := memInit_zero
  obtain ⟨s, hs⟩ := Option.isSome_iff_exists.1
    ((session_sound hstart haddr hi .start).2.1 100 (by decide))
  exact ⟨h, s, hi, hs, (session_sound hstart haddr hi (Reachable.start.next hs)).1⟩

end Malloc
