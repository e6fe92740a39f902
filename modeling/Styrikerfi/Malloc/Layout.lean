import Styrikerfi.Malloc.Mm
import Styrikerfi.Lib.Linked
import Styrikerfi.Lib.Tiling

/-!
# Well-formed heaps

The abstract heap is a list of blocks in address order and the free list as a list of block
pointers. `Heap.Layout h bs`: the blocks `bs` tile the heap from the prologue to the epilogue at the
break, each under a matching header and footer. `Heap.Links h fl`: from `free_listp` the link words
visit `fl`. `Heap.WellFormed h bs fl` puts the two together: no two adjacent blocks are free, and
`fl` lists exactly the free blocks.

The macros of `mm.c` read a layout through `Layout.header` and its neighbours: `Heap.before` and
`Heap.after` are the blocks on either side of a place in the list, the prologue and the epilogue
standing in at the ends.
-/

namespace Malloc

open Machine32 Tiling LinkedList

/-- A block: its payload pointer, its size and its allocated bit. -/
structure Block where
  bp : Nat
  size : Nat
  alloc : Bool
  deriving DecidableEq

/-- The word in the header and the footer of a block. -/
def Block.word (b : Block) : Nat := pack b.size b.alloc.toNat

/-- The block pointers of the free blocks, in address order. -/
def freeBps (bs : List Block) : List Nat := (bs.filter fun b => !b.alloc).map Block.bp

/-- The block has its word in its header and in its footer. -/
structure Heap.Tagged (h : Heap) (b : Block) : Prop where
  header : h.get (b.bp - 4) = b.word
  footer : h.get (b.bp + b.size - 8) = b.word

/-- The prologue block. -/
def Heap.prologue (h : Heap) : Block := ⟨h.heapListp, 8, true⟩

/-- The epilogue block, of which only the header exists. -/
def Heap.epilogue (h : Heap) : Block := ⟨h.memBrk, 0, true⟩

/-- The blocks `bs` tile the heap from the prologue to the epilogue, under matching tags. -/
structure Heap.Layout (h : Heap) (bs : List Block) : Prop where
  aligned : h.memStartBrk % 8 = 0
  inBounds : h.memBrk ≤ h.memMaxAddr
  addressable : h.memMaxAddr < 2 ^ 32
  listp : h.heapListp = h.memStartBrk + 8
  prologue : h.Tagged h.prologue
  tiles : Tiles Block.bp Block.size (h.heapListp + 8) bs h.memBrk
  sizes : ∀ b ∈ bs, b.size % 8 = 0 ∧ 16 ≤ b.size
  tags : ∀ b ∈ bs, h.Tagged b
  epilogue : h.get (h.memBrk - 4) = h.epilogue.word

/-- No two adjacent blocks are free. -/
def Merged (bs : List Block) : Prop := bs.IsChain fun b c => b.alloc = true ∨ c.alloc = true

/-- From `free_listp` the link words visit `fl`. -/
def Heap.Links (h : Heap) (fl : List Nat) : Prop := Linked 0 h.next h.prev h.freeListp fl

/-- The blocks tile the heap, none of them are free neighbours, and the free list holds exactly the
free blocks. -/
structure Heap.WellFormed (h : Heap) (bs : List Block) (fl : List Nat) : Prop where
  layout : h.Layout bs
  merged : Merged bs
  links : h.Links fl
  listed : fl.Perm (freeBps bs)

/-! ## Words -/

/-- A packed word is a sum. -/
theorem pack_eq {size alloc : Nat} (hs : size % 8 = 0) (ha : alloc < 8) :
    pack size alloc = size + alloc := by
  have hs' : size = 2 ^ 3 * (size / 8) := by omega
  rw [pack, hs', Nat.two_pow_add_eq_or_of_lt (i := 3) (by omega)]

/-- The word of a tag is a sum. -/
theorem Block.word_eq {b : Block} (hs : b.size % 8 = 0) : b.word = b.size + b.alloc.toNat :=
  pack_eq hs (by cases b.alloc <;> decide)

/-- The allocated bit is a bit. -/
theorem Block.toNat_alloc_lt (b : Block) : b.alloc.toNat < 2 := by cases b.alloc <;> decide

/-- The size and the allocated bit are read back from a block's word. -/
theorem Block.word_size {b : Block} (hs : b.size % 8 = 0) : b.word / 8 * 8 = b.size := by
  have := b.toNat_alloc_lt
  rw [b.word_eq hs]; omega

/-- The allocated bit of a tag is its parity. -/
theorem Block.word_alloc {b : Block} (hs : b.size % 8 = 0) : b.word % 2 = b.alloc.toNat := by
  have := b.toNat_alloc_lt
  rw [b.word_eq hs]; omega

/-! ## Reading and writing the memory -/

section
variable {h h' : Heap} {p q v : Nat}

/-- A word is read back. -/
theorem Heap.get_put (h : Heap) (p : Nat) (hv : v < 2 ^ 32) : (h.put p v).get p = v := by
  rw [Heap.get, Heap.put, load_store, Nat.mod_eq_of_lt hv]

/-- A word apart from the one written is as it was. -/
theorem Heap.get_put_of_sep (hs : q + 4 ≤ p ∨ p + 4 ≤ q) : (h.put p v).get q = h.get q :=
  load_store_of_sep hs

/-- A byte apart from the word written is as it was. -/
theorem Heap.mem_put_of_sep (hs : q < p ∨ p + 4 ≤ q) : (h.put p v).mem q = h.mem q :=
  store_of_sep hs

/-- A word is determined by its four bytes. -/
theorem Heap.get_congr (hm : ∀ x, p ≤ x → x < p + 4 → h'.mem x = h.mem x) :
    h'.get p = h.get p := load_congr hm

@[simp] theorem Heap.put_memStartBrk : (h.put p v).memStartBrk = h.memStartBrk := rfl
@[simp] theorem Heap.put_memBrk : (h.put p v).memBrk = h.memBrk := rfl
@[simp] theorem Heap.put_memMaxAddr : (h.put p v).memMaxAddr = h.memMaxAddr := rfl
@[simp] theorem Heap.put_heapListp : (h.put p v).heapListp = h.heapListp := rfl
@[simp] theorem Heap.put_freeListp : (h.put p v).freeListp = h.freeListp := rfl
@[simp] theorem Heap.put_libcFreed : (h.put p v).libcFreed = h.libcFreed := rfl

@[simp] theorem Heap.setFreeListp_freeListp : (h.setFreeListp v).freeListp = v := rfl
@[simp] theorem Heap.setFreeListp_get : (h.setFreeListp v).get p = h.get p := rfl
@[simp] theorem Heap.setFreeListp_mem : (h.setFreeListp v).mem = h.mem := rfl

/-- The two heaps have the same variables of `memlib.c` and the same block list start. -/
structure Heap.SameFrame (h h' : Heap) : Prop where
  memStartBrk : h'.memStartBrk = h.memStartBrk
  memBrk : h'.memBrk = h.memBrk
  memMaxAddr : h'.memMaxAddr = h.memMaxAddr
  heapListp : h'.heapListp = h.heapListp
  libcFreed : h'.libcFreed = h.libcFreed

/-- Every heap has its own frame. -/
theorem Heap.SameFrame.refl (h : Heap) : h.SameFrame h := ⟨rfl, rfl, rfl, rfl, rfl⟩

/-- Frames go through several changes. -/
theorem Heap.SameFrame.trans {h₁ h₂ h₃ : Heap} (a : h₁.SameFrame h₂) (b : h₂.SameFrame h₃) :
    h₁.SameFrame h₃ :=
  ⟨b.1.trans a.1, b.2.trans a.2, b.3.trans a.3, b.4.trans a.4, b.5.trans a.5⟩

/-- A new `free_listp` leaves the frame. -/
theorem Heap.SameFrame.setFreeListp (h : Heap) (v : Nat) : h.SameFrame (h.setFreeListp v) :=
  ⟨rfl, rfl, rfl, rfl, rfl⟩

/-- A word written leaves the frame. -/
theorem Heap.SameFrame.put (h : Heap) (p v : Nat) : h.SameFrame (h.put p v) :=
  ⟨rfl, rfl, rfl, rfl, rfl⟩

end

/-! ## Blocks of a layout -/

section
variable {h h' : Heap} {bs pre post : List Block} {b c : Block}

/-- The header is the word before the payload. -/
theorem hdrp_eq {bp : Nat} (h4 : 4 ≤ bp) : hdrp bp = bp - 4 := wsub_of_le h4

/-! The macros, from the tag word each of them reads. -/

/-- The size is read from the header. -/
theorem Heap.getSize_of_header {bp : Nat} (hw : h.get (bp - 4) = b.word) (hm : b.size % 8 = 0)
    (h4 : 4 ≤ bp) : h.getSize (hdrp bp) = b.size := by
  rw [hdrp_eq h4, Heap.getSize, hw, b.word_size hm]

/-- The allocated bit is read from the header. -/
theorem Heap.getAlloc_of_header {bp : Nat} (hw : h.get (bp - 4) = b.word) (hm : b.size % 8 = 0)
    (h4 : 4 ≤ bp) : h.getAlloc (hdrp bp) = b.alloc.toNat := by
  rw [hdrp_eq h4, Heap.getAlloc, hw, b.word_alloc hm]

/-- The footer is found by the size in the header. -/
theorem Heap.ftrp_of_header {bp : Nat} (hw : h.get (bp - 4) = b.word) (hm : b.size % 8 = 0)
    (h4 : 4 ≤ bp) (hlt : bp + b.size < 2 ^ 32) (h8 : 8 ≤ bp + b.size) :
    h.ftrp bp = bp + b.size - 8 := by
  rw [Heap.ftrp, Heap.getSize_of_header hw hm h4, wsub_wadd hlt h8]

/-- The next block is found by the size in the header. -/
theorem Heap.nextBlkp_of_header {bp : Nat} (hw : h.get (bp - 4) = b.word) (hm : b.size % 8 = 0)
    (h4 : 4 ≤ bp) (hlt : bp + b.size < 2 ^ 32) : h.nextBlkp bp = bp + b.size := by
  have hs : h.getSize (wsub bp wsize) = b.size := Heap.getSize_of_header hw hm h4
  rw [Heap.nextBlkp, hs, wadd_of_lt hlt]

/-- The previous block is found by the size in its footer. -/
theorem Heap.prevBlkp_of_footer {bp : Nat} (hw : h.get (bp - 8) = b.word) (hm : b.size % 8 = 0)
    (h8 : 8 ≤ bp) (hs : b.size ≤ bp) : h.prevBlkp bp = bp - b.size := by
  have hf : h.getSize (wsub bp dsize) = b.size := by
    rw [wsub_of_le h8, Heap.getSize, hw, b.word_size hm]
  rw [Heap.prevBlkp, hf, wsub_of_le hs]

/-- Where a block of a layout lies. -/
structure Heap.Bounds (h : Heap) (b : Block) : Prop where
  lo : h.heapListp + 8 ≤ b.bp
  hi : b.bp + b.size ≤ h.memBrk
  size : 16 ≤ b.size
  mod : b.size % 8 = 0
  brk : h.memBrk < 2 ^ 32
  listp : 8 ≤ h.heapListp

/-- The break is an address. -/
theorem Heap.Layout.brk_lt (hl : h.Layout bs) : h.memBrk < 2 ^ 32 :=
  Nat.lt_of_le_of_lt hl.inBounds hl.addressable

/-- A block lies between the prologue and the break. -/
theorem Heap.Layout.bounds (hl : h.Layout bs) (hb : b ∈ bs) : h.Bounds b := by
  obtain ⟨hlo, hhi⟩ := hl.tiles.bounds b hb
  obtain ⟨hmod, hsize⟩ := hl.sizes b hb
  exact ⟨hlo, hhi, hsize, hmod, hl.brk_lt, by rw [hl.listp]; omega⟩

/-- The first block starts right after the prologue, so the break is at least there. -/
theorem Heap.Layout.le_brk (hl : h.Layout bs) : h.heapListp + 8 ≤ h.memBrk := hl.tiles.le

/-- The first block is aligned. -/
theorem Heap.Layout.start_mod (hl : h.Layout bs) : (h.heapListp + 8) % 8 = 0 := by
  have := hl.aligned
  rw [hl.listp]; omega

/-- Blocks of aligned sizes are aligned, from an aligned start on. -/
theorem Tiles.bp_mod {a e : Nat} (ht : Tiles Block.bp Block.size a bs e) (ha : a % 8 = 0)
    (hs : ∀ b ∈ bs, b.size % 8 = 0) : (∀ b ∈ bs, b.bp % 8 = 0) ∧ e % 8 = 0 := by
  induction bs generalizing a with
  | nil => exact ⟨by simp, ht ▸ ha⟩
  | cons c bs ih =>
    have hc := hs c List.mem_cons_self
    obtain ⟨hb, he⟩ := ih ht.2 (by omega) fun x hx => hs x (List.mem_cons_of_mem _ hx)
    refine ⟨fun x hx => ?_, he⟩
    rcases List.mem_cons.1 hx with rfl | hx
    · rw [ht.1, ha]
    · exact hb x hx

/-- Every payload pointer, and the break, is 8-aligned. -/
theorem Heap.Layout.bp_mod (hl : h.Layout bs) :
    (∀ b ∈ bs, b.bp % 8 = 0) ∧ h.memBrk % 8 = 0 :=
  Tiles.bp_mod hl.tiles hl.start_mod fun b hb => (hl.sizes b hb).1

/-- Two blocks of a layout do not overlap. -/
theorem Heap.Layout.apart (hl : h.Layout bs) (hb : b ∈ bs) (hc : c ∈ bs) (hne : b ≠ c) :
    c.bp + c.size ≤ b.bp ∨ b.bp + b.size ≤ c.bp := hl.tiles.apart_of_ne hb hc hne

/-- A block of a layout is determined by its payload pointer. -/
theorem Heap.Layout.bp_inj (hl : h.Layout bs) (hb : b ∈ bs) (hc : c ∈ bs) (he : b.bp = c.bp) :
    b = c :=
  hl.tiles.start_inj (fun z hz => by have := (hl.sizes z hz).2; omega) hb hc he

/-- `GET_SIZE` of a block. -/
theorem Heap.Layout.getSize (hl : h.Layout bs) (hb : b ∈ bs) : h.getSize (hdrp b.bp) = b.size := by
  have hB := hl.bounds hb
  have := hB.lo; have := hB.hi; have := hB.brk; have := hB.size
  exact Heap.getSize_of_header (hl.tags b hb).header hB.mod (by omega)

/-- `GET_ALLOC` of a block. -/
theorem Heap.Layout.getAlloc (hl : h.Layout bs) (hb : b ∈ bs) :
    h.getAlloc (hdrp b.bp) = b.alloc.toNat := by
  have hB := hl.bounds hb
  have := hB.lo; have := hB.hi; have := hB.brk; have := hB.size
  exact Heap.getAlloc_of_header (hl.tags b hb).header hB.mod (by omega)

/-- `FTRP` of a block. -/
theorem Heap.Layout.ftrp (hl : h.Layout bs) (hb : b ∈ bs) : h.ftrp b.bp = b.bp + b.size - 8 := by
  have hB := hl.bounds hb
  have := hB.lo; have := hB.hi; have := hB.brk; have := hB.size
  exact Heap.ftrp_of_header (hl.tags b hb).header hB.mod (by omega) (by omega) (by omega)

/-- `NEXT_BLKP` of a block. -/
theorem Heap.Layout.nextBlkp (hl : h.Layout bs) (hb : b ∈ bs) : h.nextBlkp b.bp = b.bp + b.size := by
  have hB := hl.bounds hb
  have := hB.lo; have := hB.hi; have := hB.brk
  exact Heap.nextBlkp_of_header (hl.tags b hb).header hB.mod (by omega) (by omega)

/-- The blocks of a heap are determined by its memory. -/
theorem Heap.Layout.unique {bs' : List Block} (hl : h.Layout bs) (hl' : h.Layout bs') :
    bs = bs' := by
  refine hl.tiles.unique hl'.tiles (fun b hb => ?_) (fun b hb => ?_) fun b hb c hc he => ?_
  · have := (hl.sizes b hb).2
    omega
  · have := (hl'.sizes b hb).2
    omega
  · have hsize : b.size = c.size := by rw [← hl.getSize hb, he, hl'.getSize hc]
    have halloc : b.alloc.toNat = c.alloc.toNat := by rw [← hl.getAlloc hb, he, hl'.getAlloc hc]
    obtain ⟨p, n, a⟩ := b
    obtain ⟨q, m, a'⟩ := c
    obtain rfl : p = q := he
    obtain rfl : n = m := hsize
    cases a <;> cases a' <;> first | rfl | cases halloc

/-- The block before a place in the list: the prologue at the start. -/
def Heap.before (h : Heap) (pre : List Block) : Block := pre.getLast?.getD h.prologue

/-- The block after a place in the list: the epilogue at the end. -/
def Heap.after (h : Heap) (post : List Block) : Block := post.head?.getD h.epilogue

@[simp] theorem Heap.before_nil (h : Heap) : h.before [] = h.prologue := rfl
@[simp] theorem Heap.before_concat (h : Heap) : h.before (pre ++ [b]) = b := by simp [Heap.before]
@[simp] theorem Heap.after_nil (h : Heap) : h.after [] = h.epilogue := rfl
@[simp] theorem Heap.after_cons (h : Heap) : h.after (b :: post) = b := rfl

/-- The block before `b` ends where `b` starts and has matching tags. -/
theorem Heap.Layout.before (hl : h.Layout (pre ++ b :: post)) :
    h.Tagged (h.before pre) ∧ (h.before pre).bp + (h.before pre).size = b.bp ∧
      (h.before pre).size % 8 = 0 ∧ 8 ≤ (h.before pre).size ∧ 8 ≤ (h.before pre).bp := by
  have hlo : 8 ≤ h.heapListp := by rw [hl.listp]; omega
  obtain ⟨ht, -⟩ := hl.tiles.split
  rcases List.eq_nil_or_concat pre with rfl | ⟨pre, p, rfl⟩
  · exact ⟨hl.prologue, ht, Nat.mod_self 8, Nat.le_refl 8, hlo⟩
  · rw [List.concat_eq_append] at hl ht ⊢
    obtain ⟨m, -, hm, he⟩ := Tiles.append.1 ht
    have hp : p ∈ (pre ++ [p]) ++ b :: post := by simp
    have hB := hl.bounds hp
    rw [Heap.before_concat]
    have he : m + p.size = b.bp := he
    exact ⟨hl.tags p hp, by omega, hB.mod, by have := hB.size; omega, by have := hB.lo; omega⟩

/-- The block after `b` starts where `b` ends, and its header holds its word. -/
theorem Heap.Layout.after (hl : h.Layout (pre ++ b :: post)) :
    h.get (b.bp + b.size - 4) = (h.after post).word ∧ (h.after post).bp = b.bp + b.size ∧
      (h.after post).size % 8 = 0 := by
  obtain ⟨-, ht⟩ := hl.tiles.split
  cases post with
  | nil =>
    have he : b.bp + b.size = h.memBrk := ht
    rw [he]
    exact ⟨hl.epilogue, rfl, rfl⟩
  | cons n post =>
    have hn : n ∈ pre ++ b :: n :: post := by simp
    have he : n.bp = b.bp + b.size := ht.1
    rw [Heap.after_cons, ← he]
    exact ⟨(hl.tags n hn).header, rfl, (hl.bounds hn).mod⟩

/-- `PREV_BLKP` of a block is the one before it, or the prologue. -/
theorem Heap.Layout.prevBlkp (hl : h.Layout (pre ++ b :: post)) :
    h.prevBlkp b.bp = (h.before pre).bp := by
  obtain ⟨ht, he, hm, h8, -⟩ := hl.before
  have hB := hl.bounds (b := b) (by simp)
  have := hB.lo; have := hB.hi; have := hB.brk; have := hB.size
  rw [Heap.prevBlkp_of_footer (he ▸ ht.footer) hm (by omega) (by omega)]
  omega

/-- `coalesce` reads the allocated bit of the block before. -/
theorem Heap.Layout.prev_alloc (hl : h.Layout (pre ++ b :: post)) :
    h.getAlloc (h.ftrp (h.prevBlkp b.bp)) = (h.before pre).alloc.toNat := by
  obtain ⟨ht, he, hm, h8, h8'⟩ := hl.before
  have hB := hl.bounds (b := b) (by simp)
  have := hB.hi; have := hB.brk; have := hB.size
  rw [hl.prevBlkp, Heap.ftrp_of_header ht.header hm (by omega) (by omega) (by omega),
    Heap.getAlloc, ht.footer, Block.word_alloc hm]

/-- The allocated bit in the header of the previous block. -/
theorem Heap.Layout.prev_header_alloc (hl : h.Layout (pre ++ b :: post)) :
    h.getAlloc (hdrp (h.prevBlkp b.bp)) = (h.before pre).alloc.toNat := by
  obtain ⟨ht, he, hm, h8, h8'⟩ := hl.before
  have hB := hl.bounds (b := b) (by simp)
  have := hB.hi; have := hB.brk; have := hB.size
  rw [hl.prevBlkp, Heap.getAlloc_of_header ht.header hm (by omega)]

/-- The size of the previous block. -/
theorem Heap.Layout.prev_size (hl : h.Layout (pre ++ b :: post)) :
    h.getSize (hdrp (h.prevBlkp b.bp)) = (h.before pre).size := by
  obtain ⟨ht, he, hm, h8, h8'⟩ := hl.before
  have hB := hl.bounds (b := b) (by simp)
  have := hB.hi; have := hB.brk; have := hB.size
  rw [hl.prevBlkp, Heap.getSize_of_header ht.header hm (by omega)]

/-- The allocated bit of the next block, or of the epilogue. -/
theorem Heap.Layout.next_alloc (hl : h.Layout (pre ++ b :: post)) :
    h.getAlloc (hdrp (h.nextBlkp b.bp)) = (h.after post).alloc.toNat := by
  obtain ⟨ha, -, hm⟩ := hl.after
  have hb : b ∈ pre ++ b :: post := by simp
  have hB := hl.bounds hb
  have := hB.lo; have := hB.hi; have := hB.brk
  rw [hl.nextBlkp hb, Heap.getAlloc_of_header ha hm (by omega)]

/-- The size of the next block, or of the epilogue. -/
theorem Heap.Layout.next_size (hl : h.Layout (pre ++ b :: post)) :
    h.getSize (hdrp (h.nextBlkp b.bp)) = (h.after post).size := by
  obtain ⟨ha, -, hm⟩ := hl.after
  have hb : b ∈ pre ++ b :: post := by simp
  have hB := hl.bounds hb
  have := hB.lo; have := hB.hi; have := hB.brk
  rw [hl.nextBlkp hb, Heap.getSize_of_header ha hm (by omega)]

end

end Malloc
