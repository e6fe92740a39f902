import Styrikerfi.Lib.Machine32

/-!
# The simulated heap and the explicit-list allocator

`memlib.c` and `mm.c` as built with `-m32`: pointers and `size_t` are 32-bit words over a byte
memory (`Machine32`), `NULL` is `0`. A `Heap` is the memory with the private variables of `memlib.c`
and the two globals of `mm.c`; every function of the source is a function on heaps. Reads and writes
are total, so an access above the break reads or writes whatever is there.

The sum `mem_brk + incr` of `mem_sbrk` is one of natural numbers, as on storage placed so that it
never wraps (`Heap.Placed`, `Heap.memSbrk_eq_word`); the pointer arithmetic of `mm.c` itself is that
of machine words. The two loops over the free list
(`findFit`) run on fuel that only a walk that never ends uses up. What the C library's `free` does
to an address is not modelled; `libcFreed` records that it was called.
-/

namespace Malloc

open Machine32

/-- The simulated memory, the private variables of `memlib.c` and the globals of `mm.c`. -/
structure Heap where
  mem : Mem
  /-- points to first byte of heap -/
  memStartBrk : Nat
  /-- points to the byte after the heap -/
  memBrk : Nat
  /-- largest legal heap address -/
  memMaxAddr : Nat
  /-- pointer to first block -/
  heapListp : Nat
  /-- pointer to first free block -/
  freeListp : Nat
  /-- addresses given to the C library's `free`, latest first -/
  libcFreed : List Nat

/-! ## memlib.c -/

/-- The size of the simulated memory (20 MB). -/
def maxHeap : Nat := 20 * 2 ^ 20

/-- The memory system model, on storage at `start` with the bytes of `mem`. -/
def memInit (mem : Mem) (start : Nat) : Heap :=
  { mem := mem, memStartBrk := start, memBrk := start, memMaxAddr := start + maxHeap,
    heapListp := 0, freeListp := 0, libcFreed := [] }

/-- `(void *)-1`. -/
def sbrkFailed : Nat := 2 ^ 32 - 1

/-- Extends the heap by `incr` bytes and returns the start address of the new area. -/
def Heap.memSbrk (h : Heap) (incr : Int) : Nat × Heap :=
  if incr < 0 ∨ h.memMaxAddr < h.memBrk + incr.toNat then (sbrkFailed, h)
  else (h.memBrk, { h with memBrk := h.memBrk + incr.toNat })

/-- The same with the sums of machine words, which wrap. -/
def Heap.memSbrkWord (h : Heap) (incr : Int) : Nat × Heap :=
  if incr < 0 ∨ h.memMaxAddr < wadd h.memBrk incr.toNat then (sbrkFailed, h)
  else (h.memBrk, { h with memBrk := wadd h.memBrk incr.toNat })

/-- The storage is placed so that the break and an `int` make an address. -/
def Heap.Placed (h : Heap) : Prop := h.memMaxAddr + 2 ^ 31 ≤ 2 ^ 32

/-- On storage so placed the sums of `mem_sbrk` do not wrap. -/
theorem Heap.memSbrk_eq_word {h : Heap} {incr : Int} (hp : h.Placed)
    (hle : h.memBrk ≤ h.memMaxAddr) (hlt : incr < 2 ^ 31) :
    h.memSbrk incr = h.memSbrkWord incr := by
  unfold Heap.Placed at hp
  rw [Heap.memSbrk, Heap.memSbrkWord, wadd_of_lt (by omega)]

/-- Resets the simulated brk pointer to make an empty heap. -/
def Heap.memResetBrk (h : Heap) : Heap := { h with memBrk := h.memStartBrk }

/-- The address of the first heap byte. -/
def Heap.memHeapLo (h : Heap) : Nat := h.memStartBrk

/-- The address of the last heap byte. -/
def Heap.memHeapHi (h : Heap) : Nat := wsub h.memBrk 1

/-! ## Constants and macros of mm.c -/

/-- word size (bytes) -/
abbrev wsize : Nat := 4
/-- doubleword size (bytes) -/
abbrev dsize : Nat := 8
/-- initial heap size (bytes) -/
abbrev chunksize : Nat := 4096
/-- overhead of header and footer (bytes) -/
abbrev overhead : Nat := 8
/-- minimum size of block -/
abbrev minimum : Nat := 16

/-- A size and an allocated bit in a word. -/
def pack (size alloc : Nat) : Nat := size ||| alloc

/-- The word at address `p`. -/
def Heap.get (h : Heap) (p : Nat) : Nat := load h.mem p

/-- The heap after `val` is written at address `p`. -/
def Heap.put (h : Heap) (p val : Nat) : Heap := { h with mem := store h.mem p val }

/-- The size field at address `p`: the word with its low three bits cleared. -/
def Heap.getSize (h : Heap) (p : Nat) : Nat := h.get p / 8 * 8

/-- The allocated bit at address `p`. -/
def Heap.getAlloc (h : Heap) (p : Nat) : Nat := h.get p % 2

/-- The header of block `bp`. -/
def hdrp (bp : Nat) : Nat := wsub bp wsize

/-- The footer of block `bp`. -/
def Heap.ftrp (h : Heap) (bp : Nat) : Nat := wsub (wadd bp (h.getSize (hdrp bp))) dsize

/-- The block after `bp`. -/
def Heap.nextBlkp (h : Heap) (bp : Nat) : Nat := wadd bp (h.getSize (wsub bp wsize))

/-- The block before `bp`. -/
def Heap.prevBlkp (h : Heap) (bp : Nat) : Nat := wsub bp (h.getSize (wsub bp dsize))

/-! ## The free list: `struct pointers` in the payload of a free block -/

/-- `p->prev` -/
def Heap.prev (h : Heap) (p : Nat) : Nat := h.get p

/-- `p->next` -/
def Heap.next (h : Heap) (p : Nat) : Nat := h.get (wadd p wsize)

/-- `p->prev = v` -/
def Heap.setPrev (h : Heap) (p v : Nat) : Heap := h.put p v

/-- `p->next = v` -/
def Heap.setNext (h : Heap) (p v : Nat) : Heap := h.put (wadd p wsize) v

/-- `free_listp = v` -/
def Heap.setFreeListp (h : Heap) (v : Nat) : Heap := { h with freeListp := v }

/-- Inserts a block at the front of the free list. -/
def Heap.insertBlock (h : Heap) (bp : Nat) : Heap :=
  if h.freeListp = 0 then
    let h := h.setFreeListp bp
    let h := h.setPrev bp 0
    h.setNext bp 0
  else
    let p := h.freeListp
    let h := h.setPrev p bp
    let h := h.setPrev bp 0
    let h := h.setNext bp p
    h.setFreeListp bp

/-- Removes a block from the free list. -/
def Heap.removeBlock (h : Heap) (p : Nat) : Heap :=
  let h := if h.next p ≠ 0 then h.setPrev (h.next p) (h.prev p) else h
  if h.prev p ≠ 0 then h.setNext (h.prev p) (h.next p)
  else
    -- `p` is at the front of the list
    let h := h.setFreeListp (h.next p)
    if h.next p ≠ 0 then h.setPrev (h.next p) 0 else h

/-- The first fit search from `p` on; `none` when the fuel runs out. -/
def Heap.findFitFrom (h : Heap) (asize : Nat) : Nat → Nat → Option Nat
  | 0, _ => none
  | fuel + 1, p =>
    if p = 0 then some 0
    else if h.getAlloc (hdrp p) = 0 ∧ asize ≤ h.getSize (hdrp p) then some p
    else h.findFitFrom asize fuel (h.next p)

/-- Finds a fit for a block with `asize` bytes, `NULL` if there is none. A walk of more than `2 ^
32` pointers has met one of them twice and never ends (`none`). -/
def Heap.findFit (h : Heap) (asize : Nat) : Option Nat :=
  h.findFitFrom asize (2 ^ 32) h.freeListp

/-! ## Internal helper routines -/

/-- Boundary tag coalescing. Returns the coalesced block. -/
def Heap.coalesce (h : Heap) (bp : Nat) : Nat × Heap :=
  let prevAlloc := h.getAlloc (h.ftrp (h.prevBlkp bp))
  let nextAlloc := h.getAlloc (hdrp (h.nextBlkp bp))
  let size := h.getSize (hdrp bp)
  if prevAlloc ≠ 0 ∧ nextAlloc ≠ 0 then
    (bp, h.insertBlock bp)
  else if prevAlloc ≠ 0 ∧ nextAlloc = 0 then
    let h := h.removeBlock (h.nextBlkp bp)
    let size := wadd size (h.getSize (hdrp (h.nextBlkp bp)))
    let h := h.put (hdrp bp) (pack size 0)
    let h := h.put (h.ftrp bp) (pack size 0)
    (bp, h.insertBlock bp)
  else if prevAlloc = 0 ∧ nextAlloc ≠ 0 then
    let h := h.removeBlock (h.prevBlkp bp)
    let size := wadd size (h.getSize (hdrp (h.prevBlkp bp)))
    let h := h.put (h.ftrp bp) (pack size 0)
    let h := h.put (hdrp (h.prevBlkp bp)) (pack size 0)
    let bp := h.prevBlkp bp
    (bp, h.insertBlock bp)
  else
    let h := h.removeBlock (h.nextBlkp bp)
    let h := h.removeBlock (h.prevBlkp bp)
    let size := wadd size
      (wadd (h.getSize (hdrp (h.prevBlkp bp))) (h.getSize (h.ftrp (h.nextBlkp bp))))
    let h := h.put (hdrp (h.prevBlkp bp)) (pack size 0)
    let h := h.put (h.ftrp (h.nextBlkp bp)) (pack size 0)
    let bp := h.prevBlkp bp
    (bp, h.insertBlock bp)

/-- Extends the heap with a free block and returns its block pointer, `NULL` on failure. -/
def Heap.extendHeap (h : Heap) (words : Nat) : Nat × Heap :=
  let size := if words % 2 ≠ 0 then (words + 1) * wsize % 2 ^ 32 else words * wsize % 2 ^ 32
  let (bp, h) := h.memSbrk (toInt size)
  if bp = sbrkFailed then (0, h)
  else
    let h := h.put (hdrp bp) (pack size 0)
    let h := h.put (h.ftrp bp) (pack size 0)
    let h := h.put (hdrp (h.nextBlkp bp)) (pack 0 1)
    h.coalesce bp

/-- Places a block of `asize` bytes at the start of free block `bp`, and splits if the remainder
would be at least the minimum block size. -/
def Heap.place (h : Heap) (bp asize : Nat) : Heap :=
  let csize := h.getSize (hdrp bp)
  if dsize + overhead ≤ wsub csize asize then
    let h := h.put (hdrp bp) (pack asize 1)
    let h := h.put (h.ftrp bp) (pack asize 1)
    let h := h.removeBlock bp
    let bp := h.nextBlkp bp
    let h := h.put (hdrp bp) (pack (wsub csize asize) 0)
    let h := h.put (h.ftrp bp) (pack (wsub csize asize) 0)
    (h.coalesce bp).2
  else
    let h := h.put (hdrp bp) (pack csize 1)
    let h := h.put (h.ftrp bp) (pack csize 1)
    h.removeBlock bp

/-! ## The allocator -/

/-- The block size for a request: overhead included, rounded up to a doubleword. -/
def adjust (size : Nat) : Nat :=
  if size ≤ dsize then dsize + overhead
  else dsize * (wadd (wadd size overhead) (dsize - 1) / dsize)

/-- Initializes the memory manager. -/
def Heap.mmInit (h : Heap) : Int × Heap :=
  let (p, h) := h.memSbrk (4 * wsize)
  if p = 0 then (-1, { h with heapListp := p })
  else
    let h := h.put p 0
    let h := h.put (wadd p wsize) (pack overhead 1)
    let h := h.put (wadd p dsize) (pack overhead 1)
    let h := h.put (wadd (wadd p wsize) dsize) (pack 0 1)
    let h := { h with heapListp := wadd p dsize }
    let h := h.setFreeListp 0
    let (bp, h) := h.extendHeap (chunksize / wsize)
    if bp = 0 then (-1, h) else (0, h)

/-- Allocates a block with at least `size` bytes of payload; `none` when the search never ends. -/
def Heap.mmMalloc (h : Heap) (size : Nat) : Option (Nat × Heap) :=
  if size = 0 then some (0, h)
  else
    let asize := adjust size
    (h.findFit asize).map fun bp =>
      if bp ≠ 0 then (bp, h.place bp asize)
      else
        let extendsize := max asize chunksize
        let (bp, h) := h.extendHeap (extendsize / wsize)
        if bp = 0 then (0, h) else (bp, h.place bp asize)

/-- Frees a block. -/
def Heap.mmFree (h : Heap) (bp : Nat) : Heap :=
  let size := h.getSize (hdrp bp)
  let h := h.put (hdrp bp) (pack size 0)
  let h := h.put (h.ftrp bp) (pack size 0)
  (h.coalesce bp).2

/-! ## Reallocation -/

/-- How a call of `mm_realloc` ends. -/
inductive Outcome where
  | ret (p : Nat) (h : Heap)
  | exit (status : Int) (h : Heap)

/-- The branches of `mm_realloc` for a block and a positive size, in the order of their guards. -/
inductive Branch where
  | unchanged | shrink | absorbNext | absorbPrev | absorbBoth | extend | mallocCopyFree
  deriving DecidableEq

/-- The branch whose guard is the first to hold. -/
def Heap.reallocBranch (h : Heap) (ptr newsize copySize : Nat) : Branch :=
  let next := hdrp (h.nextBlkp ptr)
  let prev := hdrp (h.prevBlkp ptr)
  if newsize = copySize then .unchanged
  else if wadd newsize minimum ≤ copySize then .shrink
  else if copySize < newsize ∧ h.getAlloc next = 0 ∧ wsub newsize copySize ≤ h.getSize next then
    .absorbNext
  else if copySize < newsize ∧ h.getAlloc prev = 0 ∧ wsub newsize copySize ≤ h.getSize prev then
    .absorbPrev
  else if copySize < newsize ∧ h.getAlloc prev = 0 ∧ h.getAlloc next = 0 ∧
      wsub newsize copySize ≤ wadd (h.getSize prev) (h.getSize next) then .absorbBoth
  else if copySize < newsize ∧ h.getSize next = 0 then .extend
  else .mallocCopyFree

/-- The memory move of `memcpy`, on regions that may overlap. -/
def Heap.memcpy (h : Heap) (dst src n : Nat) : Heap := { h with mem := copy h.mem dst src n }

/-- The block is shrunk and a free block is created after it. -/
def Heap.reallocShrink (h : Heap) (ptr newsize copySize : Nat) : Heap :=
  let h := h.put (hdrp ptr) (pack newsize 1)
  let h := h.put (h.ftrp ptr) (pack newsize 1)
  let asize := wsub copySize newsize
  let h := h.put (hdrp (h.nextBlkp ptr)) (pack asize 0)
  let h := h.put (h.ftrp (h.nextBlkp ptr)) (pack asize 0)
  (h.coalesce (h.nextBlkp ptr)).2

/-- The block takes over the whole of the free block after it. -/
def Heap.reallocAbsorbNext (h : Heap) (ptr newsize copySize : Nat) : Heap :=
  let freesize := wsub (h.getSize (hdrp (h.nextBlkp ptr))) (wsub newsize copySize)
  let h := h.removeBlock (h.nextBlkp ptr)
  let h := h.put (hdrp ptr) (pack (wadd newsize freesize) 1)
  h.put (h.ftrp ptr) (pack (wadd newsize freesize) 1)

/-- The block moves to the start of the free block before it. -/
def Heap.reallocAbsorbPrev (h : Heap) (ptr newsize copySize : Nat) : Nat × Heap :=
  let freesize := wsub (h.getSize (hdrp (h.prevBlkp ptr))) (wsub newsize copySize)
  let h := h.removeBlock (h.prevBlkp ptr)
  let newp := h.prevBlkp ptr
  let h := h.put (hdrp newp) (pack (wadd newsize freesize) 1)
  let h := h.put (h.ftrp newp) (pack (wadd newsize freesize) 1)
  (newp, h.memcpy newp ptr copySize)

/-- The block takes over the free blocks on both sides. -/
def Heap.reallocAbsorbBoth (h : Heap) (ptr newsize copySize : Nat) : Nat × Heap :=
  let freesize := wsub (wadd (h.getSize (hdrp (h.nextBlkp ptr)))
    (h.getSize (hdrp (h.prevBlkp ptr)))) (wsub newsize copySize)
  let h := h.removeBlock (h.prevBlkp ptr)
  let h := h.removeBlock (h.nextBlkp ptr)
  let newp := h.prevBlkp ptr
  let h := h.put (hdrp newp) (pack (wadd newsize freesize) 1)
  let h := h.put (h.ftrp newp) (pack (wadd newsize freesize) 1)
  (newp, h.memcpy newp ptr copySize)

/-- The block is the last of the heap: the heap is extended and a free block is made from the
leftover space. -/
def Heap.reallocExtend (h : Heap) (ptr newsize copySize : Nat) : Nat × Heap :=
  let (bp, h) := h.extendHeap (chunksize / wsize)
  if bp = 0 then (0, h)
  else
    let freesize := wsub (h.getSize (hdrp (h.nextBlkp ptr))) (wsub newsize copySize)
    let h := h.removeBlock (h.nextBlkp ptr)
    let h := h.put (hdrp ptr) (pack newsize 1)
    let h := h.put (h.ftrp ptr) (pack newsize 1)
    let h := h.put (hdrp (h.nextBlkp ptr)) (pack freesize 1)
    let h := h.put (h.ftrp (h.nextBlkp ptr)) (pack freesize 1)
    (ptr, h.mmFree (h.nextBlkp ptr))

/-- A new block is allocated, the old contents are copied and the old block is freed. -/
def Heap.reallocMove (h : Heap) (ptr size copySize : Nat) : Option Outcome :=
  (h.mmMalloc size).map fun (newp, h) =>
    if newp = 0 then .exit 1 h
    else
      let copySize := if size < copySize then size else copySize
      .ret newp ((h.memcpy newp ptr copySize).mmFree ptr)

/-- Reallocates a block; `none` when a search of the free list never ends. -/
def Heap.mmRealloc (h : Heap) (ptr size : Nat) : Option Outcome :=
  if ptr = 0 then (h.mmMalloc size).map fun (p, h) => .ret p h
  else if size = 0 then some (.ret 0 { h with libcFreed := ptr :: h.libcFreed })
  else
    let newsize := adjust size
    let copySize := h.getSize (hdrp ptr)
    match h.reallocBranch ptr newsize copySize with
    | .unchanged => some (.ret ptr h)
    | .shrink => some (.ret ptr (h.reallocShrink ptr newsize copySize))
    | .absorbNext => some (.ret ptr (h.reallocAbsorbNext ptr newsize copySize))
    | .absorbPrev =>
      let (newp, h) := h.reallocAbsorbPrev ptr newsize copySize
      some (.ret newp h)
    | .absorbBoth =>
      let (newp, h) := h.reallocAbsorbBoth ptr newsize copySize
      some (.ret newp h)
    | .extend =>
      let (p, h) := h.reallocExtend ptr newsize copySize
      some (.ret p h)
    | .mallocCopyFree => h.reallocMove ptr size copySize

/-! ## The calls of `memcpy` -/

/-- A call of `memcpy`, with the heap it is made in. -/
structure Memcpy where
  heap : Heap
  dst : Nat
  src : Nat
  n : Nat

/-- The copy into the free block before. -/
def Heap.absorbPrevMemcpy (h : Heap) (ptr newsize copySize : Nat) : Memcpy :=
  let freesize := wsub (h.getSize (hdrp (h.prevBlkp ptr))) (wsub newsize copySize)
  let h := h.removeBlock (h.prevBlkp ptr)
  let newp := h.prevBlkp ptr
  let h := h.put (hdrp newp) (pack (wadd newsize freesize) 1)
  let h := h.put (h.ftrp newp) (pack (wadd newsize freesize) 1)
  ⟨h, newp, ptr, copySize⟩

/-- The copy into the free block before, when the one after is taken over too. -/
def Heap.absorbBothMemcpy (h : Heap) (ptr newsize copySize : Nat) : Memcpy :=
  let freesize := wsub (wadd (h.getSize (hdrp (h.nextBlkp ptr)))
    (h.getSize (hdrp (h.prevBlkp ptr)))) (wsub newsize copySize)
  let h := h.removeBlock (h.prevBlkp ptr)
  let h := h.removeBlock (h.nextBlkp ptr)
  let newp := h.prevBlkp ptr
  let h := h.put (hdrp newp) (pack (wadd newsize freesize) 1)
  let h := h.put (h.ftrp newp) (pack (wadd newsize freesize) 1)
  ⟨h, newp, ptr, copySize⟩

/-- The copy into a new block, if there is one. -/
def Heap.moveMemcpy (h : Heap) (ptr size copySize : Nat) : Option Memcpy :=
  (h.mmMalloc size).bind fun (newp, h) =>
    if newp = 0 then none
    else
      let copySize := if size < copySize then size else copySize
      some ⟨h, newp, ptr, copySize⟩

/-- The call of `memcpy` that a call of `mm_realloc` makes, if it makes one. -/
def Heap.reallocMemcpy (h : Heap) (ptr size : Nat) : Option Memcpy :=
  if ptr = 0 ∨ size = 0 then none
  else
    let newsize := adjust size
    let copySize := h.getSize (hdrp ptr)
    match h.reallocBranch ptr newsize copySize with
    | .absorbPrev => some (h.absorbPrevMemcpy ptr newsize copySize)
    | .absorbBoth => some (h.absorbBothMemcpy ptr newsize copySize)
    | .mallocCopyFree => h.moveMemcpy ptr size copySize
    | _ => none

/-! The copies are those of the branches. -/

/-- The branch into the block before ends in its copy. -/
theorem Heap.reallocAbsorbPrev_eq (h : Heap) (ptr newsize copySize : Nat) :
    h.reallocAbsorbPrev ptr newsize copySize =
      let c := h.absorbPrevMemcpy ptr newsize copySize
      (c.dst, c.heap.memcpy c.dst c.src c.n) := rfl

/-- The branch into both neighbours ends in its copy. -/
theorem Heap.reallocAbsorbBoth_eq (h : Heap) (ptr newsize copySize : Nat) :
    h.reallocAbsorbBoth ptr newsize copySize =
      let c := h.absorbBothMemcpy ptr newsize copySize
      (c.dst, c.heap.memcpy c.dst c.src c.n) := rfl

/-- The branch that moves the block is its copy and the `mm_free` after it. -/
theorem Heap.reallocMove_eq {h : Heap} {ptr size copySize : Nat} {c : Memcpy}
    (hc : h.moveMemcpy ptr size copySize = some c) : h.reallocMove ptr size copySize =
      some (.ret c.dst ((c.heap.memcpy c.dst c.src c.n).mmFree ptr)) := by
  obtain ⟨⟨newp, g⟩, hm, hc⟩ := Option.bind_eq_some_iff.1 hc
  dsimp only at hc
  split at hc
  · cases hc
  · next h0 =>
    cases hc
    simp only [Heap.reallocMove, hm, Option.map_some, if_neg h0]

end Malloc
