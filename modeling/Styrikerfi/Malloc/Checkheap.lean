import Styrikerfi.Malloc.Ledger
import Styrikerfi.Malloc.Realloc

/-!
# The heap checker

`mm_checkheap` and the routines it calls, as functions to what they print; a loop that never ends
gives no output (`none`). `Heap.mmCheckheap_reports` says of any memory in which the walks end when
no error is printed: the prologue is an allocated block of 8 bytes, every block walked passes
`checkblock`, the header the walk ends at is allocated, and every listed block passes
`checkfreeblock`.

What the checker promises follows but for one thing (`checkheap_detects_iff`): the allocated bit of
a listed block is read from its first payload word, and its header only where another listed block
points to it, so nothing is read of the header of the first. On the heaps of a session the checker
is silent (`checkheap_silent`).
-/

namespace Malloc

open Machine32 Tiling LinkedList Paths

/-- What is printed. -/
inductive Message where
  | heap (p : Nat)
  | block (bp hsize : Nat) (halloc : Bool) (fsize : Nat) (falloc : Bool)
  | eol (bp : Nat)
  | badPrologue
  | badEpilogue
  | notAligned (bp : Nat)
  | tagsDiffer
  | contiguous (bp : Nat)
  | notListed (bp : Nat)
  | notFree (p : Nat)
  | outOfBounds (p : Nat)
  | allocated (p : Nat)
  deriving DecidableEq

/-- `%p` -/
def pointer (p : Nat) : String :=
  if p = 0 then "(nil)" else "0x" ++ String.ofList (Nat.toDigits 16 p)

/-- A size and an allocated bit, as `printblock` prints them. -/
def tagText (size : Nat) (alloc : Bool) : String :=
  "[" ++ toString (toInt size) ++ ":" ++ (if alloc then "a" else "f") ++ "]"

def Message.text : Message → String
  | .heap p => "Heap (" ++ pointer p ++ "):\n"
  | .block bp hsize halloc fsize falloc => pointer bp ++ ": header: " ++ tagText hsize halloc ++
      " footer: " ++ tagText fsize falloc ++ "\n"
  | .eol bp => pointer bp ++ ": EOL\n"
  | .badPrologue => "Bad prologue header\n"
  | .badEpilogue => "Bad epilogue header\n"
  | .notAligned bp => "Error: " ++ pointer bp ++ " is not doubleword aligned\n"
  | .tagsDiffer => "Error: header does not match footer\n"
  | .contiguous bp => "Error: contiguous free blocks next to " ++ pointer bp ++ "\n"
  | .notListed bp => "Error: free block at " ++ pointer bp ++ " is not in free list\n"
  | .notFree p => "Error: " ++ pointer p ++ " is not free\n"
  | .outOfBounds p => "Error: pointer " ++ pointer p ++ " is not within heap bounds \n"
  | .allocated p => "Error: pointer " ++ pointer p ++ " points to an allocated block \n"

/-- It is not there for `verbose` alone. -/
def Message.isError : Message → Bool
  | .heap _ | .block _ _ _ _ _ | .eol _ => false
  | _ => true

/-! ## The routines -/

/-- The search of `inFreelist` from `p` on; `none` when the fuel runs out. -/
def Heap.inFreelistFrom (h : Heap) (bp : Nat) : Nat → Nat → Option Bool
  | 0, _ => none
  | fuel + 1, p =>
    if p = 0 then some false
    else if p = bp then some true
    else h.inFreelistFrom bp fuel (h.next p)

/-- Checks if a block is in the free list or not. -/
def Heap.inFreelist (h : Heap) (bp : Nat) : Option Bool := h.inFreelistFrom bp (2 ^ 32) h.freeListp

/-- Accepts a pointer to a block and prints it out. -/
def Heap.printblock (h : Heap) (bp : Nat) : Message :=
  let hsize := h.getSize (hdrp bp)
  let halloc := h.getAlloc (hdrp bp) ≠ 0
  let fsize := h.getSize (h.ftrp bp)
  let falloc := h.getAlloc (h.ftrp bp) ≠ 0
  if hsize = 0 then .eol bp else .block bp hsize halloc fsize falloc

/-- Checks if a block is aligned correctly and has a matching header and footer. Checks for
contiguous free blocks. Checks if a free block is in the free list. -/
def Heap.checkblock (h : Heap) (bp : Nat) : Option (List Message) :=
  let aligned := if bp % 8 ≠ 0 then [.notAligned bp] else []
  let tags := if h.get (hdrp bp) ≠ h.get (h.ftrp bp) then [.tagsDiffer] else []
  if h.getAlloc (hdrp bp) = 0 then
    let contiguous :=
      if h.getAlloc (hdrp (h.prevBlkp bp)) = 0 ∨ h.getAlloc (hdrp (h.nextBlkp bp)) = 0 then
        [.contiguous bp]
      else []
    (h.inFreelist bp).map fun listed =>
      aligned ++ tags ++ contiguous ++ if listed then [] else [.notListed bp]
  else some (aligned ++ tags)

/-- The checks of `checkfreeblock` on one of its two pointers: whether it is within heap bounds, and
whether the block it points to is free. -/
def Heap.checkpointer (h : Heap) (q : Nat) : List Message :=
  if q ≠ 0 then
    (if q < h.memHeapLo ∨ h.memHeapHi < q then [.outOfBounds q] else []) ++
      if h.getAlloc (hdrp q) ≠ 0 then [.allocated q] else []
  else []

/-- Checks if prev and next point to addresses within heap bounds and if the blocks they point to
are actually free. -/
def Heap.checkfreeblock (h : Heap) (p : Nat) : List Message :=
  h.checkpointer (h.prev p) ++ h.checkpointer (h.next p)

/-- The loop over the blocks, from `bp` on, with the block it ends at. -/
def Heap.checkBlocks (h : Heap) (verbose : Bool) : Nat → Nat → Option (List Message × Nat)
  | 0, _ => none
  | fuel + 1, bp =>
    if 0 < h.getSize (hdrp bp) then
      (h.checkblock bp).bind fun out =>
        (h.checkBlocks verbose fuel (h.nextBlkp bp)).map fun (rest, e) =>
          ((if verbose then [h.printblock bp] else []) ++ out ++ rest, e)
    else some ([], bp)

/-- The loop over the free list, from `p` on. -/
def Heap.checkList (h : Heap) : Nat → Nat → Option (List Message)
  | 0, _ => none
  | fuel + 1, p =>
    if p = 0 then some []
    else (h.checkList fuel (h.next p)).map fun rest =>
      (if h.getAlloc p ≠ 0 then [.notFree p] else []) ++ h.checkfreeblock p ++ rest

/-- Checks the heap for consistency. -/
def Heap.mmCheckheap (h : Heap) (verbose : Bool) : Option (List Message) :=
  let bp := h.heapListp
  let prologue :=
    if h.getSize (hdrp bp) ≠ dsize ∨ h.getAlloc (hdrp bp) = 0 then [.badPrologue] else []
  (h.checkblock bp).bind fun first =>
    (h.checkBlocks verbose (2 ^ 32) bp).bind fun (blocks, e) =>
      let epilogue :=
        if h.getSize (hdrp e) ≠ 0 ∨ h.getAlloc (hdrp e) = 0 then [.badEpilogue] else []
      (h.checkList (2 ^ 32) h.freeListp).map fun list =>
        (if verbose then [.heap bp] else []) ++ prologue ++ first ++ blocks ++
          (if verbose then [h.printblock e] else []) ++ epilogue ++ list

/-! ## What passes -/

/-- The block at `bp` passes `checkblock`, where the free list is `ps`. -/
structure Heap.Checked (h : Heap) (ps : List Nat) (bp : Nat) : Prop where
  aligned : bp % 8 = 0
  tags : h.get (hdrp bp) = h.get (h.ftrp bp)
  free : h.getAlloc (hdrp bp) = 0 → h.getAlloc (hdrp (h.prevBlkp bp)) ≠ 0 ∧
    h.getAlloc (hdrp (h.nextBlkp bp)) ≠ 0 ∧ bp ∈ ps

/-- A link word points to nothing, or to the payload of a free block in the heap. -/
def Heap.Points (h : Heap) (q : Nat) : Prop :=
  q ≠ 0 → h.memHeapLo ≤ q ∧ q ≤ h.memHeapHi ∧ h.getAlloc (hdrp q) = 0

/-- The listed block at `p` passes the checks of the second loop. -/
structure Heap.CheckedFree (h : Heap) (p : Nat) : Prop where
  free : h.getAlloc p = 0
  prev : h.Points (h.prev p)
  next : h.Points (h.next p)

/-- The heap passes `mm_checkheap`: the blocks `bs`, the header `e` that ends them and the free list
`ps`. -/
structure Heap.Passes (h : Heap) (bs : List Block) (e : Nat) (ps : List Nat) : Prop where
  prologue : h.getSize (hdrp h.heapListp) = dsize ∧ h.getAlloc (hdrp h.heapListp) ≠ 0
  first : h.Checked ps h.heapListp
  blocks : ∀ b ∈ bs, h.Checked ps b.bp
  epilogue : h.getAlloc (hdrp e) ≠ 0
  list : ∀ p ∈ ps, h.CheckedFree p

/-- The promise of the checker. -/
structure Heap.Consistent (h : Heap) (bs : List Block) (ps : List Nat) : Prop where
  tags : ∀ b ∈ bs, b.bp % 8 = 0 ∧ h.get (hdrp b.bp) = h.get (h.ftrp b.bp)
  merged : Merged bs
  listed : ∀ b ∈ bs, b.alloc = false → b.bp ∈ ps
  free : ∀ p ∈ ps, h.getAlloc (hdrp p) = 0

/-- What is printed reports an error exactly unless `P` holds, and nothing else but for
`verbose`. -/
structure Reports (verbose : Bool) (P : Prop) (out : List Message) : Prop where
  silent : (∀ m ∈ out, m.isError = false) ↔ P
  errors : verbose = false → ∀ m ∈ out, m.isError = true

section
variable {h : Heap} {bs : List Block} {fl ps : List Nat} {bp e fuel p q : Nat} {verbose : Bool}
  {out out' : List Message} {m : Message} {c P Q : Prop}

/-! ## The walks -/

/-- The blocks walked are a walk of `NEXT_BLKP`. -/
theorem Heap.Walk.path (h : Heap) (hw : h.Walk bp bs e) :
    Path (fun x => h.getSize (hdrp x) = 0) h.nextBlkp bp (bs.map Block.bp) e := by
  induction bs generalizing bp with
  | nil => exact hw
  | cons b bs ih =>
    obtain ⟨rfl, hs, hw⟩ := hw
    exact ⟨rfl, hs, ih hw⟩

/-- A walk finds each block as its header describes it. -/
theorem Heap.Walk.blockAt (h : Heap) (hw : h.Walk bp bs e) : ∀ b ∈ bs, b = h.blockAt b.bp := by
  induction bs generalizing bp with
  | nil => simp
  | cons c bs ih =>
    obtain ⟨hc, -, hw⟩ := hw
    intro b hb
    rcases List.mem_cons.1 hb with rfl | hb
    · have hbp : b.bp = bp := congrArg Block.bp hc
      rw [hbp]
      exact hc
    · exact ih hw b hb

/-- A block walked is free by its header. -/
theorem Heap.Walk.alloc_eq_false (hw : h.Walk bp bs e) {b : Block} (hb : b ∈ bs) :
    b.alloc = false ↔ h.getAlloc (hdrp b.bp) = 0 := by
  have halloc : b.alloc = decide (h.getAlloc (hdrp b.bp) ≠ 0) :=
    congrArg Block.alloc (Heap.Walk.blockAt h hw b hb)
  rw [halloc, decide_eq_false_iff_not, not_not]

/-- A word that is read has 32 bits. -/
theorem Heap.get_lt (h : Heap) (p : Nat) : h.get p < 2 ^ 32 := by
  have h0 := (h.mem p).toNat_lt
  have h1 := (h.mem (p + 1)).toNat_lt
  have h2 := (h.mem (p + 2)).toNat_lt
  have h3 := (h.mem (p + 3)).toNat_lt
  rw [Heap.get, load]
  omega

/-- A walk over the blocks that ends is shorter than the address space. -/
theorem Heap.Walk.length_lt (hw : h.Walk bp bs e) (hbp : bp < 2 ^ 32) : bs.length < 2 ^ 32 := by
  have hp := Heap.Walk.path h hw
  have := hp.length_lt (hp.lt hbp fun _ => Nat.mod_lt _ (Nat.two_pow_pos 32))
  rwa [List.length_map] at this

/-- A walk over the free list that ends is shorter than the address space. -/
theorem Heap.path_length_lt (hp : Path (· = 0) h.next p ps e) (hlt : p < 2 ^ 32) :
    ps.length < 2 ^ 32 :=
  hp.length_lt (hp.lt hlt fun _ => h.get_lt _)

/-- `free_listp` is an address. -/
theorem Heap.WellFormed.freeListp_lt (H : h.WellFormed bs fl) : h.freeListp < 2 ^ 32 := by
  have hlinks := H.links
  cases fl with
  | nil => exact Nat.lt_of_le_of_lt (Nat.le_of_eq hlinks) (Nat.two_pow_pos 32)
  | cons x fl =>
    rw [hlinks.1]
    exact Nat.lt_of_lt_of_le (Nat.lt_add_of_pos_right (by decide))
      ((H.layout.spaced H.listedIn).lt x List.mem_cons_self)

/-- `heap_listp` is an address. -/
theorem Heap.WellFormed.heapListp_lt (H : h.WellFormed bs fl) : h.heapListp < 2 ^ 32 := by
  have hlp := H.layout.listp
  have hbrk := H.layout.brk_lt
  have hle := H.layout.le_brk
  omega

/-! ## The checks -/

/-- One check reports its error, or nothing. -/
theorem Reports.check [Decidable c] (hm : m.isError = true) :
    Reports verbose (¬ c) (if c then [m] else []) := by
  split
  · next hc =>
    refine ⟨iff_of_false (fun hs => ?_) (not_not.2 hc), fun _ x hx => ?_⟩
    · rw [hs m List.mem_cons_self] at hm
      cases hm
    · rw [List.mem_singleton.1 hx, hm]
  · next hc => exact ⟨iff_of_true (by simp) hc, by simp⟩

/-- A line that is printed only when asked for is no error. -/
theorem Reports.info (hm : m.isError = false) :
    Reports verbose True (if verbose then [m] else []) := by
  cases verbose <;> exact ⟨by simp [hm], by simp⟩

/-- Nothing is reported where nothing is checked. -/
theorem Reports.nil : Reports verbose True [] := ⟨by simp, by simp⟩

/-- Two checks, one after the other. -/
theorem Reports.append (h : Reports verbose P out) (h' : Reports verbose Q out') :
    Reports verbose (P ∧ Q) (out ++ out') := by
  refine ⟨?_, fun hv => List.forall_mem_append.2 ⟨h.errors hv, h'.errors hv⟩⟩
  rw [List.forall_mem_append, h.silent, h'.silent]

/-- What is checked may be said in other words. -/
theorem Reports.congr (h : Reports verbose P out) (hPQ : P ↔ Q) : Reports verbose Q out :=
  ⟨h.silent.trans hPQ, h.errors⟩

/-- The search of a list that ends finds its members. -/
theorem Heap.inFreelistFrom_eq (hp : Path (· = 0) h.next p ps e) (hf : ps.length < fuel) :
    h.inFreelistFrom bp fuel p = some (decide (bp ∈ ps)) := by
  induction ps generalizing p fuel with
  | nil =>
    obtain ⟨fuel, rfl⟩ := Nat.exists_eq_succ_of_ne_zero (Nat.ne_of_gt hf)
    rw [Heap.inFreelistFrom, if_pos hp.2]
    rfl
  | cons x ps ih =>
    obtain ⟨rfl, hx, hp⟩ := hp
    obtain ⟨fuel, rfl⟩ := Nat.exists_eq_succ_of_ne_zero (Nat.ne_of_gt (Nat.zero_lt_of_lt hf))
    rw [Heap.inFreelistFrom, if_neg hx]
    split
    · next hpb => rw [hpb, decide_eq_true List.mem_cons_self]
    · next hpb =>
      rw [ih hp (Nat.lt_of_succ_lt_succ hf)]
      simp [Ne.symm hpb]

/-- What `checkblock` reports. -/
theorem Heap.checkblock_reports (verbose : Bool) (hin : h.inFreelist bp = some (decide (bp ∈ ps))) :
    ∃ out, h.checkblock bp = some out ∧ Reports verbose (h.Checked ps bp) out := by
  have haligned : Reports verbose (¬ bp % 8 ≠ 0)
      (if bp % 8 ≠ 0 then [.notAligned bp] else []) := .check rfl
  have htags : Reports verbose (¬ h.get (hdrp bp) ≠ h.get (h.ftrp bp))
      (if h.get (hdrp bp) ≠ h.get (h.ftrp bp) then [.tagsDiffer] else []) := .check rfl
  rw [Heap.checkblock, hin]
  split
  · next ha =>
    have hcontiguous : Reports verbose
        (¬ (h.getAlloc (hdrp (h.prevBlkp bp)) = 0 ∨ h.getAlloc (hdrp (h.nextBlkp bp)) = 0))
        (if h.getAlloc (hdrp (h.prevBlkp bp)) = 0 ∨ h.getAlloc (hdrp (h.nextBlkp bp)) = 0 then
          [.contiguous bp] else []) := .check rfl
    have hlisted : Reports verbose (bp ∈ ps)
        (if decide (bp ∈ ps) then [] else [.notListed bp]) := by
      have : Reports verbose (¬ bp ∉ ps) (if bp ∉ ps then [.notListed bp] else []) := .check rfl
      simpa using this
    refine ⟨_, rfl, ((haligned.append htags).append hcontiguous).append hlisted |>.congr ?_⟩
    constructor
    · rintro ⟨⟨⟨h8, ht⟩, hc⟩, hl⟩
      rw [not_or] at hc
      exact ⟨not_not.1 h8, not_not.1 ht, fun _ => ⟨hc.1, hc.2, hl⟩⟩
    · intro H
      obtain ⟨hp, hn, hl⟩ := H.free ha
      exact ⟨⟨⟨not_not.2 H.aligned, not_not.2 H.tags⟩, not_or.2 ⟨hp, hn⟩⟩, hl⟩
  · next ha =>
    refine ⟨_, rfl, (haligned.append htags).congr ?_⟩
    constructor
    · rintro ⟨h8, ht⟩
      exact ⟨not_not.1 h8, not_not.1 ht, fun h0 => absurd h0 ha⟩
    · exact fun H => ⟨not_not.2 H.aligned, not_not.2 H.tags⟩

/-- What the check of a link reports. -/
theorem Heap.checkpointer_reports : Reports verbose (h.Points q) (h.checkpointer q) := by
  unfold Heap.checkpointer Heap.Points
  split
  · next h0 =>
    have hbounds : Reports verbose (¬ (q < h.memHeapLo ∨ h.memHeapHi < q))
        (if q < h.memHeapLo ∨ h.memHeapHi < q then [.outOfBounds q] else []) := .check rfl
    have hfree : Reports verbose (¬ h.getAlloc (hdrp q) ≠ 0)
        (if h.getAlloc (hdrp q) ≠ 0 then [.allocated q] else []) := .check rfl
    refine (hbounds.append hfree).congr ?_
    rw [not_or, not_not, Nat.not_lt, Nat.not_lt, and_assoc]
    exact ⟨fun H _ => H, fun H => H h0⟩
  · next h0 => exact Reports.nil.congr (iff_of_true trivial fun hq => absurd hq h0)

/-- What the walk over the free list reports. -/
theorem Heap.checkList_reports (verbose : Bool) (hp : Path (· = 0) h.next p ps e)
    (hf : ps.length < fuel) : ∃ out, h.checkList fuel p = some out ∧
      Reports verbose (∀ x ∈ ps, h.CheckedFree x) out := by
  induction ps generalizing p fuel with
  | nil =>
    obtain ⟨fuel, rfl⟩ := Nat.exists_eq_succ_of_ne_zero (Nat.ne_of_gt hf)
    exact ⟨[], if_pos hp.2, Reports.nil.congr (by simp)⟩
  | cons x ps ih =>
    obtain ⟨rfl, hx, hp⟩ := hp
    obtain ⟨fuel, rfl⟩ := Nat.exists_eq_succ_of_ne_zero (Nat.ne_of_gt (Nat.zero_lt_of_lt hf))
    obtain ⟨rest, hr, hrest⟩ := ih hp (Nat.lt_of_succ_lt_succ hf)
    have hfree : Reports verbose (¬ h.getAlloc p ≠ 0)
        (if h.getAlloc p ≠ 0 then [.notFree p] else []) := .check rfl
    have hlinks : Reports verbose (h.Points (h.prev p) ∧ h.Points (h.next p))
        (h.checkfreeblock p) := Heap.checkpointer_reports.append Heap.checkpointer_reports
    refine ⟨_, by rw [Heap.checkList, if_neg hx, hr, Option.map_some],
      ((hfree.append hlinks).append hrest).congr ?_⟩
    rw [List.forall_mem_cons]
    refine and_congr_left fun _ => ?_
    exact ⟨fun H => ⟨not_not.1 H.1, H.2.1, H.2.2⟩, fun H => ⟨not_not.2 H.free, H.prev, H.next⟩⟩

/-- What the walk over the blocks reports. -/
theorem Heap.checkBlocks_reports (verbose : Bool) (hw : h.Walk bp bs e)
    (hin : ∀ bp, h.inFreelist bp = some (decide (bp ∈ ps))) (hf : bs.length < fuel) :
    ∃ out, h.checkBlocks verbose fuel bp = some (out, e) ∧
      Reports verbose (∀ b ∈ bs, h.Checked ps b.bp) out := by
  induction bs generalizing bp fuel with
  | nil =>
    obtain ⟨rfl, hs⟩ := hw
    obtain ⟨fuel, rfl⟩ := Nat.exists_eq_succ_of_ne_zero (Nat.ne_of_gt hf)
    refine ⟨[], ?_, Reports.nil.congr (by simp)⟩
    rw [Heap.checkBlocks, if_neg (by omega)]
  | cons b bs ih =>
    obtain ⟨rfl, hs, hw⟩ := hw
    obtain ⟨fuel, rfl⟩ := Nat.exists_eq_succ_of_ne_zero (Nat.ne_of_gt (Nat.zero_lt_of_lt hf))
    obtain ⟨rest, hr, hrest⟩ := ih hw (Nat.lt_of_succ_lt_succ hf)
    obtain ⟨out, ho, hout⟩ := Heap.checkblock_reports verbose (hin bp)
    have hsize : 0 < h.getSize (hdrp bp) := Nat.pos_of_ne_zero hs
    have hinfo : Reports verbose True (if verbose then [h.printblock bp] else []) :=
      .info (by unfold Heap.printblock; dsimp only; split <;> rfl)
    refine ⟨_, by rw [Heap.checkBlocks, if_pos hsize, ho, Option.bind_some, hr, Option.map_some],
      ((hinfo.append hout).append hrest).congr ?_⟩
    rw [List.forall_mem_cons, true_and]
    rfl

/-- **The checker** ends where the walks do, and prints no error exactly when the heap passes. -/
theorem Heap.mmCheckheap_reports (hw : h.Walk h.heapListp bs e)
    (hp : Path (· = 0) h.next h.freeListp ps 0) (hheap : h.heapListp < 2 ^ 32)
    (hfree : h.freeListp < 2 ^ 32) (verbose : Bool) :
    ∃ out, h.mmCheckheap verbose = some out ∧ Reports verbose (h.Passes bs e ps) out := by
  have hin : ∀ bp, h.inFreelist bp = some (decide (bp ∈ ps)) := fun bp =>
    Heap.inFreelistFrom_eq hp (Heap.path_length_lt hp hfree)
  have hend : h.getSize (hdrp e) = 0 := (Heap.Walk.path h hw).stop_end
  obtain ⟨first, hf, hfirst⟩ := Heap.checkblock_reports verbose (hin h.heapListp)
  obtain ⟨blocks, hb, hblocks⟩ := Heap.checkBlocks_reports verbose hw hin
    (Heap.Walk.length_lt hw hheap)
  obtain ⟨list, hl, hlist⟩ := Heap.checkList_reports verbose hp
    (Heap.path_length_lt hp hfree)
  have hprologue : Reports verbose
      (¬ (h.getSize (hdrp h.heapListp) ≠ dsize ∨ h.getAlloc (hdrp h.heapListp) = 0))
      (if h.getSize (hdrp h.heapListp) ≠ dsize ∨ h.getAlloc (hdrp h.heapListp) = 0 then
        [.badPrologue] else []) := .check rfl
  have hepilogue : Reports verbose (¬ (h.getSize (hdrp e) ≠ 0 ∨ h.getAlloc (hdrp e) = 0))
      (if h.getSize (hdrp e) ≠ 0 ∨ h.getAlloc (hdrp e) = 0 then [.badEpilogue] else []) :=
    .check rfl
  have hinfo : Reports verbose True (if verbose then [.heap h.heapListp] else []) := .info rfl
  have hlast : Reports verbose True (if verbose then [h.printblock e] else []) :=
    .info (by unfold Heap.printblock; dsimp only; split <;> rfl)
  refine ⟨_, by rw [Heap.mmCheckheap, hl, hf, Option.bind_some, hb, Option.bind_some]; rfl,
    ((((((hinfo.append hprologue).append hfirst).append hblocks).append hlast).append
      hepilogue).append hlist).congr ?_⟩
  rw [not_or, not_or, not_not, hend]
  constructor
  · rintro ⟨⟨⟨⟨⟨⟨-, h1⟩, h2⟩, h3⟩, -⟩, h4⟩, h5⟩
    exact ⟨h1, h2, h3, h4.2, h5⟩
  · exact fun H => ⟨⟨⟨⟨⟨⟨trivial, H.prologue⟩, H.first⟩, H.blocks⟩, trivial⟩,
      not_not.2 rfl, H.epilogue⟩, H.list⟩

/-! ## What the checker detects -/

/-- A free block that passes has no free block after it. -/
theorem Heap.Walk.merged (hw : h.Walk bp bs e) (hc : ∀ b ∈ bs, h.Checked ps b.bp) : Merged bs := by
  induction bs generalizing bp with
  | nil => exact .nil
  | cons b bs ih =>
    have hfree := Heap.Walk.alloc_eq_false hw List.mem_cons_self
    obtain ⟨rfl, -, hw⟩ := hw
    obtain ⟨hb, hbs⟩ := List.forall_mem_cons.1 hc
    refine List.isChain_cons.2 ⟨fun n hn => ?_, ih hw hbs⟩
    cases bs with
    | nil => cases hn
    | cons n' bs =>
      obtain rfl := Option.some.inj hn
      have hnext := Heap.Walk.alloc_eq_false hw List.mem_cons_self
      have hnbp : n'.bp = h.nextBlkp bp := congrArg Block.bp hw.1
      by_contra hno
      rw [not_or, Bool.not_eq_true, Bool.not_eq_true, hfree, hnext, hnbp] at hno
      exact (hb.free hno.1).2.1 hno.2

/-- Where the checker is silent, only the header of the first listed block is left to be checked. -/
theorem Heap.Passes.consistent_iff (H : h.Passes bs e ps) (hw : h.Walk bp bs e)
    (hp : Path (· = 0) h.next h.freeListp ps 0) :
    h.Consistent bs ps ↔ (h.freeListp ≠ 0 → h.getAlloc (hdrp h.freeListp) = 0) := by
  constructor
  · intro C h0
    cases ps with
    | nil => exact absurd hp.1 h0
    | cons p ps => exact hp.1 ▸ C.free p List.mem_cons_self
  · intro hhead
    refine ⟨fun b hb => ⟨(H.blocks b hb).aligned, (H.blocks b hb).tags⟩, hw.merged H.blocks,
      fun b hb ha => ((H.blocks b hb).free ((hw.alloc_eq_false hb).1 ha)).2.2, fun p hps => ?_⟩
    have h0 := hp.not_stop p hps
    rcases hp.start_or_next p (List.mem_cons_of_mem _ hps) with rfl | ⟨q, hq, rfl⟩
    · exact hhead h0
    · exact ((H.list q hq).next h0).2.2

/-- **What the checker detects.** On every memory in which the walk over the blocks reaches a header
of size 0 and the walk over the free list ends, `mm_checkheap` returns. When it reports no error,
what it promises holds exactly if the header of the first listed block, if there is one, has its
allocated bit clear. -/
theorem checkheap_detects_iff (hw : h.Walk h.heapListp bs e)
    (hp : Path (· = 0) h.next h.freeListp ps 0) (hheap : h.heapListp < 2 ^ 32)
    (hfree : h.freeListp < 2 ^ 32) (verbose : Bool) :
    ∃ out, h.mmCheckheap verbose = some out ∧ ((∀ m ∈ out, m.isError = false) →
      (h.Consistent bs ps ↔ (h.freeListp ≠ 0 → h.getAlloc (hdrp h.freeListp) = 0))) := by
  obtain ⟨out, ho, hout⟩ := Heap.mmCheckheap_reports hw hp hheap hfree verbose
  exact ⟨out, ho, fun hs => (hout.silent.1 hs).consistent_iff hw hp⟩

/-- After `mm_init` on zeroed storage at address 8, four blocks are allocated and two of them freed,
so that three blocks are listed. -/
theorem checkheap_detects_iff_three : ∃ h s bs out,
    (memInit (fun _ => 0) 8).memResetBrk.mmInit = (0, h) ∧
      exec Session.step ⟨h, []⟩ [.malloc 100, .malloc 100, .malloc 100, .malloc 100, .free 24,
        .free 248] = some s ∧
      s.heap.Sound bs [248, 24, 472] ∧ s.heap.mmCheckheap true = some out ∧
      ((∀ m ∈ out, m.isError = false) →
        (s.heap.Consistent (s.heap.prologue :: bs) [248, 24, 472] ↔
          (s.heap.freeListp ≠ 0 → s.heap.getAlloc (hdrp s.heap.freeListp) = 0))) := by
  obtain ⟨l, hl, hlist⟩ : ∃ l, exec Ledger.step (.init 8 (8 + maxHeap)) [.malloc 100, .malloc 100,
      .malloc 100, .malloc 100, .free 24, .free 248] = some l ∧ l.shape.list = [248, 24, 472] :=
    ⟨_, rfl, by decide +kernel⟩
  obtain ⟨h, s, hi, hs, F⟩ := memInit_zero_exec hl
  have H := F.inv.wellFormed
  rw [hlist] at H
  obtain ⟨out, ho, hout⟩ := checkheap_detects_iff H.sound.walk (Seg.path H.links) H.heapListp_lt
    H.freeListp_lt true
  exact ⟨h, s, _, out, hi, hs, H.sound, ho, hout⟩

/-- The only block of the heap is allocated and on the free list, and nothing is printed. -/
theorem checkheap_listed_allocated :
    let h := oneBlock.setFreeListp 24
    h.Walk h.heapListp [⟨16, 8, true⟩, ⟨24, 4096, true⟩] 4120 ∧
      Path (· = 0) h.next h.freeListp [24] 0 ∧ h.mmCheckheap false = some [] ∧
      ¬ h.Consistent [⟨16, 8, true⟩, ⟨24, 4096, true⟩] [24] := by
  intro h
  have hhead : h.getAlloc (hdrp 24) = 1 := by decide +kernel
  refine ⟨?_, ?_, by decide +kernel, fun C => ?_⟩
  · exact ⟨by decide +kernel, by decide +kernel, by decide +kernel, by decide +kernel,
      by decide +kernel, by decide +kernel⟩
  · exact ⟨rfl, by decide, by decide +kernel, by decide +kernel⟩
  · have := C.free 24 (List.mem_singleton_self _)
    rw [hhead] at this
    cases this

/-! ## Heaps of a session -/

/-- Next to a free block, at either end of the heap too, stands an allocated one. -/
theorem Heap.WellFormed.neighbours {pre post : List Block} {b : Block}
    (H : h.WellFormed (pre ++ b :: post) fl) (hb : b.alloc = false) :
    (h.before pre).alloc = true ∧ (h.after post).alloc = true := by
  obtain ⟨-, hpost, hpre⟩ := List.isChain_append.1 H.merged
  constructor
  · rcases List.eq_nil_or_concat pre with rfl | ⟨pre, p, rfl⟩
    · rfl
    · rw [List.concat_eq_append] at hpre ⊢
      rw [Heap.before_concat]
      have hpb := hpre p (by simp) b rfl
      rw [hb] at hpb
      exact hpb.resolve_right Bool.false_ne_true
  · cases post with
    | nil => rfl
    | cons n post => exact Merged.after hpost hb n rfl

/-- A block of a well-formed heap passes its check. -/
theorem Heap.WellFormed.checked (H : h.WellFormed bs fl) {b : Block} (hb : b ∈ bs) :
    h.Checked fl b.bp := by
  have hl := H.layout
  refine ⟨hl.bp_mod.1 b hb, (H.sound.user b hb).2.2.2, fun ha => ?_⟩
  have hfree : b.alloc = false := by
    rw [hl.getAlloc hb] at ha
    exact Bool.toNat_eq_zero.1 ha
  have hlist := H.mem_list hb hfree
  obtain ⟨pre, post, rfl⟩ := List.append_of_mem hb
  obtain ⟨hpre, hpost⟩ := H.neighbours hfree
  rw [hl.prev_header_alloc, hl.next_alloc, hpre, hpost]
  exact ⟨Nat.one_ne_zero, Nat.one_ne_zero, hlist⟩

/-- A link word of a listed block points to nothing or to a listed block. -/
theorem Heap.WellFormed.points (H : h.WellFormed bs fl) (hq : q = 0 ∨ q ∈ fl) : h.Points q := by
  intro h0
  obtain ⟨d, hd, hfree, rfl⟩ := H.mem_free q (hq.resolve_left h0)
  have hB := H.layout.bounds hd
  have hlo := hB.lo
  have hhi := hB.hi
  have hsize := hB.size
  have hroom := hB.listp
  have hlp := H.layout.listp
  refine ⟨?_, ?_, ?_⟩
  · change h.memStartBrk ≤ d.bp
    omega
  · change d.bp ≤ wsub h.memBrk 1
    rw [wsub_of_le (by omega)]
    omega
  · rw [H.layout.getAlloc hd, hfree]
    rfl

/-- The word the second loop tests is a link, and the links are aligned. -/
theorem Heap.WellFormed.checkedFree (H : h.WellFormed bs fl) (hp : p ∈ fl) : h.CheckedFree p := by
  have hprev : h.prev p = 0 ∨ h.prev p ∈ fl := H.links.prev_mem hp
  refine ⟨?_, H.points hprev, H.points (H.links.next_mem hp)⟩
  change h.prev p % 2 = 0
  rcases hprev with h0 | hm
  · rw [h0]
  · obtain ⟨d, hd, -, hbp⟩ := H.mem_free _ hm
    have h8 := H.layout.bp_mod.1 d hd
    omega

/-- **The checker passes a well-formed heap.** -/
theorem Heap.WellFormed.passes (H : h.WellFormed bs fl) :
    h.Passes (h.prologue :: bs) h.memBrk fl := by
  have hl := H.layout
  have hlp := hl.listp
  have hbrk := hl.brk_lt
  have hle := hl.le_brk
  have hw : h.get (h.heapListp - 4) = h.prologue.word := hl.prologue.header
  have hm : h.prologue.size % 8 = 0 := Nat.mod_self 8
  have halloc : h.getAlloc (hdrp h.heapListp) = 1 :=
    Heap.getAlloc_of_header hw hm (by omega)
  have hfirst : h.Checked fl h.heapListp := by
    refine ⟨?_, ?_, fun h0 => ?_⟩
    · have := hl.aligned
      omega
    · rw [hdrp_eq (by omega), hw, Heap.ftrp_of_header hw hm (by omega)
        (show h.heapListp + 8 < 2 ^ 32 by omega) (show 8 ≤ h.heapListp + 8 by omega)]
      exact hl.prologue.footer.symm
    · rw [halloc] at h0
      cases h0
  refine ⟨⟨?_, ?_⟩, hfirst, List.forall_mem_cons.2 ⟨hfirst, fun b hb => H.checked hb⟩, ?_, ?_⟩
  · exact Heap.getSize_of_header hw hm (by omega)
  · rw [halloc]
    exact Nat.one_ne_zero
  · rw [Heap.getAlloc, H.sound.epilogue]
    decide
  · exact fun p hp => H.checkedFree hp

end

section
variable {s : Session}

/-- **No false alarm.** In every state a session reaches, `mm_checkheap(0)` ends and prints
nothing. -/
theorem checkheap_silent {h₀ h : Heap} (hstart : h₀.memStartBrk % 8 = 0)
    (haddr : h₀.memMaxAddr < 2 ^ 32) (hi : h₀.memResetBrk.mmInit = (0, h))
    (hr : Reachable Session.step ⟨h, []⟩ s) : s.heap.mmCheckheap false = some [] := by
  obtain ⟨bs, fl, I⟩ := hr.invariant (I := fun s => ∃ bs fl, s.Inv bs fl)
    (Session.inv_init hstart haddr hi) Session.Inv.step
  have H := I.wellFormed
  obtain ⟨out, ho, hout⟩ := Heap.mmCheckheap_reports H.sound.walk (Seg.path H.links) H.heapListp_lt
    H.freeListp_lt false
  have hsilent := hout.silent.2 H.passes
  have hnil : out = [] := List.eq_nil_iff_forall_not_mem.2 fun m hm =>
    Bool.false_ne_true ((hsilent m hm).symm.trans (hout.errors rfl m hm))
  rw [ho, hnil]

/-- After `mm_init` on zeroed storage at address 8, two blocks of 100 bytes are allocated and the
first is freed. -/
theorem checkheap_silent_free : ∃ h s, (memInit (fun _ => 0) 8).memResetBrk.mmInit = (0, h) ∧
    exec Session.step ⟨h, []⟩ [.malloc 100, .malloc 100, .free 24] = some s ∧
    s.heap.mmCheckheap false = some [] := by
  obtain ⟨l, hl⟩ : ∃ l, exec Ledger.step (.init 8 (8 + maxHeap))
      [.malloc 100, .malloc 100, .free 24] = some l := ⟨_, rfl⟩
  obtain ⟨h, s, hi, hs, -⟩ := memInit_zero_exec hl
  exact ⟨h, s, hi, hs, checkheap_silent rfl (by decide) hi (Reachable.exec .start hs)⟩

end

end Malloc
