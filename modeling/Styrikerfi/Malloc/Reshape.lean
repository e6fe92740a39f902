import Styrikerfi.Malloc.Contract

/-!
# Reallocation of the abstract heap

`Shape.realloc` is `mm_realloc` on a block and a positive size, without memory: which branch is
taken depends on the sizes of the block and its free neighbours alone (`branch`), and so do the
pointer returned, the break and the free list afterwards. The heap follows it
(`Heap.Has.mmRealloc`), the extension of the heap included, and the contents move along. There are
three ways to come out: a pointer, the exit of the program when no block is found, and the damaged
heap that an extension leaves when no block is left of the chunk.
-/

namespace Malloc

open Machine32 Tiling LinkedList

/-! ## The operation on shapes -/

/-- The bytes of a list of blocks. -/
def room (mid : List Block) : Nat := (mid.map Block.size).sum

/-- The branch of `mm_realloc` for a block between `pre` and `post` that is to have `newsize`
bytes. -/
def branch (pre : List Block) (b : Block) (post : List Block) (newsize : Nat) : Branch :=
  if newsize = b.size then .unchanged
  else if newsize + minimum ≤ b.size then .shrink
  else if b.size < newsize ∧ newsize ≤ b.size + room (freeHead post) then .absorbNext
  else if b.size < newsize ∧ newsize ≤ b.size + room (freeLast pre) then .absorbPrev
  else if b.size < newsize ∧ newsize ≤ b.size + (room (freeLast pre) + room (freeHead post)) then
    .absorbBoth
  else if b.size < newsize ∧ post = [] then .extend
  else .mallocCopyFree

/-- The block takes over the neighbours `l` and `r`, which leave the list. -/
def Shape.absorb (pre l : List Block) (b : Block) (r post : List Block) (fl : List Nat) :
    Shape where
  blocks := pre ++ Block.absorb (l ++ b :: r) :: post
  list := fl.diff ((l ++ r).map Block.bp)

/-- How a reallocation comes out. -/
inductive Resized where
  /-- the pointer returned, the break and the heap after it -/
  | ret (p brk : Nat) (s : Shape)
  /-- there is no block to move to -/
  | exit
  /-- no block is left of the chunk the heap was extended by -/
  | damaged
  deriving DecidableEq

/-- `mm_realloc` of the block `b` between `pre` and `post`, under the break `brk` and its limit. -/
def Shape.resize (pre : List Block) (b : Block) (post : List Block) (fl : List Nat)
    (brk limit size : Nat) : Resized :=
  let newsize := adjust size
  match branch pre b post newsize with
  | .unchanged => .ret b.bp brk ⟨pre ++ b :: post, fl⟩
  | .shrink => .ret b.bp brk (.coalesce (pre ++ [b.head newsize]) (b.rest newsize) post fl)
  | .absorbNext => .ret b.bp brk (.absorb pre [] b (freeHead post) (post.drop 1) fl)
  | .absorbPrev =>
    .ret (Block.absorb (freeLast pre ++ [b])).bp brk
      (.absorb pre.dropLast (freeLast pre) b [] post fl)
  | .absorbBoth =>
    .ret (Block.absorb (freeLast pre ++ b :: freeHead post)).bp brk
      (.absorb pre.dropLast (freeLast pre) b (freeHead post) (post.drop 1) fl)
  | .extend =>
    if brk + chunksize ≤ limit then
      if newsize + minimum ≤ b.size + chunksize then
        .ret b.bp (brk + chunksize)
          (.coalesce (pre ++ [b.grown newsize]) (b.leftover newsize).freed [] fl)
      else .damaged
    else .ret 0 brk ⟨pre ++ b :: post, fl⟩
  | .mallocCopyFree =>
    let r := Shape.malloc ⟨pre ++ b :: post, fl⟩ brk limit size
    if r.1 = 0 then .exit else .ret r.1 r.2.1 (r.2.2.free b.bp)

/-- `mm_realloc` -/
def Shape.realloc (s : Shape) (brk limit ptr size : Nat) : Resized :=
  match locate ptr s.blocks with
  | some (pre, b, post) => Shape.resize pre b post s.list brk limit size
  | none => .ret 0 brk s

section
variable {h h' g : Heap} {s : Shape} {bs pre post : List Block} {a b n p u : Block} {fl : List Nat}
  {k size newsize : Nat}

/-! ## The branch taken -/

@[simp] theorem room_nil : room [] = 0 := rfl
@[simp] theorem room_singleton : room [b] = b.size := by simp [room]

/-- A free block at the end is the one there. -/
theorem freeLast_concat (hp : p.alloc = false) : freeLast (pre ++ [p]) = [p] := by
  simp [freeLast, hp]

/-- A free block at the beginning is the one there. -/
theorem freeHead_cons (hn : n.alloc = false) : freeHead (n :: post) = [n] := by
  simp [freeHead, hn]

/-- The block after is free and has `k` bytes. -/
theorem Heap.Layout.next_room (hl : h.Layout (pre ++ b :: post)) (hk : 0 < k) :
    h.getAlloc (hdrp (h.nextBlkp b.bp)) = 0 ∧ k ≤ h.getSize (hdrp (h.nextBlkp b.bp)) ↔
      k ≤ room (freeHead post) := by
  rw [hl.next_alloc, hl.next_size, Bool.toNat_eq_zero]
  cases ha : (h.after post).alloc with
  | true =>
    rw [freeHead_eq_nil ha, room_nil]
    exact iff_of_false (fun hno => absurd hno.1 (by decide)) (by omega)
  | false =>
    obtain ⟨n, post', rfl, hn⟩ := after_free ha
    rw [freeHead_cons hn, room_singleton, Heap.after_cons]
    exact ⟨And.right, fun hle => ⟨rfl, hle⟩⟩

/-- The block before is free and has `k` bytes. -/
theorem Heap.Layout.prev_room (hl : h.Layout (pre ++ b :: post)) (hk : 0 < k) :
    h.getAlloc (hdrp (h.prevBlkp b.bp)) = 0 ∧ k ≤ h.getSize (hdrp (h.prevBlkp b.bp)) ↔
      k ≤ room (freeLast pre) := by
  rw [hl.prev_header_alloc, hl.prev_size, Bool.toNat_eq_zero]
  cases ha : (h.before pre).alloc with
  | true =>
    rw [freeLast_eq_nil ha, room_nil]
    exact iff_of_false (fun hno => absurd hno.1 (by decide)) (by omega)
  | false =>
    obtain ⟨pre', p, rfl, hp⟩ := before_free ha
    rw [freeLast_concat hp, room_singleton, Heap.before_concat]
    exact ⟨And.right, fun hle => ⟨rfl, hle⟩⟩

/-- Neither neighbour has `k` bytes, but both are free and have them together. -/
theorem Heap.Layout.both_room (hl : h.Layout (pre ++ b :: post))
    (hn : ¬ k ≤ room (freeHead post)) (hp : ¬ k ≤ room (freeLast pre)) :
    h.getAlloc (hdrp (h.prevBlkp b.bp)) = 0 ∧ h.getAlloc (hdrp (h.nextBlkp b.bp)) = 0 ∧
        k ≤ wadd (h.getSize (hdrp (h.prevBlkp b.bp))) (h.getSize (hdrp (h.nextBlkp b.bp))) ↔
      k ≤ room (freeLast pre) + room (freeHead post) := by
  rw [hl.next_alloc, hl.next_size, hl.prev_header_alloc, hl.prev_size, Bool.toNat_eq_zero,
    Bool.toNat_eq_zero]
  cases hpa : (h.before pre).alloc with
  | true =>
    rw [freeLast_eq_nil hpa, room_nil]
    exact iff_of_false (fun hno => absurd hno.1 (by decide)) (by omega)
  | false =>
    cases hna : (h.after post).alloc with
    | true =>
      rw [freeHead_eq_nil hna, room_nil]
      exact iff_of_false (fun hno => absurd hno.2.1 (by decide)) (by omega)
    | false =>
      obtain ⟨pre', p, rfl, hpf⟩ := before_free hpa
      obtain ⟨n, post', rfl, hnf⟩ := after_free hna
      have hpb : p.bp + p.size = b.bp := by simpa using hl.before.2.1
      have hnb : n.bp = b.bp + b.size := hl.after.2.1
      have := (hl.bounds (b := n) (by simp)).hi; have := (hl.bounds (b := n) (by simp)).brk
      rw [freeLast_concat hpf, freeHead_cons hnf, room_singleton, room_singleton,
        Heap.before_concat, Heap.after_cons, wadd_of_lt (by omega)]
      exact ⟨fun hle => hle.2.2, fun hle => ⟨rfl, rfl, hle⟩⟩

/-- Only the epilogue has the size 0. -/
theorem Heap.Layout.next_end (hl : h.Layout (pre ++ b :: post)) :
    h.getSize (hdrp (h.nextBlkp b.bp)) = 0 ↔ post = [] := by
  rw [hl.next_size]
  cases post with
  | nil => exact ⟨fun _ => rfl, fun _ => rfl⟩
  | cons n post =>
    have := (hl.bounds (b := n) (by simp)).size
    rw [Heap.after_cons]
    exact ⟨fun hz => absurd hz (by omega), fun hp => absurd hp (by simp)⟩

/-- **The branch** that `mm_realloc` takes is read off the sizes of the block and its neighbours. -/
theorem Heap.Layout.reallocBranch_eq (hl : h.Layout (pre ++ b :: post))
    (hlt : newsize + 16 < 2 ^ 32) :
    h.reallocBranch b.bp newsize b.size = branch pre b post newsize := by
  have hadd : wadd newsize minimum = newsize + minimum := wadd_of_lt hlt
  unfold Heap.reallocBranch branch
  dsimp only
  rw [hadd]
  refine if_congr Iff.rfl rfl (if_congr Iff.rfl rfl ?_)
  by_cases hgrow : b.size < newsize
  · have hk : 0 < newsize - b.size := by omega
    have hsub : wsub newsize b.size = newsize - b.size := wsub_of_le (by omega)
    have hroom : ∀ r, newsize ≤ b.size + r ↔ newsize - b.size ≤ r := fun r => by omega
    simp only [hgrow, true_and, hsub, hroom, hl.next_room hk, hl.prev_room hk, hl.next_end]
    by_cases hn : newsize - b.size ≤ room (freeHead post)
    · rw [if_pos hn, if_pos hn]
    by_cases hp : newsize - b.size ≤ room (freeLast pre)
    · rw [if_neg hn, if_neg hn, if_pos hp, if_pos hp]
    rw [if_neg hn, if_neg hn, if_neg hp, if_neg hp]
    exact if_congr (hl.both_room hn hp) rfl rfl
  · simp only [hgrow, false_and, if_false]

/-! ## The heap follows the shape -/

/-- The branch into the block after leaves the break. -/
theorem Heap.SameFrame.reallocAbsorbNext (h : Heap) (ptr newsize copySize : Nat) :
    h.SameFrame (h.reallocAbsorbNext ptr newsize copySize) :=
  (SameFrame.removeBlock ..).trans ((SameFrame.put ..).trans (.put ..))

/-- A copy leaves the break. -/
theorem Heap.SameFrame.memcpy (h : Heap) (dst src n : Nat) : h.SameFrame (h.memcpy dst src n) :=
  ⟨rfl, rfl, rfl, rfl, rfl⟩

/-- The branch into the block before leaves the break. -/
theorem Heap.SameFrame.reallocAbsorbPrev (h : Heap) (ptr newsize copySize : Nat) :
    h.SameFrame (h.reallocAbsorbPrev ptr newsize copySize).2 :=
  (SameFrame.removeBlock ..).trans ((SameFrame.put ..).trans ((SameFrame.put ..).trans
    (.memcpy ..)))

/-- The branch into both neighbours leaves the break. -/
theorem Heap.SameFrame.reallocAbsorbBoth (h : Heap) (ptr newsize copySize : Nat) :
    h.SameFrame (h.reallocAbsorbBoth ptr newsize copySize).2 :=
  (SameFrame.removeBlock ..).trans ((SameFrame.removeBlock ..).trans ((SameFrame.put ..).trans
    ((SameFrame.put ..).trans (.memcpy ..))))

/-- The outcome of `mm_realloc` on the block `b`, with the other allocated blocks `others`, is the
one on the shape. -/
inductive Heap.Follows (h : Heap) (others : List Block) (b : Block) (size : Nat) :
    Resized → Option Outcome → Prop
  | moved {p brk : Nat} {s : Shape} {h' : Heap} (hp : p ≠ 0) (hhas : h'.Has s)
      (hframe : Heap.SameFrame { h with memBrk := brk } h')
      (hre : h.Reallocated others size p h') (hmv : h.Moved h' b.bp p (min (b.size - 8) size)) :
      Follows h others b size (.ret p brk s) (some (.ret p h'))
  | refused {s : Shape} (hhas : h.Has s) :
      Follows h others b size (.ret 0 h.memBrk s) (some (.ret 0 h))
  | exit : Follows h others b size .exit (some (.exit 1 h))
  | damaged {o : Outcome} (hno : ¬ Heap.Grown b.bp size (some o)) :
      Follows h others b size .damaged (some o)

/-- The block that is copied to is allocated, and the old one is freed. -/
theorem Heap.Has.reallocMove (H : h.Has ⟨pre ++ b :: post, fl⟩) (hb : b.alloc = true)
    (hlt : size < 2 ^ 31) {r : Nat × Nat × Shape}
    (hr : Shape.malloc ⟨pre ++ b :: post, fl⟩ h.memBrk h.memMaxAddr size = r) :
    h.Follows (allocs pre ++ allocs post) b size
      (if r.1 = 0 then .exit else .ret r.1 r.2.1 (r.2.2.free b.bp))
      (h.reallocMove b.bp size b.size) := by
  obtain ⟨p, brk, t⟩ := r
  obtain ⟨g, hm, hframe, hhas⟩ := H.mmMalloc hlt
  rw [hr] at hm hframe hhas
  dsimp only at hm hframe hhas ⊢
  rcases Heap.WellFormed.mmMalloc H (show size + 15 < 2 ^ 32 by omega) with
    hnull | ⟨a, g', bs', fl', hp, hp0, A⟩
  · cases hm.symm.trans hnull
    rw [if_pos rfl, Heap.reallocMove_null hnull]
    exact .exit
  cases hm.symm.trans hp
  rw [if_neg hp0]
  obtain ⟨rfl, rfl⟩ := A.wellFormed.unique hhas
  -- the new block is written to, and the old one is still there
  have hold : b ∈ allocs t.blocks := A.added.mem_iff.2 (List.mem_cons_of_mem _ (by
    rw [allocs_append, allocs_cons_alloc hb]
    simp))
  have ham : a ∈ t.blocks := (mem_allocs.1 (A.added.mem_iff.2 List.mem_cons_self)).1
  obtain ⟨k, hk⟩ : ∃ k, k = if size < b.size then size else b.size := ⟨_, rfl⟩
  have hkle : k ≤ size := by rw [hk]; split <;> omega
  have hcopy : (g.memcpy a.bp b.bp k).Has t := by
    have hasize := A.size
    obtain ⟨l, r, hsplit⟩ := List.append_of_mem ham
    have hwf := A.wellFormed
    rw [hsplit] at hwf
    have := (hwf.memcpy b.bp (k := k) A.alloc (by omega)).1
    rwa [← hsplit] at this
  have hfree := hcopy.mmFree (mem_allocs.1 hold).1 hb
  have hcode : h.reallocMove b.bp size b.size =
      some (.ret a.bp ((g.memcpy a.bp b.bp k).mmFree b.bp)) := by
    simp only [Heap.reallocMove, hp, Option.map_some, if_neg hp0, hk]
  rcases Heap.WellFormed.reallocMove H hb (show size + 15 < 2 ^ 32 by omega) with
    hexit | ⟨p, h', hret, hre, hmv⟩
  · cases hcode.symm.trans hexit
  · cases hcode.symm.trans hret
    rw [hcode]
    exact .moved hp0 hfree (hframe.trans ((SameFrame.memcpy ..).trans (.mmFree ..))) hre hmv

/-- The block grows into the chunk the heap is extended by, if there is room for the chunk and a
block is left of it. -/
theorem Heap.Has.reallocExtend (H : h.Has ⟨pre ++ [b], fl⟩) (hb : b.alloc = true)
    (hmod : newsize % 8 = 0) (hgrow : b.size < newsize) (hsz : size + 8 ≤ newsize)
    (hleast : ∀ s, s % 8 = 0 → 16 ≤ s → size + 8 ≤ s → newsize ≤ s) :
    h.Follows (allocs pre) b size
      (if h.memBrk + chunksize ≤ h.memMaxAddr then
        if newsize + minimum ≤ b.size + chunksize then
          .ret b.bp (h.memBrk + chunksize)
            (.coalesce (pre ++ [b.grown newsize]) (b.leftover newsize).freed [] fl)
        else .damaged
      else .ret 0 h.memBrk ⟨pre ++ [b], fl⟩)
      (some (.ret (h.reallocExtend b.bp newsize b.size).1
        (h.reallocExtend b.bp newsize b.size).2)) := by
  have hchunk : chunksize = 4096 := rfl
  have hmin : minimum = 16 := rfl
  split
  · next hroom =>
    have hs : 1024 * 4 < 2 ^ 31 ∧ h.memBrk + 1024 * 4 ≤ h.memMaxAddr := by omega
    have hext : (h.extendHeap (chunksize / wsize)).1 ≠ 0 :=
      Heap.WellFormed.extendHeap_ne H (by decide) (by decide) hs
    split
    · next hle =>
      obtain ⟨hr, hwf, hall, hk⟩ := Heap.WellFormed.extended H hb hext hmod hgrow (by omega)
      obtain ⟨-, hframe, -⟩ := H.extendHeap (show 1024 % 2 = 0 by decide)
        (show 4 ≤ 1024 by decide) hs
      obtain ⟨g, hg, -⟩ := Heap.WellFormed.extendHeap_last H hb hext
      have hg : h.extendHeap (chunksize / wsize) = (_, g) := hg
      have hsame : g.SameFrame (h.reallocExtend b.bp newsize b.size).2 :=
        (Heap.reallocExtend_frame hg (by rw [hg] at hext; exact hext)).2
      have hbp : b.bp ≠ 0 := by
        have := (H.layout.bounds (b := b) (by simp)).lo
        omega
      rw [show h.extendHeap 1024 = _ from hg] at hframe
      rw [hr]
      refine .moved hbp hwf (hframe.trans hsame)
        ⟨_, _, b.grown newsize, hwf, rfl, rfl, hsz, ?_, fun c hc => hk c (by simp [hc])⟩ ?_
      · rw [hall]
        exact List.perm_append_comm
      · exact Heap.Keeps.moved (fun c hc => hk c (List.mem_append_right _ hc))
          (Nat.min_le_left (b.size - 8) size)
    · next hle => exact .damaged (Heap.WellFormed.not_grown H hb hext hmod (by omega) hleast)
  · next hroom =>
    have hfail : h.extendHeap (chunksize / wsize) = (0, h) :=
      h.extendHeap_fail (by decide) (by decide) fun hs => hroom hs.2
    have hnull : h.reallocExtend b.bp newsize b.size = (0, h) := by
      simp only [Heap.reallocExtend, hfail, if_true]
    rw [hnull]
    exact .refused H

/-- **`mm_realloc`** of a block between its neighbours computes the reallocation of the shape. -/
theorem Heap.Has.resize (H : h.Has ⟨pre ++ b :: post, fl⟩) (hb : b.alloc = true) (h1 : 1 ≤ size)
    (hlt : size < 2 ^ 31) : h.Follows (allocs pre ++ allocs post) b size
      (Shape.resize pre b post fl h.memBrk h.memMaxAddr size) (h.mmRealloc b.bp size) := by
  have H' : h.WellFormed (pre ++ b :: post) fl := H
  have hl := H'.layout
  have hbm : b ∈ pre ++ b :: post := by simp
  have hbp : b.bp ≠ 0 := by
    have := (hl.bounds hbm).lo
    omega
  obtain ⟨hmod, hmin, hsz, hmax⟩ := adjust_spec (show size + 15 < 2 ^ 32 by omega)
  have hlt' : adjust size + 16 < 2 ^ 32 := by omega
  have hcase := hl.reallocBranch_case hlt'
  rw [Heap.mmRealloc_eq hbp h1 (hl.getSize hbm), Shape.resize, hl.reallocBranch_eq hlt']
  rw [hl.reallocBranch_eq hlt'] at hcase
  cases hbranch : branch pre b post (adjust size) with rw [hbranch] at hcase
  | unchanged =>
    have hsame : adjust size = b.size := hcase
    exact .moved hbp H (.refl h) (.of_split H' hb (by omega) fun _ _ _ _ _ => rfl) fun _ _ => rfl
  | shrink =>
    obtain ⟨hre, hmv⟩ := H'.reallocShrink hb hmod hmin hcase hsz
    exact .moved hbp (H'.shrunk hb hmod hmin hcase).1 (.reallocShrink ..) hre hmv
  | absorbNext =>
    obtain ⟨hgrow, n, post', rfl, hn, hle⟩ := hcase
    obtain ⟨hre, hmv⟩ := H'.reallocAbsorbNext hb hn hgrow hle hsz
    have hwf := (H'.absorbedNext hb hn hgrow hle).1
    refine .moved hbp ?_ (.reallocAbsorbNext ..) hre hmv
    rw [freeHead_cons hn]
    exact hwf
  | absorbPrev =>
    obtain ⟨hgrow, pre', p, rfl, hp, hle⟩ := hcase
    have hpb : p.bp ≠ 0 := by
      have := (hl.bounds (b := p) (by simp)).lo
      omega
    have := (hl.bounds (b := p) (by simp)).size
    obtain ⟨hr, hre, hmv⟩ := H'.reallocAbsorbPrev hb hp hgrow hle hsz
    obtain ⟨g, hc, hwf, -⟩ := H'.absorbedPrev hb hp hgrow hle
    have husize : (Block.absorb [p, b]).size = p.size + b.size := by
      simp [Block.absorb, Block.union]
    have hcopy := (hwf.memcpy b.bp (k := b.size) rfl (by omega)).1
    have hcode : (h.reallocAbsorbPrev b.bp (adjust size) b.size).2 = g.memcpy p.bp b.bp b.size := by
      rw [h.reallocAbsorbPrev_eq, hc]
    dsimp only
    rw [hr, freeLast_concat hp, List.dropLast_concat]
    refine .moved hpb ?_ (.reallocAbsorbPrev ..) hre hmv
    rw [hcode]
    exact hcopy
  | absorbBoth =>
    obtain ⟨hgrow, pre', p, n, post', rfl, hp, rfl, hn, hle⟩ := hcase
    have hpb : p.bp ≠ 0 := by
      have := (hl.bounds (b := p) (by simp)).lo
      omega
    have := (hl.bounds (b := p) (by simp)).size
    obtain ⟨hr, hre, hmv⟩ := H'.reallocAbsorbBoth hb hp hn hgrow hle hsz
    obtain ⟨g, hc, hwf, -⟩ := H'.absorbedBoth hb hp hn hgrow hle
    have husize : (Block.absorb [p, b, n]).size = p.size + (b.size + n.size) := by
      simp [Block.absorb, Block.union]
    have hcopy := (hwf.memcpy b.bp (k := b.size) rfl (by omega)).1
    have hcode : (h.reallocAbsorbBoth b.bp (adjust size) b.size).2 = g.memcpy p.bp b.bp b.size := by
      rw [h.reallocAbsorbBoth_eq, hc]
    dsimp only
    rw [hr, freeLast_concat hp, freeHead_cons hn, List.dropLast_concat]
    refine .moved hpb ?_ (.reallocAbsorbBoth ..) hre hmv
    rw [hcode]
    exact hcopy
  | extend =>
    obtain ⟨hgrow, rfl⟩ := hcase
    have := H.reallocExtend hb hmod hgrow hsz fun s =>
      adjust_least (show size + 15 < 2 ^ 32 by omega)
    simpa using this
  | mallocCopyFree => exact H.reallocMove hb hlt rfl

/-- **`mm_realloc`** of an allocated block and a positive size. -/
theorem Heap.Has.mmRealloc (H : h.Has s) (hb : b ∈ s.blocks) (ha : b.alloc = true) (h1 : 1 ≤ size)
    (hlt : size < 2 ^ 31) : ∃ pre post, s.blocks = pre ++ b :: post ∧
      h.Follows (allocs pre ++ allocs post) b size
        (s.realloc h.memBrk h.memMaxAddr b.bp size) (h.mmRealloc b.bp size) := by
  obtain ⟨blocks, list⟩ := s
  obtain ⟨pre, post, rfl⟩ := List.append_of_mem hb
  refine ⟨pre, post, rfl, ?_⟩
  rw [Shape.realloc, Heap.WellFormed.locate H]
  exact H.resize ha h1 hlt

end

end Malloc
