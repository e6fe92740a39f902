import Styrikerfi.Malloc.Extend
import Styrikerfi.Malloc.Ledger

/-!
# What a caller of `mm_realloc` may count on

A block that is large enough for a request stays where it is; a request for which there is no memory
is refused with `NULL` and changes nothing; a request for no bytes frees the block. The first fails
for the one difference of sizes that no guard covers, 8 bytes, where the block goes the way of a
growing one (`shrinking_iff`). The second fails where the memory runs out in the nested `mm_malloc`,
which ends the process, and holds in the branch that extends the heap itself (`starved_iff`). The
third always fails: the block is handed to the C library, and stays allocated here
(`mmRealloc_zero`).
-/

namespace Malloc

open Machine32 Tiling LinkedList

/-- `mm_realloc(ptr, size)` returns `ptr`, moves no data and leaves the break where it is. -/
def Heap.StaysPut (h : Heap) (ptr size : Nat) : Prop :=
  ∃ h', h.mmRealloc ptr size = some (.ret ptr h') ∧ h.reallocMemcpy ptr size = none ∧
    h.Moved h' ptr ptr size ∧ h'.memBrk = h.memBrk

/-- `mm_realloc(ptr, size)` asks `mem_sbrk` for memory, itself or in `mm_malloc`, and there is
none. -/
def Heap.Starved (h : Heap) (ptr size : Nat) : Prop :=
  match h.reallocBranch ptr (adjust size) (h.getSize (hdrp ptr)) with
  | .extend => (h.memSbrk (toInt chunksize)).1 = sbrkFailed
  | .mallocCopyFree => h.findFit (adjust size) = some 0 ∧
      (h.memSbrk (toInt (max (adjust size) chunksize))).1 = sbrkFailed
  | _ => False

/-- Break, block tags and free list of `h'` are those that `mm_free(ptr)` makes of `h`, and the C
library's `free` has not been called. -/
structure Heap.Frees (h : Heap) (ptr : Nat) (h' : Heap) : Prop where
  brk : h'.memBrk = (h.mmFree ptr).memBrk
  blocks : ∀ bs fl, h'.WellFormed bs fl ↔ (h.mmFree ptr).WellFormed bs fl
  own : h'.libcFreed = h.libcFreed

section
variable {h h' g : Heap} {bs pre post : List Block} {b n : Block} {fl : List Nat}
  {size words ptr copySize q : Nat}

/-! ## Shrinking -/

/-- The shrinking branch leaves the break. -/
theorem Heap.SameFrame.reallocShrink (h : Heap) (ptr newsize copySize : Nat) :
    h.SameFrame (h.reallocShrink ptr newsize copySize) :=
  (SameFrame.put ..).trans ((SameFrame.put ..).trans ((SameFrame.put ..).trans
    ((SameFrame.put ..).trans (.coalesce ..))))

/-- A block returned by the last branch has been copied to. -/
theorem Heap.reallocMove_copies (hr : h.reallocMove ptr size copySize = some (.ret q h')) :
    h.moveMemcpy ptr size copySize ≠ none := by
  obtain ⟨⟨newp, g⟩, hm, hret⟩ := Option.map_eq_some_iff.1 hr
  have hnew : newp ≠ 0 := fun h0 => by
    dsimp only at hret
    rw [if_pos h0] at hret
    cases hret
  simp only [Heap.moveMemcpy, hm, Option.bind_some, if_neg hnew]
  exact nofun

/-- **Shrinking.** A block whose size is at least the rounded size of the request stays put, unless
it is larger by exactly 8 bytes. -/
theorem shrinking_iff (H : h.WellFormed bs fl) (hbm : b ∈ bs) (hb : b.alloc = true) (h1 : 1 ≤ size)
    (hle : max minimum ((size + overhead + (dsize - 1)) / dsize * dsize) ≤ b.size) :
    h.StaysPut b.bp size ↔
      max minimum ((size + overhead + (dsize - 1)) / dsize * dsize) + 8 ≠ b.size := by
  have hl := H.layout
  have hB := hl.bounds hbm
  have := hB.lo; have := hB.hi; have := hB.brk; have := hB.listp; have := hB.mod
  have hle' : max 16 ((size + 8 + 7) / 8 * 8) ≤ b.size := hle
  have hlt : size + 15 < 2 ^ 32 := by omega
  rw [← adjust_eq hlt] at hle ⊢
  obtain ⟨hmod, hmin, hsz, -⟩ := adjust_spec hlt
  have hadd : wadd (adjust size) minimum = adjust size + 16 :=
    wadd_of_lt (show adjust size + 16 < 2 ^ 32 by omega)
  have hret := Heap.mmRealloc_eq (show b.bp ≠ 0 by omega) h1 (hl.getSize hbm)
  have h0 : ¬ (b.bp = 0 ∨ size = 0) := by omega
  have hmin16 : minimum = 16 := rfl
  simp only [Heap.StaysPut, Heap.reallocMemcpy, if_neg h0, hl.getSize hbm]
  rcases Nat.eq_or_lt_of_le hle with heq | hgt
  · -- nothing is done
    have hbr : h.reallocBranch b.bp (adjust size) b.size = .unchanged := if_pos heq
    rw [hbr] at hret ⊢
    exact iff_of_true ⟨h, hret, rfl, fun _ _ => rfl, rfl⟩ (by omega)
  by_cases hspare : adjust size + 8 = b.size
  · -- 8 spare bytes are too few for a split
    have hbr : h.reallocBranch b.bp (adjust size) b.size = .mallocCopyFree := by
      have hng : ¬ b.size < adjust size := by omega
      have hns : ¬ wadd (adjust size) minimum ≤ b.size := by omega
      simp [Heap.reallocBranch, hns, hng, Nat.ne_of_lt hgt]
    rw [hbr] at hret ⊢
    refine iff_of_false ?_ (not_not.2 hspare)
    rintro ⟨h', hr, hcopy, -⟩
    exact Heap.reallocMove_copies (hret.symm.trans hr) hcopy
  · have hfit : adjust size + 16 ≤ b.size := by omega
    have hbr : h.reallocBranch b.bp (adjust size) b.size = .shrink := by
      rw [Heap.reallocBranch, if_neg (Nat.ne_of_lt hgt)]
      exact if_pos (by rw [hadd]; exact hfit)
    rw [hbr] at hret ⊢
    refine iff_of_true ⟨_, hret, rfl, ?_, (Heap.SameFrame.reallocShrink ..).memBrk⟩ hspare
    obtain ⟨pre, post, rfl⟩ := List.append_of_mem hbm
    have hm := (H.reallocShrink hb hmod hmin hfit hsz).2
    rwa [Nat.min_eq_right (by omega)] at hm

/-! ## Memory runs out -/

/-- When `mem_sbrk` fails, so does `extend_heap`, and nothing has changed. -/
theorem Heap.Layout.extendHeap_fail (hl : h.Layout bs) (heven : words % 2 = 0)
    (hlt : words * 4 < 2 ^ 32) (hf : (h.memSbrk (toInt (words * 4))).1 = sbrkFailed) :
    h.extendHeap words = (0, h) := by
  refine h.extendHeap_fail heven hlt fun hroom => ?_
  rw [h.memSbrk_toInt hlt, if_pos hroom] at hf
  have hbrk : h.memBrk = 2 ^ 32 - 1 := hf
  have := hl.bp_mod.2
  omega

/-- **Failure.** A call of `mm_realloc` for which there is no memory returns `NULL` and changes
nothing, unless it is `mm_malloc` that finds none. -/
theorem starved_iff (H : h.WellFormed bs fl) (hbm : b ∈ bs) (h1 : 1 ≤ size) (hlt : size < 2 ^ 31)
    (hs : h.Starved b.bp size) : h.mmRealloc b.bp size = some (.ret 0 h) ↔
      h.reallocBranch b.bp (adjust size) (h.getSize (hdrp b.bp)) ≠ .mallocCopyFree := by
  have hl := H.layout
  have := (hl.bounds hbm).lo; have := (hl.bounds hbm).listp
  obtain ⟨hmod, hmin, -, hmax⟩ := adjust_spec (show size + 15 < 2 ^ 32 by omega)
  have hret := Heap.mmRealloc_eq (show b.bp ≠ 0 by omega) h1 (hl.getSize hbm)
  rw [Heap.Starved] at hs
  rw [hl.getSize hbm] at hs ⊢
  cases hbr : h.reallocBranch b.bp (adjust size) b.size with rw [hbr] at hs hret
  | extend =>
    have hext := hl.extendHeap_fail (show 1024 % 2 = 0 by decide) (by decide) hs
    have hnull : h.reallocExtend b.bp (adjust size) b.size = (0, h) := by
      have hw : chunksize / wsize = 1024 := rfl
      simp only [Heap.reallocExtend, hw, hext, if_true]
    rw [hnull] at hret
    exact iff_of_true hret fun hbad => by cases hbad
  | mallocCopyFree =>
    obtain ⟨hfit, hsbrk⟩ := hs
    obtain ⟨words, hw, hw4, heven, -⟩ := extend_words hmod
    have hchunk : chunksize = 4096 := rfl
    rw [← hw4] at hsbrk
    have hext := hl.extendHeap_fail heven (by omega) hsbrk
    have hm : h.mmMalloc size = some (0, h) := by
      rw [Heap.mmMalloc_extends (show size ≠ 0 by omega) hfit hw, hext, if_pos rfl]
    refine iff_of_false (fun hr => ?_) (not_not.2 rfl)
    have := (hret.trans (Heap.reallocMove_null hm)).symm.trans hr
    cases this
  | _ => cases hs

/-! ## A request for no bytes -/

/-- The block goes to the C library, and the heap stays as it is. -/
theorem Heap.mmRealloc_none (h : Heap) (hp : ptr ≠ 0) :
    h.mmRealloc ptr 0 = some (.ret 0 { h with libcFreed := ptr :: h.libcFreed }) := by
  rw [Heap.mmRealloc, if_neg hp, if_pos rfl]

/-- What the C library has been given is no part of the layout. -/
theorem Heap.WellFormed.libcFreed (H : h.WellFormed bs fl) (ps : List Nat) :
    Heap.WellFormed { h with libcFreed := ps } bs fl := by
  obtain ⟨⟨h1, h2, h3, h4, ⟨h5, h6⟩, h7, h8, h9, h10⟩, hm, hk, hlist⟩ := H
  have htags : ∀ b ∈ bs, Heap.Tagged { h with libcFreed := ps } b :=
    fun b hb => ⟨(h9 b hb).1, (h9 b hb).2⟩
  exact ⟨⟨h1, h2, h3, h4, ⟨h5, h6⟩, h7, h8, htags, h10⟩, hm, hk, hlist⟩

/-- `mm_free` changes the blocks. -/
theorem Heap.WellFormed.mmFree_ne (H : h.WellFormed bs fl) (hbm : b ∈ bs) (hb : b.alloc = true) :
    ¬ (h.mmFree b.bp).WellFormed bs fl := by
  intro H'
  obtain ⟨pre, post, rfl⟩ := List.append_of_mem hbm
  obtain ⟨hwf, hall, -⟩ := H.mmFree hb
  have heq := congrArg allocs (H'.layout.unique hwf.layout)
  rw [hall, allocs_append, allocs_cons_alloc hb] at heq
  have := congrArg List.length heq
  simp at this

/-- The block a client holds is still allocated. -/
theorem Session.Inv.not_frees {s : Session} {x : Nat × Nat} (I : s.Inv bs fl)
    (hx : x ∈ s.live) :
    ∃ h', s.heap.mmRealloc x.1 0 = some (.ret 0 h') ∧ ¬ s.heap.Frees x.1 h' := by
  obtain ⟨b, hb, hbx, -⟩ := I.room x hx
  obtain ⟨hbm, ha⟩ := mem_allocs.1 hb
  have hB := I.wellFormed.layout.bounds hbm
  have := hB.lo; have := hB.listp
  refine ⟨_, s.heap.mmRealloc_none (show x.1 ≠ 0 by omega), fun F => ?_⟩
  have hfreed := (F.blocks bs fl).1 (I.wellFormed.libcFreed _)
  rw [← hbx] at hfreed
  exact I.wellFormed.mmFree_ne hbm ha hfreed

/-- **Size zero.** In every state of a session, `mm_realloc(ptr, 0)` returns `NULL` for a block the
client holds, and it has not done what `mm_free(ptr)` does. -/
theorem mmRealloc_zero {h₀ : Heap} {s : Session} {x : Nat × Nat} (hstart : h₀.memStartBrk % 8 = 0)
    (haddr : h₀.memMaxAddr < 2 ^ 32) (hi : h₀.memResetBrk.mmInit = (0, h))
    (hr : Reachable Session.step ⟨h, []⟩ s) (hx : x ∈ s.live) :
    ∃ h', s.heap.mmRealloc x.1 0 = some (.ret 0 h') ∧ ¬ s.heap.Frees x.1 h' := by
  obtain ⟨bs, fl, I⟩ := hr.invariant (I := fun s => ∃ bs fl, s.Inv bs fl)
    (Session.inv_init hstart haddr hi) Session.Inv.step
  exact I.not_frees hx

/-- The last block but one stays out of the way of a growing block. -/
theorem Heap.Layout.reallocBranch_between {newsize : Nat} (hl : h.Layout (pre ++ b :: n :: post))
    (hpre : (h.before pre).alloc = true) (hn : n.alloc = true) (hgrow : b.size < newsize)
    (hlt : newsize + 16 < 2 ^ 32) : h.reallocBranch b.bp newsize b.size = .mallocCopyFree := by
  have hnext : h.getAlloc (hdrp (h.nextBlkp b.bp)) = 1 := by
    rw [hl.next_alloc, Heap.after_cons, hn]
    rfl
  have hprev : h.getAlloc (hdrp (h.prevBlkp b.bp)) = 1 := by
    rw [hl.prev_header_alloc, hpre]
    rfl
  have hsize : h.getSize (hdrp (h.nextBlkp b.bp)) = n.size := hl.next_size
  have := (hl.bounds (b := n) (by simp)).size
  have hadd : wadd newsize minimum = newsize + 16 := wadd_of_lt hlt
  have hshrink : ¬ wadd newsize minimum ≤ b.size := by omega
  have hne : n.size ≠ 0 := by omega
  simp [Heap.reallocBranch, hnext, hprev, hsize, hshrink, hne, Nat.ne_of_gt hgrow]

end

/-! ## At fixed sizes -/

/-- A block of 4096 bytes stays where it is for a request of 100 bytes. -/
theorem shrinking_iff_hundred : oneBlock.StaysPut 24 100 :=
  (shrinking_iff (b := ⟨24, 4096, true⟩) oneBlock_wellFormed (List.mem_singleton_self _) rfl
    (show 1 ≤ 100 by decide) (by decide)).2 (by decide)

/-- For a request of 4080 bytes, 8 less than it has room for, it is copied to the end of the
heap. -/
theorem shrinking_spare : oneBlock.WellFormed [⟨24, 4096, true⟩] [] ∧
    max minimum ((4080 + overhead + (dsize - 1)) / dsize * dsize) ≤ 4096 ∧
    (∃ h, oneBlock.mmRealloc 24 4080 = some (.ret 4120 h)) ∧ ¬ oneBlock.StaysPut 24 4080 := by
  have H := oneBlock_wellFormed
  have hhas : oneBlock.Has ⟨[⟨24, 4096, true⟩], []⟩ := H
  obtain ⟨g, hm, -, -⟩ := hhas.mmMalloc (show 4080 < 2 ^ 31 by decide)
  have hnew : (Shape.malloc ⟨[⟨24, 4096, true⟩], []⟩ oneBlock.memBrk oneBlock.memMaxAddr 4080).1 =
      4120 := rfl
  rw [hnew] at hm
  have hsize := H.layout.getSize (b := ⟨24, 4096, true⟩) (List.mem_singleton_self _)
  dsimp only at hsize
  have hret := Heap.mmRealloc_eq (show 24 ≠ 0 by decide) (show 1 ≤ 4080 by decide) hsize
  have hbr : oneBlock.reallocBranch 24 (adjust 4080) 4096 = .mallocCopyFree := by
    have hadj : adjust 4080 = 4088 := by decide
    rw [hadj]
    rfl
  rw [hbr] at hret
  obtain ⟨h, hmove⟩ : ∃ h, oneBlock.reallocMove 24 4080 4096 = some (.ret 4120 h) :=
    Heap.reallocMove_ret hm (by decide)
  refine ⟨H, by decide, ⟨h, hret.trans hmove⟩, fun ⟨h', hr, _⟩ => ?_⟩
  cases (hret.trans hmove).symm.trans hr

/-- Two blocks take all of the 20 MB: the last of them cannot grow, and stays as it is. -/
theorem starved_iff_last : ∃ h s, (memInit (fun _ => 0) 8).memResetBrk.mmInit = (0, h) ∧
    exec Session.step ⟨h, []⟩ [.malloc 4088, .malloc 20967400] = some s ∧
    s.heap.mmRealloc 4120 20967408 = some (.ret 0 s.heap) := by
  obtain ⟨h, s, hi, hs, H, hbrk, hmax⟩ := memInit_zero_full
  obtain ⟨a, ha⟩ : ∃ a : Block, a = ⟨24, 4096, true⟩ := ⟨_, rfl⟩
  obtain ⟨b, hb⟩ : ∃ b : Block, b = ⟨4120, 20967408, true⟩ := ⟨_, rfl⟩
  rw [← ha, ← hb] at H
  have hbm : b ∈ [a, b] := by simp
  have hbr : s.heap.reallocBranch b.bp (adjust 20967408) (s.heap.getSize (hdrp b.bp)) =
      .extend := by
    rw [H.layout.getSize hbm]
    exact Heap.Layout.reallocBranch_last (show s.heap.Layout ([a] ++ [b]) from H.layout)
      (by rw [ha]; rfl) (by rw [hb]; decide) (by decide)
  have hstarved : s.heap.Starved b.bp 20967408 := by
    rw [Heap.Starved, hbr]
    rw [show toInt chunksize = toInt 4096 from rfl, Heap.memSbrk_toInt _ (by decide), hbrk, hmax]
    rfl
  have hret := (starved_iff H hbm (show 1 ≤ 20967408 by decide) (by decide) hstarved).2
    (by rw [hbr]; exact nofun)
  rw [hb] at hret
  exact ⟨h, s, hi, hs, hret⟩

/-- For the other one `mm_malloc` fails, and the process exits. -/
theorem starved_exit : ∃ h s, (memInit (fun _ => 0) 8).memResetBrk.mmInit = (0, h) ∧
    exec Session.step ⟨h, []⟩ [.malloc 4088, .malloc 20967400] = some s ∧
    s.heap.WellFormed [⟨24, 4096, true⟩, ⟨4120, 20967408, true⟩] [] ∧ s.heap.Starved 24 5000 ∧
    s.heap.mmRealloc 24 5000 = some (.exit 1 s.heap) := by
  obtain ⟨h, s, hi, hs, H, hbrk, hmax⟩ := memInit_zero_full
  obtain ⟨a, ha⟩ : ∃ a : Block, a = ⟨24, 4096, true⟩ := ⟨_, rfl⟩
  obtain ⟨b, hb⟩ : ∃ b : Block, b = ⟨4120, 20967408, true⟩ := ⟨_, rfl⟩
  have H' := H
  rw [← ha, ← hb] at H'
  have hsize : s.heap.getSize (hdrp a.bp) = a.size := H'.layout.getSize (by simp)
  have hbr : s.heap.reallocBranch a.bp (adjust 5000) a.size = .mallocCopyFree :=
    Heap.Layout.reallocBranch_between (show s.heap.Layout ([] ++ a :: b :: []) from H'.layout) rfl
      (by rw [hb]) (by rw [ha]; decide) (by decide)
  have hfit : s.heap.findFit (adjust 5000) = some 0 := by
    obtain ⟨r, hr, hfit⟩ := H'.findFit (adjust 5000)
    rcases hfit with ⟨rfl, -⟩ | ⟨-, c, hc, -, hfree, -⟩
    · exact hr
    · rcases List.mem_pair.1 hc with rfl | rfl
      · rw [ha] at hfree; cases hfree
      · rw [hb] at hfree; cases hfree
  have hmax5 : max (adjust 5000) chunksize = 5008 := by decide
  have hsbrk : s.heap.memSbrk (toInt 5008) = (sbrkFailed, s.heap) := by
    rw [Heap.memSbrk_toInt _ (by decide), hbrk, hmax]
    rfl
  have hext : s.heap.extendHeap 1252 = (0, s.heap) :=
    H'.layout.extendHeap_fail (by decide) (by decide) (congrArg Prod.fst hsbrk)
  have hm : s.heap.mmMalloc 5000 = some (0, s.heap) := by
    have hw : 5008 / wsize = 1252 := rfl
    simp only [Heap.mmMalloc, show ¬ (5000 = 0) by decide, hfit, Option.map_some, ne_eq, not_true,
      if_false, hmax5, hw, hext, if_true]
  have hret := Heap.mmRealloc_eq (show a.bp ≠ 0 by rw [ha]; decide) (show 1 ≤ 5000 by decide) hsize
  rw [hbr] at hret
  have hstarved : s.heap.Starved a.bp 5000 := by
    rw [Heap.Starved, hsize, hbr]
    exact ⟨hfit, by rw [hmax5, hsbrk]⟩
  have hexit := hret.trans (Heap.reallocMove_null hm)
  rw [ha] at hstarved hexit
  exact ⟨h, s, hi, hs, H, hstarved, hexit⟩

/-- A client with one block reallocates it to 0 bytes. -/
theorem mmRealloc_zero_first : ∃ h s h', (memInit (fun _ => 0) 8).memResetBrk.mmInit = (0, h) ∧
    exec Session.step ⟨h, []⟩ [.malloc 100] = some s ∧
    s.heap.mmRealloc 24 0 = some (.ret 0 h') ∧ ¬ s.heap.Frees 24 h' := by
  obtain ⟨l, hl⟩ : ∃ l, exec Ledger.step (.init 8 (8 + maxHeap)) [.malloc 100] = some l := ⟨_, rfl⟩
  obtain ⟨h, s, hi, hs, F⟩ := memInit_zero_exec hl
  have hlive : (24, 100) ∈ s.live := by
    rw [F.live]
    cases hl
    exact List.mem_singleton_self _
  obtain ⟨h', hr, hf⟩ := mmRealloc_zero rfl (by decide) hi (Reachable.exec .start hs) hlive
  exact ⟨h, s, h', hi, hs, hr, hf⟩

/-- The same client: its block is still allocated after the call, where `mm_free` would have merged
it with the rest of the chunk. -/
theorem mmRealloc_zero_allocated : ∃ h s h', (memInit (fun _ => 0) 8).memResetBrk.mmInit = (0, h) ∧
    exec Session.step ⟨h, []⟩ [.malloc 100] = some s ∧
    s.heap.mmRealloc 24 0 = some (.ret 0 h') ∧ 24 ∈ h'.libcFreed ∧
    h'.WellFormed [⟨24, 112, true⟩, ⟨136, 3984, false⟩] [136] ∧
    (s.heap.mmFree 24).WellFormed [⟨24, 4096, false⟩] [24] ∧ ¬ s.heap.Frees 24 h' := by
  obtain ⟨l, hl⟩ : ∃ l, exec Ledger.step (.init 8 (8 + maxHeap)) [.malloc 100] = some l := ⟨_, rfl⟩
  obtain ⟨h, s, hi, hs, F⟩ := memInit_zero_exec hl
  obtain ⟨b, hb⟩ : ∃ b : Block, b = ⟨24, 112, true⟩ := ⟨_, rfl⟩
  have hshape : l.shape = ⟨[b, ⟨136, 3984, false⟩], [136]⟩ := by
    cases hl
    rw [hb]
    rfl
  have hhas : s.heap.Has l.shape := F.inv.wellFormed
  rw [hshape] at hhas
  have hfreed : (s.heap.mmFree b.bp).Has (Shape.free ⟨[b, ⟨136, 3984, false⟩], [136]⟩ b.bp) :=
    hhas.mmFree List.mem_cons_self (by rw [hb])
  rw [hb] at hhas hfreed
  have hwf : Heap.WellFormed { s.heap with libcFreed := 24 :: s.heap.libcFreed }
      [⟨24, 112, true⟩, ⟨136, 3984, false⟩] [136] := Heap.WellFormed.libcFreed hhas _
  have hwf' : (s.heap.mmFree 24).WellFormed [⟨24, 4096, false⟩] [24] := hfreed
  have hnone := s.heap.mmRealloc_none (show 24 ≠ 0 by decide)
  refine ⟨h, s, _, hi, hs, hnone, List.mem_cons_self, hwf, hwf', fun F => ?_⟩
  have := ((F.blocks _ _).2 hwf').unique hwf
  cases this.1

end Malloc
