import Styrikerfi.Malloc.Layout
import Mathlib.Data.List.Chain

/-!
# The abstract heap

What the allocator does to its blocks, without the memory they lie in. A `Shape` is the list of
blocks in address order and the free list as a list of block pointers; the operations of `mm.c` are
functions on shapes. `merge` is the canonical form of a list of blocks, in which each run of
adjacent free blocks is one block: coalescing computes it (`Shape.coalesce_blocks`), so that it does
not matter in which order blocks become free (`merge_mark`).
-/

namespace Malloc

open Tiling

/-- The allocated blocks, in address order. -/
def allocs (bs : List Block) : List Block := bs.filter fun b => b.alloc

/-- The free block a run of neighbours makes together. -/
def Block.union (mid : List Block) : Block :=
  ⟨(mid.head?.map Block.bp).getD 0, (mid.map Block.size).sum, false⟩

/-- The first `n` bytes of a block, as an allocated block. -/
def Block.head (b : Block) (n : Nat) : Block := ⟨b.bp, n, true⟩

/-- What is left after the first `n` bytes of a block, as a free block. -/
def Block.rest (b : Block) (n : Nat) : Block := ⟨b.bp + n, b.size - n, false⟩

/-- The block, freed. -/
def Block.freed (b : Block) : Block := ⟨b.bp, b.size, false⟩

section
variable {bs pre post : List Block} {b c : Block} {fl : List Nat} {x : Nat}

/-! ## Free and allocated blocks -/

@[simp] theorem freeBps_append (l l' : List Block) :
    freeBps (l ++ l') = freeBps l ++ freeBps l' := by
  simp [freeBps]

/-- A free block in front is listed. -/
theorem freeBps_cons_free {l : List Block} (hb : b.alloc = false) :
    freeBps (b :: l) = b.bp :: freeBps l := by
  simp [freeBps, hb]

/-- An allocated block in front is not listed. -/
theorem freeBps_cons_alloc {l : List Block} (hb : b.alloc = true) :
    freeBps (b :: l) = freeBps l := by
  simp [freeBps, hb]

/-- The free blocks are listed by their payloads. -/
theorem mem_freeBps {l : List Block} : x ∈ freeBps l ↔ ∃ c ∈ l, c.alloc = false ∧ c.bp = x := by
  simp [freeBps, and_assoc]

/-- Where all blocks are free, all are listed. -/
theorem freeBps_of_free {l : List Block} (hl : ∀ c ∈ l, c.alloc = false) :
    freeBps l = l.map Block.bp := by
  rw [freeBps, List.filter_eq_self.2 fun c hc => by simp [hl c hc]]

/-- Removing members one by one from a permutation. -/
theorem perm_diff {ds rest : List Nat} (hp : fl.Perm (ds ++ rest)) : (fl.diff ds).Perm rest := by
  induction ds generalizing fl with
  | nil => simpa using hp
  | cons d ds ih =>
    rw [List.diff_cons]
    refine ih ?_
    simpa using hp.erase d

/-- The free blocks `mid` leave a list of all free blocks. -/
theorem perm_diff_free {mid : List Block} {ds : List Nat}
    (hp : fl.Perm (freeBps (pre ++ mid ++ post))) (hmid : ∀ c ∈ mid, c.alloc = false)
    (hds : ds.Perm (mid.map Block.bp)) : (fl.diff ds).Perm (freeBps (pre ++ post)) := by
  rw [freeBps_append, freeBps_append, freeBps_of_free hmid] at hp
  rw [freeBps_append]
  refine perm_diff (hp.trans ?_)
  have hfront : (freeBps pre ++ mid.map Block.bp ++ freeBps post).Perm
      (mid.map Block.bp ++ (freeBps pre ++ freeBps post)) := by
    rw [← List.append_assoc]
    exact List.perm_append_comm.append_right _
  exact hfront.trans (hds.symm.append_right _)

/-- A block of the two sides is one of the whole. -/
theorem mem_insert_middle (hc : c ∈ pre ++ post) : c ∈ pre ++ b :: post :=
  ((List.sublist_cons_self b post).append_left pre).subset hc

/-- Any block but the middle one is on one of the sides. -/
theorem mem_of_mem_middle (hc : c ∈ pre ++ b :: post) (hne : c ≠ b) : c ∈ pre ++ post := by
  rcases List.mem_append.1 hc with hc | hc
  · exact List.mem_append_left _ hc
  · exact List.mem_append_right _ ((List.mem_cons.1 hc).resolve_left hne)

@[simp] theorem allocs_append (l l' : List Block) : allocs (l ++ l') = allocs l ++ allocs l' :=
  List.filter_append ..

@[simp] theorem allocs_nil : allocs [] = [] := rfl

/-- An allocated block in front is kept. -/
theorem allocs_cons_alloc (hb : b.alloc = true) : allocs (b :: bs) = b :: allocs bs :=
  List.filter_cons_of_pos hb

/-- A free block in front is left out. -/
theorem allocs_cons_free (hb : b.alloc = false) : allocs (b :: bs) = allocs bs :=
  List.filter_cons_of_neg (by simp [hb])

/-- The allocated blocks. -/
theorem mem_allocs : c ∈ allocs bs ↔ c ∈ bs ∧ c.alloc = true := List.mem_filter

/-- Any allocated block but the middle one is on one of the sides. -/
theorem mem_allocs_of_ne (ha : b.alloc = true) (hc : c ∈ allocs (pre ++ b :: post))
    (hne : c.bp ≠ b.bp) : c ∈ allocs pre ++ allocs post := by
  rw [allocs_append, allocs_cons_alloc ha] at hc
  exact mem_of_mem_middle hc fun e => hne (e ▸ rfl)

/-- Where all blocks are free, none is allocated. -/
theorem allocs_of_free (hf : ∀ c ∈ bs, c.alloc = false) : allocs bs = [] :=
  List.filter_eq_nil_iff.2 fun c hc => by simp [hf c hc]

/-! ## Adjacent blocks -/

/-- A block between two merged sides, which it does not join. -/
theorem merged_insert {u : Block} (hpre : Merged pre) (hpost : Merged post)
    (hl : ∀ p ∈ pre.getLast?, p.alloc = true ∨ u.alloc = true)
    (hr : ∀ n ∈ post.head?, u.alloc = true ∨ n.alloc = true) : Merged (pre ++ u :: post) := by
  refine List.isChain_append.2 ⟨hpre, List.isChain_cons.2 ⟨fun n hn => hr n hn, hpost⟩, ?_⟩
  intro p hp c hc
  rw [List.head?_cons] at hc
  cases hc
  exact hl p hp

/-- Next to a free block stands an allocated one. -/
theorem Merged.before {p : Block} (hm : Merged (pre ++ [p])) (hp : p.alloc = false) :
    ∀ q ∈ pre.getLast?, q.alloc = true := by
  intro q hq
  have := (List.isChain_append.1 hm).2.2 q hq p rfl
  simpa [hp] using this

/-- After a free block comes an allocated one. -/
theorem Merged.after {n : Block} (hm : Merged (n :: post)) (hn : n.alloc = false) :
    ∀ q ∈ post.head?, q.alloc = true := by
  intro q hq
  have := (List.isChain_cons.1 hm).1 q hq
  simpa [hn] using this

/-- Blocks that tile an interval have its length together. -/
theorem Tiles.sum {l : List Block} {a e : Nat} (ht : Tiles Block.bp Block.size a l e) :
    e = a + (l.map Block.size).sum := by
  induction l generalizing a with
  | nil => simpa using (show a = e from ht).symm
  | cons c l ih =>
    have := ih ht.2
    simp only [List.map_cons, List.sum_cons]
    omega

/-- The union of a run of neighbours covers exactly their extent. -/
theorem Block.union_extent {l r : List Block} {a e : Nat}
    (ht : Tiles Block.bp Block.size a (l ++ b :: r) e) :
    a = (Block.union (l ++ b :: r)).bp ∧
      e = (Block.union (l ++ b :: r)).bp + (Block.union (l ++ b :: r)).size := by
  have ha : a = (Block.union (l ++ b :: r)).bp := by
    cases l with
    | nil => exact ht.1.symm
    | cons c l => exact ht.1.symm
  exact ⟨ha, by rw [← ha]; exact Tiles.sum ht⟩

/-- The union of blocks has an aligned size. -/
theorem Block.union_sizes {l r : List Block}
    (hs : ∀ c ∈ l ++ b :: r, c.size % 8 = 0 ∧ 16 ≤ c.size) :
    (Block.union (l ++ b :: r)).size % 8 = 0 ∧ 16 ≤ (Block.union (l ++ b :: r)).size := by
  have hmod : ∀ m : List Block, (∀ c ∈ m, c.size % 8 = 0) → (m.map Block.size).sum % 8 = 0 := by
    intro m hm
    induction m with
    | nil => rfl
    | cons c m ih =>
      have := ih fun d hd => hm d (List.mem_cons_of_mem _ hd)
      have := hm c List.mem_cons_self
      simp only [List.map_cons, List.sum_cons]
      omega
  refine ⟨hmod _ fun c hc => (hs c hc).1, ?_⟩
  have hb := (hs b (by simp)).2
  have : (Block.union (l ++ b :: r)).size =
      (l.map Block.size).sum + (b.size + (r.map Block.size).sum) := by simp [Block.union]
  omega

/-! ## The canonical form of a list of blocks -/

/-- The block in front of blocks in canonical form; two free neighbours become one block. -/
def joinCons (b : Block) : List Block → List Block
  | [] => [b]
  | c :: cs =>
    if b.alloc = false ∧ c.alloc = false then ⟨b.bp, b.size + c.size, false⟩ :: cs
    else b :: c :: cs

/-- The blocks with each run of adjacent free blocks made one. -/
def merge (bs : List Block) : List Block := bs.foldr joinCons []

@[simp] theorem merge_nil : merge [] = [] := rfl
@[simp] theorem merge_cons : merge (b :: bs) = joinCons b (merge bs) := rfl

/-- Blocks are merged from the right. -/
theorem merge_append : merge (pre ++ post) = pre.foldr joinCons (merge post) :=
  List.foldr_append ..

/-- Where no two free blocks meet, none are joined. -/
theorem joinCons_of_merged (h : Merged (b :: bs)) : joinCons b bs = b :: bs := by
  cases bs with
  | nil => rfl
  | cons c cs =>
    have hbc : b.alloc = true ∨ c.alloc = true := (List.isChain_cons_cons.1 h).1
    rw [joinCons, if_neg]
    rintro ⟨hb, hc⟩
    rw [hb, hc] at hbc
    exact hbc.elim nofun nofun

/-- A merged list is merged already. -/
theorem merge_of_merged (h : Merged bs) : merge bs = bs := by
  induction bs with
  | nil => rfl
  | cons b bs ih => rw [merge_cons, ih (List.isChain_cons.1 h).2, joinCons_of_merged h]

/-- Joining free blocks is associative. -/
theorem joinCons_joinCons (hb : b.alloc = false) (hc : c.alloc = false) :
    joinCons b (joinCons c bs) = joinCons ⟨b.bp, b.size + c.size, false⟩ bs := by
  cases bs with
  | nil => exact if_pos ⟨hb, hc⟩
  | cons d ds =>
    cases hd : d.alloc with
    | true =>
      rw [joinCons, if_neg (by simp [hd]), joinCons, if_pos ⟨hb, hc⟩, joinCons,
        if_neg (by simp [hd])]
    | false =>
      rw [joinCons, if_pos ⟨hc, hd⟩, joinCons, if_pos ⟨hb, rfl⟩, joinCons, if_pos ⟨rfl, hd⟩]
      simp only [Nat.add_assoc]

/-- A run of free blocks joins as their union does. -/
theorem foldr_joinCons_free {mid : List Block} (hb : b.alloc = false)
    (hmid : ∀ c ∈ mid, c.alloc = false) :
    (b :: mid).foldr joinCons bs = joinCons (Block.union (b :: mid)) bs := by
  induction mid generalizing b with
  | nil => cases b; simp_all [Block.union]
  | cons c mid ih =>
    rw [List.foldr_cons, ih (hmid c List.mem_cons_self) fun d hd =>
      hmid d (List.mem_cons_of_mem _ hd), joinCons_joinCons hb rfl]
    simp [Block.union]

/-- The union of a run of free neighbours is what the canonical form has in their place. -/
theorem merge_union {mid : List Block} (hne : mid ≠ []) (hmid : ∀ c ∈ mid, c.alloc = false) :
    merge (pre ++ mid ++ post) = merge (pre ++ Block.union mid :: post) := by
  obtain ⟨b, mid, rfl⟩ := List.exists_cons_of_ne_nil hne
  rw [List.append_assoc, merge_append, merge_append, merge_append,
    foldr_joinCons_free (hmid b List.mem_cons_self) fun c hc => hmid c (List.mem_cons_of_mem _ hc),
    merge_cons]

/-- The blocks with those at the pointers `ps` freed. -/
def mark (ps : List Nat) (bs : List Block) : List Block :=
  bs.map fun b => if b.bp ∈ ps then b.freed else b

/-- A block after a join was there, or is the one in front, which may have grown. -/
theorem mem_joinCons (hc : c ∈ joinCons b bs) :
    c ∈ bs ∨ c = b ∨ c.bp = b.bp ∧ b.alloc = false := by
  cases bs with
  | nil => exact .inr (.inl (List.mem_singleton.1 hc))
  | cons d ds =>
    rw [joinCons] at hc
    split at hc
    · next hbd =>
      rcases List.mem_cons.1 hc with rfl | hc
      · exact .inr (.inr ⟨rfl, hbd.1⟩)
      · exact .inl (List.mem_cons_of_mem _ hc)
    · rcases List.mem_cons.1 hc with rfl | hc
      · exact .inr (.inl rfl)
      · exact .inl hc

/-- A free block of the canonical form starts where a free block did. -/
theorem mem_merge_free (hc : c ∈ merge bs) (ha : c.alloc = false) :
    ∃ d ∈ bs, d.alloc = false ∧ d.bp = c.bp := by
  induction bs with
  | nil => cases hc
  | cons b bs ih =>
    rcases mem_joinCons hc with hc | rfl | ⟨hbp, hb⟩
    · obtain ⟨d, hd, hda, he⟩ := ih hc
      exact ⟨d, List.mem_cons_of_mem _ hd, hda, he⟩
    · exact ⟨c, List.mem_cons_self, ha, rfl⟩
    · exact ⟨b, List.mem_cons_self, hb, hbp.symm⟩

/-- Two neighbours may be joined before blocks other than free ones are freed. -/
theorem merge_mark_joinCons {ps : List Nat} (hb : b.alloc = false → b.bp ∉ ps)
    (hbs : ∀ c ∈ bs, c.alloc = false → c.bp ∉ ps) :
    merge (mark ps (joinCons b bs)) = merge (mark ps (b :: bs)) := by
  cases bs with
  | nil => rfl
  | cons c cs =>
    rw [joinCons]
    split
    · next hbc =>
      have hbm := hb hbc.1
      have hcm := hbs c List.mem_cons_self hbc.2
      simp only [mark, List.map_cons, if_neg hbm, if_neg hcm, merge_cons]
      exact (joinCons_joinCons hbc.1 hbc.2).symm
    · rfl

/-- **Merging and freeing.** Blocks that are merged before others are freed are the same blocks as
those merged after it. -/
theorem merge_mark_merge {ps : List Nat} (hps : ∀ b ∈ bs, b.alloc = false → b.bp ∉ ps) :
    merge (mark ps (merge bs)) = merge (mark ps bs) := by
  induction bs with
  | nil => rfl
  | cons b bs ih =>
    have hps' : ∀ c ∈ bs, c.alloc = false → c.bp ∉ ps := fun c hc =>
      hps c (List.mem_cons_of_mem _ hc)
    have hmerge : ∀ c ∈ merge bs, c.alloc = false → c.bp ∉ ps := by
      intro c hc ha
      obtain ⟨d, hd, hda, he⟩ := mem_merge_free hc ha
      exact he ▸ hps' d hd hda
    rw [merge_cons, merge_mark_joinCons (hps b List.mem_cons_self) hmerge]
    simp only [mark, List.map_cons, merge_cons]
    exact congrArg _ (ih hps')

/-- Freeing in two goes is freeing at once. -/
theorem mark_append (ps qs : List Nat) (bs : List Block) :
    mark (ps ++ qs) bs = mark qs (mark ps bs) := by
  rw [mark, mark, mark, List.map_map]
  refine List.map_congr_left fun b _ => ?_
  by_cases hp : b.bp ∈ ps
  · by_cases hq : b.bp ∈ qs <;> simp [hp, hq, Block.freed]
  · by_cases hq : b.bp ∈ qs <;> simp [hp, hq]

/-- Which blocks are freed is all that matters. -/
theorem mark_congr {ps qs : List Nat} (h : ∀ x, x ∈ ps ↔ x ∈ qs) (bs : List Block) :
    mark ps bs = mark qs bs :=
  List.map_congr_left fun b _ => if_congr (h b.bp) rfl rfl

/-! ## The operations -/

/-- The heap without its memory: the blocks in address order, and the free list. -/
structure Shape where
  blocks : List Block
  list : List Nat
  deriving DecidableEq

/-- The free block right before a place, if there is one. -/
def freeLast (pre : List Block) : List Block := pre.getLast?.toList.filter fun p => !p.alloc

/-- The free block right after a place, if there is one. -/
def freeHead (post : List Block) : List Block := post.head?.toList.filter fun n => !n.alloc

/-- The free block that the free block `b` and its free neighbours make. -/
def Block.joined (pre : List Block) (b : Block) (post : List Block) : Block :=
  Block.union (freeLast pre ++ b :: freeHead post)

/-- `coalesce` on a free block between `pre` and `post` that is not on the list `fl`: the union
comes to the front of the list, and the neighbours leave it. -/
def Shape.coalesce (pre : List Block) (b : Block) (post : List Block) (fl : List Nat) : Shape where
  blocks := pre.take (pre.length - (freeLast pre).length) ++
    Block.joined pre b post :: post.drop (freeHead post).length
  list := (Block.joined pre b post).bp :: fl.diff ((freeHead post ++ freeLast pre).map Block.bp)

/-- The block at a pointer, with the blocks before and after it. -/
def locate (bp : Nat) : List Block → Option (List Block × Block × List Block)
  | [] => none
  | b :: bs =>
    if b.bp = bp then some ([], b, bs)
    else (locate bp bs).map fun (pre, c, post) => (b :: pre, c, post)

/-- `mm_free` -/
def Shape.free (s : Shape) (bp : Nat) : Shape :=
  match locate bp s.blocks with
  | some (pre, b, post) => .coalesce pre b.freed post s.list
  | none => s

/-- `place`: the block is split where enough is left of it. -/
def Shape.place (s : Shape) (bp asize : Nat) : Shape :=
  match locate bp s.blocks with
  | some (pre, b, post) =>
    if asize + 16 ≤ b.size then
      .coalesce (pre ++ [b.head asize]) (b.rest asize) post (s.list.erase bp)
    else ⟨pre ++ ⟨b.bp, b.size, true⟩ :: post, s.list.erase bp⟩
  | none => s

/-- `find_fit`: the first block of the list that is large enough. -/
def Shape.findFit (s : Shape) (asize : Nat) : Nat :=
  (s.list.find? fun p => s.blocks.any fun b => b.bp = p && decide (asize ≤ b.size)).getD 0

/-- `extend_heap` from the break `brk` by `size` bytes: a free block is appended. -/
def Shape.extend (s : Shape) (brk size : Nat) : Nat × Shape :=
  ((Block.joined s.blocks ⟨brk, size, false⟩ []).bp, .coalesce s.blocks ⟨brk, size, false⟩ [] s.list)

/-- The heap `mm_init` makes on storage at `start`: one free chunk. -/
def Shape.init (start : Nat) : Shape := ⟨[⟨start + 16, chunksize, false⟩], [start + 16]⟩

/-- `mm_malloc` under the break `brk` and its limit: the pointer, the break and the heap after
it. -/
def Shape.malloc (s : Shape) (brk limit size : Nat) : Nat × Nat × Shape :=
  if size = 0 then (0, brk, s)
  else
    let asize := adjust size
    let bp := s.findFit asize
    if bp ≠ 0 then (bp, brk, s.place bp asize)
    else
      let n := max asize chunksize
      if n < 2 ^ 31 ∧ brk + n ≤ limit then
        let (bp, s) := s.extend brk n
        (bp, brk + n, s.place bp asize)
      else (0, brk, s)

/-- A block is found at its pointer where no block before it starts there. -/
theorem locate_append (hpre : ∀ c ∈ pre, c.bp ≠ b.bp) :
    locate b.bp (pre ++ b :: post) = some (pre, b, post) := by
  induction pre with
  | nil => exact if_pos rfl
  | cons c pre ih =>
    rw [List.cons_append, locate, if_neg (hpre c List.mem_cons_self),
      ih fun d hd => hpre d (List.mem_cons_of_mem _ hd)]
    rfl

/-- The neighbours taken away and those left. -/
theorem take_freeLast (pre : List Block) :
    pre.take (pre.length - (freeLast pre).length) ++ freeLast pre = pre := by
  rcases List.eq_nil_or_concat pre with rfl | ⟨pre', p, rfl⟩
  · rfl
  · rw [List.concat_eq_append]
    cases hp : p.alloc with
    | false => simp [freeLast, hp]
    | true =>
      have hl : freeLast (pre' ++ [p]) = [] := by simp [freeLast, hp]
      rw [hl, List.append_nil]
      exact List.take_length

/-- A free block in front, and the rest. -/
theorem drop_freeHead (post : List Block) :
    freeHead post ++ post.drop (freeHead post).length = post := by
  cases post with
  | nil => rfl
  | cons n post => cases hn : n.alloc <;> simp [freeHead, hn]

/-- What is joined on the left is free. -/
theorem freeLast_free (hc : c ∈ freeLast pre) : c.alloc = false := by
  simpa using (List.mem_filter.1 hc).2

/-- What is joined on the right is free. -/
theorem freeHead_free (hc : c ∈ freeHead post) : c.alloc = false := by
  simpa using (List.mem_filter.1 hc).2

/-- What is left before a place, and after it, ends in an allocated block. -/
theorem take_freeLast_alloc (h : Merged pre) :
    ∀ p ∈ (pre.take (pre.length - (freeLast pre).length)).getLast?, p.alloc = true := by
  rcases List.eq_nil_or_concat pre with rfl | ⟨pre', p, rfl⟩
  · nofun
  · rw [List.concat_eq_append] at h ⊢
    cases hp : p.alloc with
    | false =>
      have hl : freeLast (pre' ++ [p]) = [p] := by simp [freeLast, hp]
      rw [hl, List.length_append, Nat.add_sub_cancel, List.take_left]
      exact h.before hp
    | true =>
      have hl : freeLast (pre' ++ [p]) = [] := by simp [freeLast, hp]
      intro q hq
      rw [hl, List.length_nil, Nat.sub_zero, List.take_length, List.getLast?_concat] at hq
      cases hq
      exact hp

/-- After the free block that is joined comes an allocated one. -/
theorem drop_freeHead_alloc (h : Merged post) :
    ∀ n ∈ (post.drop (freeHead post).length).head?, n.alloc = true := by
  cases post with
  | nil => nofun
  | cons n post =>
    cases hn : n.alloc with
    | false =>
      have hr : freeHead (n :: post) = [n] := by simp [freeHead, hn]
      rw [hr]
      exact h.after hn
    | true =>
      have hr : freeHead (n :: post) = [] := by simp [freeHead, hn]
      intro q hq
      rw [hr, List.length_nil, List.drop_zero, List.head?_cons] at hq
      cases hq
      exact hn

/-- The two parts of a merged list are merged. -/
theorem Merged.of_append (h : Merged (pre ++ post)) : Merged pre ∧ Merged post :=
  ⟨(List.isChain_append.1 h).1, (List.isChain_append.1 h).2.1⟩

/-- Coalescing a block between two merged sides leaves a merged list. -/
theorem Shape.coalesce_merged (hpre : Merged pre) (hpost : Merged post) (b : Block) (fl : List Nat) :
    Merged (Shape.coalesce pre b post fl).blocks := by
  have hl := take_freeLast pre
  have hr := drop_freeHead post
  refine merged_insert ?_ ?_ (fun p hp => .inl (take_freeLast_alloc hpre p hp))
    fun n hn => .inr (drop_freeHead_alloc hpost n hn)
  · rw [← hl] at hpre
    exact hpre.of_append.1
  · rw [← hr] at hpost
    exact hpost.of_append.2

/-- **Coalescing computes the canonical form.** -/
theorem Shape.coalesce_blocks (hb : b.alloc = false) (hpre : Merged pre) (hpost : Merged post)
    (fl : List Nat) : (Shape.coalesce pre b post fl).blocks = merge (pre ++ b :: post) := by
  have hfree : ∀ c ∈ freeLast pre ++ b :: freeHead post, c.alloc = false := by
    intro c hc
    rcases List.mem_append.1 hc with hc | hc
    · exact freeLast_free hc
    · rcases List.mem_cons.1 hc with rfl | hc
      · exact hb
      · exact freeHead_free hc
  have hsplit : pre ++ b :: post = pre.take (pre.length - (freeLast pre).length) ++
      (freeLast pre ++ b :: freeHead post) ++ post.drop (freeHead post).length := by
    conv_lhs => rw [← take_freeLast pre, ← drop_freeHead post]
    simp only [List.append_assoc, List.cons_append]
  rw [hsplit, merge_union (by simp) hfree]
  exact (merge_of_merged (Shape.coalesce_merged hpre hpost b fl)).symm

end

end Malloc
