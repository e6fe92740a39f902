import Styrikerfi.Mdriver.Driver

/-!
# What the range list accepts

A `Payload` is a block as its user sees it: an address and a number of bytes. Two payloads share no
byte when they are `Apart`; one that starts below another and ends above it `Encloses` it. The range
of a payload holds its first and its last address.

`addRange_eq_ok_iff` says when a payload is accepted, for arbitrary pointers and sizes: the address
arithmetic of the check does not wrap around, because the heap is shorter than a wrapped payload.
The test looks for an end of the new payload in a recorded range (`Range.Hit`), which is not the
same as a common byte (`Range.Meets`): `Range.meets_iff` has the missing case.
-/

namespace Mdriver

open Machine32 Malloc

/-! ## Payloads -/

/-- The bytes from `lo` on that a request of `len` bytes was answered with. -/
structure Payload where
  lo : Nat
  len : Nat
  deriving DecidableEq

namespace Payload

/-- No byte is in both. -/
def Apart (p q : Payload) : Prop := p.lo + p.len ≤ q.lo ∨ q.lo + q.len ≤ p.lo

instance (p q : Payload) : Decidable (p.Apart q) := inferInstanceAs (Decidable (_ ∨ _))

/-- `p` starts below `q` and ends above it. -/
def Encloses (p q : Payload) : Prop := p.lo < q.lo ∧ q.lo + q.len < p.lo + p.len

instance (p q : Payload) : Decidable (p.Encloses q) := inferInstanceAs (Decidable (_ ∧ _))

/-- The low and the high address of the payload. -/
def range (p : Payload) : Range := ⟨p.lo, p.lo + p.len - 1⟩

/-- What is apart does not enclose. -/
theorem Apart.not_encloses {p q : Payload} (h : p.Apart q) : ¬ p.Encloses q := by
  rintro ⟨hlo, hhi⟩
  unfold Apart at h
  omega

end Payload

/-! ## The test -/

namespace Range

/-- The range and the addresses from `lo` to `hi` have one in common. -/
def Meets (r : Range) (lo hi : Nat) : Prop := r.lo ≤ hi ∧ lo ≤ r.hi

/-- The range lies strictly between `lo` and `hi`. -/
def Inside (r : Range) (lo hi : Nat) : Prop := lo < r.lo ∧ r.hi < hi

/-- A common address puts an end of the one into the other, or the one inside the other. -/
theorem meets_iff {r : Range} {lo hi : Nat} (hr : r.lo ≤ r.hi) (h : lo ≤ hi) :
    r.Meets lo hi ↔ r.Hit lo hi ∨ r.Inside lo hi := by
  unfold Meets Hit Inside
  omega

/-- Between payloads of at least one byte the test misses the enclosed one only. -/
theorem not_hit_iff {p q : Payload} (hp : 0 < p.len) (hq : 0 < q.len) :
    ¬ q.range.Hit p.lo (p.lo + p.len - 1) ↔ p.Apart q ∨ p.Encloses q := by
  unfold Hit Payload.range Payload.Apart Payload.Encloses
  dsimp only
  omega

end Range

/-! ## add_range -/

section
variable {m : Memlib} {ranges rs : List Range} {lo tracenum opnum : Nat} {size : Int}

/-- A payload that starts in the heap ends in the heap exactly when the break is not below its end.
A wrapped end would lie below the heap. -/
theorem Memlib.payload_in_heap (m : Memlib) (hpos : 0 < size) (hsz : size < 2 ^ 31) :
    ¬ (lo < m.memHeapLo ∨ m.memHeapHi < lo ∨ wsub (wadd lo (ofInt size)) 1 < m.memHeapLo ∨
        m.memHeapHi < wsub (wadd lo (ofInt size)) 1) ↔
      m.memStartBrk ≤ lo ∧ lo + size.toNat ≤ m.memBrk := by
  have hs := m.start_pos
  have hle := m.le_brk
  have hbrk := m.brk_le
  have hlt := m.addressable
  have hmax : maxHeap = 20 * 2 ^ 20 := rfl
  have hhi : m.memHeapHi = m.memBrk - 1 := wsub_of_le (by omega)
  rw [hhi, ofInt_of_nonneg (by omega) hsz, Memlib.memHeapLo]
  unfold wadd wsub
  split <;> omega

/-- The end of a payload in the heap. -/
theorem Memlib.payload_end (m : Memlib) (hpos : 0 < size) (hsz : size < 2 ^ 31)
    (h : lo + size.toNat ≤ m.memBrk) : wsub (wadd lo (ofInt size)) 1 = lo + size.toNat - 1 := by
  have hbrk := m.brk_le
  have hlt := m.addressable
  rw [ofInt_of_nonneg (by omega) hsz, wsub_wadd (by omega) (by omega)]

/-- Where a payload of `size` bytes at `lo` may lie, the other payloads apart: aligned and in the
heap. -/
structure Placed (m : Memlib) (lo : Nat) (size : Int) : Prop where
  pos : 0 < size
  aligned : lo % alignment = 0
  start_le : m.memStartBrk ≤ lo
  le_brk : lo + size.toNat ≤ m.memBrk

/-- **What `add_range` accepts.** -/
theorem addRange_eq_ok_iff (hsz : size < 2 ^ 31) :
    addRange m ranges lo size tracenum opnum = .ok rs ↔
      Placed m lo size ∧ (∀ r ∈ ranges, ¬ r.Hit lo (lo + size.toNat - 1)) ∧
        rs = (Payload.mk lo size.toNat).range :: ranges := by
  by_cases hpos : 0 < size
  · by_cases hal : lo % alignment = 0
    · by_cases hin : m.memStartBrk ≤ lo ∧ lo + size.toNat ≤ m.memBrk
      · have hend := m.payload_end hpos hsz hin.2
        have hpl : Placed m lo size := ⟨hpos, hal, hin.1, hin.2⟩
        rw [addRange, if_neg (not_not.2 hpos), if_neg (not_not.2 hal),
          if_neg ((m.payload_in_heap hpos hsz).2 hin), hend]
        cases hf : ranges.find? fun p => decide (p.Hit lo (lo + size.toNat - 1)) with
        | some r =>
          have hhit := List.find?_some hf
          simp only [reduceCtorEq, false_iff, not_and]
          exact fun _ h _ => h r (List.mem_of_find?_eq_some hf) (of_decide_eq_true hhit)
        | none =>
          have hnone := List.find?_eq_none.1 hf
          simp only [decide_eq_true_eq] at hnone
          simp only [Except.ok.injEq, Payload.range]
          exact ⟨fun h => ⟨hpl, hnone, h.symm⟩, fun h => h.2.2.symm⟩
      · rw [addRange, if_neg (not_not.2 hpos), if_neg (not_not.2 hal),
          if_pos (not_not.1 fun h => hin ((m.payload_in_heap hpos hsz).1 h))]
        simp only [reduceCtorEq, false_iff]
        exact fun h => hin ⟨h.1.start_le, h.1.le_brk⟩
    · rw [addRange, if_neg (not_not.2 hpos), if_pos hal]
      simp only [reduceCtorEq, false_iff]
      exact fun h => hal h.1.aligned
  · rw [addRange, if_pos hpos]
    simp only [reduceCtorEq, false_iff]
    exact fun h => hpos h.1.pos

/-- A placed payload is accepted exactly when no recorded range holds one of its ends. -/
theorem addRange_accepts_iff (hsz : size < 2 ^ 31) (h : Placed m lo size) :
    (∃ rs, addRange m ranges lo size tracenum opnum = .ok rs) ↔
      ∀ r ∈ ranges, ¬ r.Hit lo (lo + size.toNat - 1) := by
  constructor
  · rintro ⟨rs, hok⟩
    exact ((addRange_eq_ok_iff hsz).1 hok).2.1
  · intro hno
    exact ⟨_, (addRange_eq_ok_iff hsz).2 ⟨h, hno, rfl⟩⟩

/-- **Accepting and sharing no address.** The two agree unless every range misses the ends of the
payload and one lies between them. -/
theorem addRange_iff_apart_iff (hsz : size < 2 ^ 31) (h : Placed m lo size)
    (hrs : ∀ r ∈ ranges, r.lo ≤ r.hi) :
    ((∃ rs, addRange m ranges lo size tracenum opnum = .ok rs) ↔
        ∀ r ∈ ranges, ¬ r.Meets lo (lo + size.toNat - 1)) ↔
      ((∀ r ∈ ranges, ¬ r.Hit lo (lo + size.toNat - 1)) →
        ∀ r ∈ ranges, ¬ r.Inside lo (lo + size.toNat - 1)) := by
  have hpos := h.pos
  rw [addRange_accepts_iff hsz h]
  constructor
  · intro hiff hno r hr hin
    exact hiff.1 hno r hr ((Range.meets_iff (hrs r hr) (by omega)).2 (.inr hin))
  · intro himp
    constructor
    · intro hno r hr hmeet
      exact ((Range.meets_iff (hrs r hr) (by omega)).1 hmeet).elim (hno r hr) (himp hno r hr)
    · intro hno r hr hhit
      exact hno r hr ((Range.meets_iff (hrs r hr) (by omega)).2 (.inl hhit))

end

/-- The list of ranges loses the record of the first payload at `lo`. -/
theorem removeRange_map (held : List Payload) (lo : Nat) :
    removeRange (held.map Payload.range) lo =
      (held.eraseP fun q => q.lo = lo).map Payload.range := by
  rw [removeRange, List.eraseP_map]
  rfl

/-! ## What one operation gets past -/

/-- A sequence returns if and only if both of its parts do. -/
theorem bind_eq_ok {α β ε : Type} {x : Except ε α} {f : α → Except ε β} {b : β} :
    (x >>= f) = .ok b ↔ ∃ a, x = .ok a ∧ f a = .ok b := by
  cases x with
  | error e => exact ⟨(nomatch ·), fun ⟨_, h, _⟩ => nomatch h⟩
  | ok a => exact ⟨fun h => ⟨a, rfl, h⟩, fun ⟨_, h, hf⟩ => Except.ok.inj h ▸ hf⟩

/-- A call that returns is a value. -/
theorem returned_eq_ok {α : Type} {x : Option α} {a : α} : returned x = .ok a ↔ x = some a := by
  cases x with
  | none => exact ⟨(nomatch ·), (nomatch ·)⟩
  | some b =>
    exact ⟨fun h => congrArg some (Except.ok.inj h), fun h => congrArg _ (Option.some.inj h)⟩

section
variable {τ : Type} {A : Allocator τ} {tracenum opnum : Nat} {d d' : Driver τ} {op : TraceOp}

/-- A payload at `NULL` is below the heap. -/
theorem addRange_null {lib : Memlib} {ranges rs : List Range} :
    addRange lib ranges 0 op.size tracenum opnum ≠ .ok rs := fun hok => by
  have := ((addRange_eq_ok_iff op.int.2).1 hok).1.start_le
  have := lib.start_pos
  omega

/-- A request for memory passes when the payload is accepted. -/
theorem evalOp_alloc (h : op.type = .alloc) :
    evalOp A tracenum opnum d op = .ok d' ↔ ∃ p st rs,
      A.mmMalloc d.st (ofInt op.size) = some (p, st) ∧
        addRange st.lib d.ranges p op.size tracenum opnum = .ok rs ∧ d' = d.remember st rs p op := by
  simp only [evalOp, h, bind_eq_ok, returned_eq_ok, Prod.exists]
  refine exists_congr fun p => exists_congr fun st => ?_
  by_cases hp : p = 0
  · simp only [hp, if_true, reduceCtorEq, and_false, false_iff, not_exists, not_and]
    exact fun rs _ hok => absurd hok addRange_null
  · simp only [if_neg hp, bind_eq_ok, Except.ok.injEq, exists_and_left, eq_comm (b := d')]

/-- A block is moved when the new payload is accepted and its bytes are those of the old one. -/
theorem evalOp_realloc (h : op.type = .realloc) :
    evalOp A tracenum opnum d op = .ok d' ↔ ∃ p st rs,
      A.mmRealloc d.st (d.blocks op.index) (ofInt op.size) = some (p, st) ∧
        addRange st.lib (removeRange d.ranges (d.blocks op.index)) p op.size tracenum opnum = .ok rs ∧
        preserved st.mem p (toInt (d.blockSizes op.index)) op.size op.index = true ∧
        d' = d.remember st rs p op := by
  simp only [evalOp, h, bind_eq_ok, returned_eq_ok, Prod.exists]
  refine exists_congr fun p => exists_congr fun st => ?_
  by_cases hp : p = 0
  · simp only [hp, if_true, reduceCtorEq, and_false, false_iff, not_exists, not_and]
    exact fun rs _ hok => absurd hok addRange_null
  · simp only [if_neg hp, bind_eq_ok, exists_and_left]
    refine and_congr_right fun _ => exists_congr fun rs => and_congr_right fun _ => ?_
    split
    · rename_i hpres
      simp only [Except.ok.injEq, hpres, true_and, eq_comm (b := d')]
    · rename_i hpres
      simp only [reduceCtorEq, hpres, false_and]

/-- A block is freed whatever the call does, as long as it returns. -/
theorem evalOp_free (h : op.type = .free) :
    evalOp A tracenum opnum d op = .ok d' ↔ ∃ st, A.mmFree d.st (d.blocks op.index) = some st ∧
      d' = { d with st := st, ranges := removeRange d.ranges (d.blocks op.index) } := by
  simp only [evalOp, h, bind_eq_ok, returned_eq_ok, Except.ok.injEq, eq_comm (b := d')]

end

end Mdriver
