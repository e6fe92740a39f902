import Styrikerfi.Mdriver.Overlap

/-!
# What the check says of a correct allocator

`Serves` is the contract of an allocator as its client sees it, over the requests of a trace: every
call returns, a payload handed out is aligned, in the heap and apart from the payloads held, and a
block that is moved still has the bytes last written to it, as far as both payloads reach. The
client (`Client`) knows the calls and their answers only, and fills each block with one byte.

`Tracks` relates the client to the driver; `Tracks.step` is the one operation, and the induction
over the trace carries it. A correct allocator is stopped in one place: a moved block is read back
as signed characters, so the block of an id whose low byte is 128 or more never matches
(`Tracks.preserved_iff`). `serves_valid_iff` is the verdict, and `moved_rejected` a check of two
operations that rejects a correct allocator.
-/

namespace Mdriver

open Machine32 Malloc

/-! ## The contract -/

/-- A payload with the bytes last written to it. -/
structure Block extends Payload where
  contents : Nat → UInt8

/-- What the client of an allocator knows: the payloads it holds, and for each id the last block
given to it. -/
structure Client where
  held : List Payload
  last : Nat → Option Block

/-- The payload at `lo` is given back. -/
def Client.release (c : Client) (lo : Nat) : Client :=
  { c with held := c.held.eraseP fun q => q.lo = lo }

/-- The id is given a payload, and writes its low byte to all of it. -/
def Client.take (c : Client) (index : Nat) (p : Payload) : Client where
  held := p :: c.held
  last := Function.update c.last index (some ⟨p, fun _ => UInt8.ofNat (lowByte index)⟩)

/-- The memory after the write. -/
def written {τ : Type} (st : State τ) (index : Nat) (p : Payload) : State τ :=
  { st with mem := fill st.mem p.lo (UInt8.ofNat (lowByte index)) p.len }

/-- A payload that may be handed out: aligned, in the heap, apart from those held. -/
structure Correct (m : Memlib) (held : List Payload) (p : Payload) : Prop where
  aligned : p.lo % alignment = 0
  start_le : m.memStartBrk ≤ p.lo
  le_brk : p.lo + p.len ≤ m.memBrk
  apart : ∀ q ∈ held, p.Apart q

/-- **A correct allocator**, over the requests `ops` of the client `c`. -/
def Serves {τ : Type} (A : Allocator τ) : State τ → Client → List TraceOp → Prop
  | _, _, [] => True
  | st, c, op :: ops =>
    match op.type with
    | .alloc => ∃ p st', A.mmMalloc st (ofInt op.size) = some (p, st') ∧
        Correct st'.lib c.held ⟨p, op.size.toNat⟩ ∧
        Serves A (written st' op.index ⟨p, op.size.toNat⟩) (c.take op.index ⟨p, op.size.toNat⟩) ops
    | .realloc => ∀ old, c.last op.index = some old →
        ∃ p st', A.mmRealloc st old.lo (ofInt op.size) = some (p, st') ∧
          Correct st'.lib (c.release old.lo).held ⟨p, op.size.toNat⟩ ∧
          (∀ j < min old.len op.size.toNat, st'.mem (p + j) = old.contents j) ∧
          Serves A (written st' op.index ⟨p, op.size.toNat⟩)
            ((c.release old.lo).take op.index ⟨p, op.size.toNat⟩) ops
    | .free => ∀ old, c.last op.index = some old →
        ∃ st', A.mmFree st old.lo = some st' ∧ Serves A st' (c.release old.lo) ops

/-- A correct allocator over a whole trace, on the heap after `mem_reset_brk`. -/
def ServesTrace {τ : Type} (A : Allocator τ) (st : State τ) (ops : List TraceOp) : Prop :=
  ∃ r st', A.mmInit { st with lib := st.lib.memResetBrk } = some (r, st') ∧ 0 ≤ r ∧
    Serves A st' ⟨[], fun _ => none⟩ ops

/-- Each id is allocated before it is reallocated or freed, after the ids `seen`, and requests ask
for at least one byte. -/
def WellFormed (seen : List Nat) : List TraceOp → Prop
  | [] => True
  | op :: ops =>
    match op.type with
    | .alloc => 1 ≤ op.size ∧ WellFormed (op.index :: seen) ops
    | .realloc => 1 ≤ op.size ∧ op.index ∈ seen ∧ WellFormed seen ops
    | .free => op.index ∈ seen ∧ WellFormed seen ops

/-- The id of a block that is moved has a low byte that is a `char`. -/
def Legible (op : TraceOp) : Prop := op.type = .realloc → lowByte op.index < 128

section
variable {τ : Type} {A : Allocator τ} {tracenum opnum : Nat} {d d' : Driver τ} {op : TraceOp}
  {ops : List TraceOp} {c : Client} {seen : List Nat}

/-! ## The driver and its client -/

/-- The driver's arrays and its range list are what the client knows. -/
structure Tracks (d : Driver τ) (c : Client) (seen : List Nat) : Prop where
  ranges : d.ranges = c.held.map Payload.range
  pos : ∀ p ∈ c.held, 0 < p.len
  blocks : ∀ {i b}, c.last i = some b → d.blocks i = b.lo ∧ d.blockSizes i = b.len ∧ 0 < b.len ∧
    b.len < 2 ^ 31 ∧ ∀ j, b.contents j = UInt8.ofNat (lowByte i)
  seen : ∀ i ∈ seen, ∃ b, c.last i = some b

/-- A correct payload is accepted. -/
theorem Correct.accepted {m : Memlib} {held : List Payload} {p : Nat} {size : Int}
    (h : Correct m held ⟨p, size.toNat⟩) (hpos : ∀ q ∈ held, 0 < q.len) (h1 : 1 ≤ size)
    (hsz : size < 2 ^ 31) :
    ∀ rs, addRange m (held.map Payload.range) p size tracenum opnum = .ok rs ↔
      rs = (Payload.mk p size.toNat :: held).map Payload.range := by
  intro rs
  rw [addRange_eq_ok_iff hsz]
  refine ⟨fun h => h.2.2, fun hrs => ⟨⟨h1, h.aligned, h.start_le, h.le_brk⟩, ?_, hrs⟩⟩
  intro r hr
  obtain ⟨q, hq, rfl⟩ := List.mem_map.1 hr
  exact (Range.not_hit_iff (p := ⟨p, size.toNat⟩) (by dsimp only; omega) (hpos q hq)).2
    (.inl (h.apart q hq))

/-- **Reading a moved block.** Bytes that were kept pass the comparison exactly when the low byte of
the id is the value of a signed character. -/
theorem preserved_iff {mem : Mem} (newp : Nat) {index n : Nat} {size : Int} (hn : 0 < n)
    (hlt : n < 2 ^ 31) (h1 : 1 ≤ size)
    (hmem : ∀ j < min n size.toNat, mem (newp + j) = UInt8.ofNat (lowByte index)) :
    preserved mem newp (toInt n) size index = true ↔ lowByte index < 128 := by
  have hlow : lowByte index < 256 := Nat.mod_lt _ (by decide)
  have hmin : (if size < (n : Int) then size else (n : Int)).toNat = min n size.toNat := by
    split <;> omega
  have hone : 0 < min n size.toNat := by omega
  rw [preserved, toInt_of_lt hlt]
  simp only [List.all_eq_true, List.mem_range, decide_eq_true_eq, hmin]
  constructor
  · intro h
    have h0 := h 0 hone
    rw [hmem 0 hone] at h0
    exact (signedByte_eq_iff hlow).1 h0
  · intro h j hj
    rw [hmem j hj]
    exact (signedByte_eq_iff hlow).2 h

@[simp] theorem Client.take_last (c : Client) (index : Nat) (p : Payload) :
    (c.take index p).last index = some ⟨p, fun _ => UInt8.ofNat (lowByte index)⟩ :=
  Function.update_self ..

/-- What is held after a release was held before it. -/
theorem Client.release_sublist (c : Client) (lo : Nat) :
    List.Sublist (c.release lo).held c.held := List.eraseP_sublist

/-- A block freed is a payload and a range less. -/
theorem Tracks.release (h : Tracks d c seen) (lo : Nat) (st : State τ) :
    Tracks { d with st := st, ranges := removeRange d.ranges lo } (c.release lo) seen where
  ranges := by
    dsimp only
    rw [h.ranges, removeRange_map]
    rfl
  pos := fun p hp => h.pos p ((c.release_sublist lo).subset hp)
  blocks := h.blocks
  seen := h.seen

/-- A payload taken is remembered. -/
theorem Tracks.take (h : Tracks d c seen) (h1 : 1 ≤ op.size) (st : State τ) (p : Nat) :
    Tracks (d.remember st ((Payload.mk p op.size.toNat :: c.held).map Payload.range) p op)
      (c.take op.index ⟨p, op.size.toNat⟩) (op.index :: seen) where
  ranges := rfl
  pos := List.forall_mem_cons.2 ⟨by dsimp only; omega, h.pos⟩
  blocks := by
    intro i b hb
    have hsz := op.int.2
    simp only [Client.take, Function.update_apply] at hb
    simp only [Driver.remember, Function.update_apply]
    split at hb
    · rename_i hi
      cases hb
      rw [if_pos hi, if_pos hi, hi, ofInt_of_nonneg (by omega) hsz]
      exact ⟨rfl, rfl, by dsimp only; omega, by dsimp only; omega, fun _ => rfl⟩
    · rename_i hi
      rw [if_neg hi, if_neg hi]
      exact h.blocks hb
  seen := by
    intro i hi
    simp only [Client.take, Function.update_apply]
    split
    · exact ⟨_, rfl⟩
    · rename_i hne
      exact h.seen i ((List.mem_cons.1 hi).resolve_left hne)

/-- Fewer ids are known too. -/
theorem Tracks.mono {seen' : List Nat} (h : Tracks d c seen) (hs : ∀ i ∈ seen', i ∈ seen) :
    Tracks d c seen' := ⟨h.ranges, h.pos, h.blocks, fun i hi => h.seen i (hs i hi)⟩

/-- To remember a block is to write its id into it. -/
theorem remember_st (st : State τ) (rs : List Range) (p : Nat) (h1 : 1 ≤ op.size) :
    (d.remember st rs p op).st = written st op.index ⟨p, op.size.toNat⟩ := by
  rw [Driver.remember, written, ofInt_of_nonneg (by omega) op.int.2]

/-- **Step lemma.** The next operation of a well-formed trace, under a correct allocator, passes
when it is legible, and then the client goes on. -/
theorem Tracks.step (tracenum opnum : Nat) (h : Tracks d c seen) (hwf : WellFormed seen (op :: ops))
    (hA : Serves A d.st c (op :: ops)) :
    ∃ d₁ c₁ seen₁, (∀ d', evalOp A tracenum opnum d op = .ok d' ↔ Legible op ∧ d' = d₁) ∧
      Tracks d₁ c₁ seen₁ ∧ WellFormed seen₁ ops ∧ Serves A d₁.st c₁ ops := by
  cases ht : op.type with
  | alloc =>
    simp only [WellFormed, ht] at hwf
    simp only [Serves, ht] at hA
    obtain ⟨h1, hwf⟩ := hwf
    obtain ⟨p, st, hm, hp, hA⟩ := hA
    refine ⟨_, _, _, fun d' => ?_, h.take h1 st p, hwf, by rwa [remember_st st _ p h1]⟩
    have hleg : Legible op := fun hr => nomatch ht.symm.trans hr
    rw [evalOp_alloc ht, hm, h.ranges]
    constructor
    · rintro ⟨_, _, rs, hst, hadd, rfl⟩
      cases hst
      rw [(hp.accepted h.pos h1 op.int.2 rs).1 hadd]
      exact ⟨hleg, rfl⟩
    · rintro ⟨-, rfl⟩
      exact ⟨p, st, _, rfl, (hp.accepted h.pos h1 op.int.2 _).2 rfl, rfl⟩
  | realloc =>
    simp only [WellFormed, ht] at hwf
    simp only [Serves, ht] at hA
    obtain ⟨h1, hin, hwf⟩ := hwf
    obtain ⟨old, hold⟩ := h.seen _ hin
    obtain ⟨p, st, hm, hp, hkept, hA⟩ := hA old hold
    obtain ⟨hlo, hlen, hpos, hlt, hby⟩ := h.blocks hold
    have hrel := h.release old.lo d.st
    refine ⟨_, _, seen, fun d' => ?_, ((hrel.take h1 st p).mono fun i => List.mem_cons_of_mem _),
      hwf, by rwa [remember_st st _ p h1]⟩
    have hpres := preserved_iff p hpos hlt h1 fun j hj => (hkept j hj).trans (hby j)
    rw [evalOp_realloc ht, hlo, hlen, hm, show removeRange d.ranges old.lo = _ from hrel.ranges]
    constructor
    · rintro ⟨_, _, rs, hst, hadd, hok, rfl⟩
      cases hst
      rw [(hp.accepted hrel.pos h1 op.int.2 rs).1 hadd]
      exact ⟨fun _ => hpres.1 hok, rfl⟩
    · rintro ⟨hleg, rfl⟩
      exact ⟨p, st, _, rfl, (hp.accepted hrel.pos h1 op.int.2 _).2 rfl, hpres.2 (hleg ht), rfl⟩
  | free =>
    simp only [WellFormed, ht] at hwf
    simp only [Serves, ht] at hA
    obtain ⟨hin, hwf⟩ := hwf
    obtain ⟨old, hold⟩ := h.seen _ hin
    obtain ⟨st, hm, hA⟩ := hA old hold
    obtain ⟨hlo, -⟩ := h.blocks hold
    refine ⟨_, _, seen, fun d' => ?_, h.release old.lo st, hwf, hA⟩
    have hleg : Legible op := fun hr => nomatch ht.symm.trans hr
    rw [evalOp_free ht, hlo, hm]
    constructor
    · rintro ⟨_, hst, rfl⟩
      cases hst
      exact ⟨hleg, rfl⟩
    · rintro ⟨-, rfl⟩
      exact ⟨st, rfl, rfl⟩

/-- The loop gets to the end of a well-formed trace exactly when every operation is legible. -/
theorem Tracks.evalOps (tracenum opnum : Nat) (h : Tracks d c seen) (hwf : WellFormed seen ops)
    (hA : Serves A d.st c ops) :
    (∃ d', evalOps A tracenum opnum d ops = .ok d') ↔ ∀ op ∈ ops, Legible op := by
  induction ops generalizing d c seen opnum with
  | nil => exact ⟨fun _ _ ho => absurd ho List.not_mem_nil, fun _ => ⟨d, rfl⟩⟩
  | cons op ops ih =>
    obtain ⟨d₁, c₁, seen₁, hop, h1, hwf1, hA1⟩ := h.step tracenum opnum hwf hA
    have hrest := ih (opnum + 1) h1 hwf1 hA1
    simp only [Mdriver.evalOps, bind_eq_ok, hop, List.forall_mem_cons, ← hrest]
    constructor
    · rintro ⟨d', _, ⟨hleg, rfl⟩, hd'⟩
      exact ⟨hleg, d', hd'⟩
    · rintro ⟨hleg, d', hd'⟩
      exact ⟨d', d₁, ⟨hleg, rfl⟩, hd'⟩

end

/-! ## The verdict -/

/-- **A correct allocator and the verdict.** On a well-formed trace the verdict is 1 exactly when
every block that is moved belongs to an id whose low byte is below 128. -/
theorem serves_valid_iff {τ : Type} {A : Allocator τ} {tracenum : Nat} {d : Driver τ}
    {ops : List TraceOp} (hwf : WellFormed [] ops) (hA : ServesTrace A d.st ops) :
    verdict (evalMmValid A tracenum d ops) = some 1 ↔ ∀ op ∈ ops, Legible op := by
  obtain ⟨r, st, hinit, hr, hA⟩ := hA
  have h0 : evalInit A tracenum d = .ok { d with st := st, ranges := [] } := by
    simp only [evalInit, bind_eq_ok, returned_eq_ok]
    exact ⟨(r, st), hinit, if_neg (by omega)⟩
  have htr : Tracks { d with st := st, ranges := [] } ⟨[], fun _ => none⟩ [] :=
    ⟨rfl, fun _ hp => absurd hp List.not_mem_nil, (fun hb => by cases hb),
      fun _ hi => absurd hi List.not_mem_nil⟩
  rw [verdict_eq_one, ← htr.evalOps tracenum 0 hwf hA]
  simp only [evalMmValid, bind_eq_ok, h0, Except.ok.injEq, exists_eq_left']

/-- Eight is in the range of an `int`. -/
theorem int_eight : -2 ^ 31 ≤ (8 : Int) ∧ (8 : Int) < 2 ^ 31 := by decide

/-- A block of 8 bytes that is moved to one of 16. -/
def movedOps (index : Nat) : List TraceOp :=
  [{ type := .alloc, index := index, size := 8, int := int_eight },
    { type := .realloc, index := index, size := 16 }]

/-- The scripted allocator serves the two requests. -/
theorem scripted_serves (index : Nat) : WellFormed [] (movedOps index) ∧
    ServesTrace scripted (scriptedDriver [16, 48]).st (movedOps index) := by
  have hsize : (1 : Int) ≤ 8 ∧ (1 : Int) ≤ 16 := by decide
  have hfirst : 16 % 8 = 0 ∧ 8 ≤ 16 ∧ 16 + 8 ≤ 8 + maxHeap := by decide
  have hmoved : 48 % 8 = 0 ∧ 8 ≤ 48 ∧ 48 + 16 ≤ 8 + maxHeap := by decide
  refine ⟨⟨hsize.1, hsize.2, List.mem_cons_self, trivial⟩, 0, _, rfl, Int.le_refl 0,
    16, _, rfl, ⟨hfirst.1, hfirst.2.1, hfirst.2.2, fun _ hq => absurd hq List.not_mem_nil⟩, ?_⟩
  intro old hold
  obtain rfl := Option.some.inj ((Client.take_last ..).symm.trans hold)
  refine ⟨48, _, rfl, ⟨hmoved.1, hmoved.2.1, hmoved.2.2, fun _ hq => ?_⟩, ?_, trivial⟩
  · exact absurd hq List.not_mem_nil
  intro j hj
  have hj : j < 8 := hj
  have hin : 16 ≤ 16 + j ∧ 16 + j < 16 + 8 := by omega
  exact (copy_byte (show j < 16 by omega)).trans (if_pos hin)

/-- The block of id 0 is moved, and the verdict is 1. -/
theorem serves_valid_iff_first :
    verdict (evalMmValid scripted 0 (scriptedDriver [16, 48]) (movedOps 0)) = some 1 ↔
      ∀ op ∈ movedOps 0, Legible op :=
  serves_valid_iff (scripted_serves 0).1 (scripted_serves 0).2

/-- The block of id 128 is moved with its bytes, and the verdict is 0. -/
theorem moved_rejected : WellFormed [] (movedOps 128) ∧
    ServesTrace scripted (scriptedDriver [16, 48]).st (movedOps 128) ∧
    verdict (evalMmValid scripted 0 (scriptedDriver [16, 48]) (movedOps 128)) = some 0 :=
  ⟨(scripted_serves 128).1, (scripted_serves 128).2, rfl⟩

end Mdriver
