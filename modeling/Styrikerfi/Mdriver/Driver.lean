import Styrikerfi.Malloc.Mm
import Mathlib.Logic.Function.Basic

/-!
# The correctness check of the trace driver

`eval_mm_valid` of `mdriver.c` and the range list it keeps. The allocator under test is a parameter:
four functions on the memory, the break of the memory system model and variables of its own. A call
that never comes back (the process exits, or loops) has no value.

The verdict 1 is a driver state, and every other way for the check to end is a `Stop`: an error line
and the verdict 0, a failed assertion, or a call of the allocator that does not return.
-/

namespace Mdriver

open Machine32 Malloc

/-- Alignment requirement in bytes. -/
def alignment : Nat := 8

/-- The private variables of `memlib.c`, on storage that is not at address 0 and ends below the end
of the address space. -/
structure Memlib where
  memStartBrk : Nat
  memBrk : Nat
  start_pos : 0 < memStartBrk
  le_brk : memStartBrk ≤ memBrk
  brk_le : memBrk ≤ memStartBrk + maxHeap
  addressable : memStartBrk + maxHeap < 2 ^ 32

/-- Resets the simulated brk pointer to make an empty heap. -/
def Memlib.memResetBrk (m : Memlib) : Memlib :=
  { m with memBrk := m.memStartBrk, le_brk := Nat.le_refl _, brk_le := Nat.le_add_right .. }

/-- The address of the first heap byte. -/
def Memlib.memHeapLo (m : Memlib) : Nat := m.memStartBrk

/-- The address of the last heap byte. -/
def Memlib.memHeapHi (m : Memlib) : Nat := wsub m.memBrk 1

/-- Memory, break and the variables of the allocator. -/
structure State (τ : Type) where
  mem : Mem
  lib : Memlib
  own : τ

/-- The allocator under test. -/
structure Allocator (τ : Type) where
  mmInit : State τ → Option (Int × State τ)
  mmMalloc : State τ → Nat → Option (Nat × State τ)
  mmRealloc : State τ → Nat → Nat → Option (Nat × State τ)
  mmFree : State τ → Nat → Option (State τ)

/-! ## Errors -/

/-- How a check ends without the verdict 1. -/
inductive Stop where
  /-- an error is printed, and the verdict is 0 -/
  | mallocError (line : String)
  /-- an assertion fails -/
  | abort
  /-- the allocator does not return -/
  | lost

/-- Trace request numbers as line numbers (origin 1). -/
def lineNum (i : Nat) : Nat := i + 5

/-- Reports an error returned by the `mm_malloc` package. -/
def mallocError (tracenum opnum : Nat) (msg : String) : Stop :=
  .mallocError s!"ERROR [trace {tracenum}, line {lineNum opnum}]: {msg}\n"

/-- A pointer as `%p` prints it. -/
def showPtr (p : Nat) : String :=
  if p = 0 then "(nil)" else "0x" ++ String.ofList (Nat.toDigits 16 p)

/-! ## The range list -/

/-- The extent of a block's payload: low and high payload address. -/
structure Range where
  lo : Nat
  hi : Nat
  deriving DecidableEq

/-- The test of `add_range`: one end of the payload from `lo` to `hi` lies in the range. -/
def Range.Hit (p : Range) (lo hi : Nat) : Prop := p.lo ≤ lo ∧ lo ≤ p.hi ∨ p.lo ≤ hi ∧ hi ≤ p.hi

instance (p : Range) (lo hi : Nat) : Decidable (p.Hit lo hi) := inferInstanceAs (Decidable (_ ∨ _))

/-- Checks a new block of `size` bytes at `lo` and adds its range to the list. -/
def addRange (m : Memlib) (ranges : List Range) (lo : Nat) (size : Int) (tracenum opnum : Nat) :
    Except Stop (List Range) :=
  let hi := wsub (wadd lo (ofInt size)) 1
  if ¬ 0 < size then .error .abort
  else if lo % alignment ≠ 0 then
    .error (mallocError tracenum opnum
      s!"Payload address ({showPtr lo}) not aligned to {alignment} bytes")
  else if lo < m.memHeapLo ∨ m.memHeapHi < lo ∨ hi < m.memHeapLo ∨ m.memHeapHi < hi then
    .error (mallocError tracenum opnum (s!"Payload ({showPtr lo}:{showPtr hi}) lies outside heap " ++
      s!"({showPtr m.memHeapLo}:{showPtr m.memHeapHi})"))
  else
    match ranges.find? fun p => p.Hit lo hi with
    | some p => .error (mallocError tracenum opnum (s!"Payload ({showPtr lo}:{showPtr hi}) " ++
        s!"overlaps another payload ({showPtr p.lo}:{showPtr p.hi})\n"))
    | none => .ok (⟨lo, hi⟩ :: ranges)

/-- Removes the range record of the block whose payload starts at `lo`. -/
def removeRange (ranges : List Range) (lo : Nat) : List Range := ranges.eraseP fun p => p.lo = lo

/-! ## eval_mm_valid -/

inductive OpType where
  | alloc | free | realloc
  deriving DecidableEq

/-- A single trace operation: `index` is for `free` to use later, `size` is the byte size of a
request, an `int`. -/
structure TraceOp where
  type : OpType
  index : Nat
  size : Int
  int : -2 ^ 31 ≤ size ∧ size < 2 ^ 31 := by decide

/-- The state of a check: memory and allocator, the range list, and the two arrays of the trace. -/
structure Driver (τ : Type) where
  st : State τ
  ranges : List Range
  /-- ptrs returned by malloc/realloc -/
  blocks : Nat → Nat
  /-- the payload sizes -/
  blockSizes : Nat → Nat

/-- `index & 0xFF` -/
def lowByte (index : Nat) : Nat := index % 256

/-- The result of a call, if it returns. -/
def returned {α : Type} : Option α → Except Stop α
  | some a => .ok a
  | none => .error .lost

section
variable {τ : Type}

/-- The block is filled with the low byte of the index, and remembered. -/
def Driver.remember (d : Driver τ) (st : State τ) (ranges : List Range) (p : Nat) (op : TraceOp) :
    Driver τ where
  st := { st with mem := fill st.mem p (UInt8.ofNat (lowByte op.index)) (ofInt op.size) }
  ranges := ranges
  blocks := Function.update d.blocks op.index p
  blockSizes := Function.update d.blockSizes op.index (ofInt op.size)

/-- The new block contains the data of the old one, as far as both reach: each of its bytes, a
`char`, is the low byte of the index, an `int`. -/
def preserved (mem : Mem) (newp : Nat) (oldsize size : Int) (index : Nat) : Bool :=
  let oldsize := if size < oldsize then size else oldsize
  (List.range oldsize.toNat).all fun j => signedByte (mem (newp + j)) = lowByte index

/-- One operation of the trace. -/
def evalOp (A : Allocator τ) (tracenum opnum : Nat) (d : Driver τ) (op : TraceOp) :
    Except Stop (Driver τ) :=
  match op.type with
  | .alloc => do
    let (p, st) ← returned (A.mmMalloc d.st (ofInt op.size))
    if p = 0 then .error (mallocError tracenum opnum "mm_malloc failed.")
    else
      let ranges ← addRange st.lib d.ranges p op.size tracenum opnum
      .ok (d.remember st ranges p op)
  | .realloc => do
    let oldp := d.blocks op.index
    let (newp, st) ← returned (A.mmRealloc d.st oldp (ofInt op.size))
    if newp = 0 then .error (mallocError tracenum opnum "mm_realloc failed.")
    else
      let ranges ← addRange st.lib (removeRange d.ranges oldp) newp op.size tracenum opnum
      if preserved st.mem newp (toInt (d.blockSizes op.index)) op.size op.index then
        .ok (d.remember st ranges newp op)
      else
        .error (mallocError tracenum opnum
          "mm_realloc did not preserve the data from old block")
  | .free => do
    let p := d.blocks op.index
    let st ← returned (A.mmFree d.st p)
    .ok { d with st := st, ranges := removeRange d.ranges p }

/-- The operations from the one with number `opnum` on. -/
def evalOps (A : Allocator τ) (tracenum : Nat) : Nat → Driver τ → List TraceOp →
    Except Stop (Driver τ)
  | _, d, [] => .ok d
  | opnum, d, op :: ops => do
    let d ← evalOp A tracenum opnum d op
    evalOps A tracenum (opnum + 1) d ops

/-- The heap is reset, the range list cleared and the allocator initialized. -/
def evalInit (A : Allocator τ) (tracenum : Nat) (d : Driver τ) : Except Stop (Driver τ) := do
  let (r, st) ← returned (A.mmInit { d.st with lib := d.st.lib.memResetBrk })
  if r < 0 then .error (mallocError tracenum 0 "mm_init failed.")
  else .ok { d with st := st, ranges := [] }

/-- Checks the `mm_malloc` package for correctness on the operations of a trace. -/
def evalMmValid (A : Allocator τ) (tracenum : Nat) (d : Driver τ) (ops : List TraceOp) :
    Except Stop (Driver τ) := do
  let d ← evalInit A tracenum d
  evalOps A tracenum 0 d ops

/-- The value `eval_mm_valid` returns, if it returns. -/
def verdict : Except Stop (Driver τ) → Option Int
  | .ok _ => some 1
  | .error (.mallocError _) => some 0
  | .error _ => none

end

end Mdriver
