import Styrikerfi.Lib.Scan
import Styrikerfi.Mdriver.Report

/-!
# Trace files

`read_trace` on the text of a file: four numbers, and then a request a line, as `fscanf` finds them,
built with a `long` and a `size_t` of 32 bits. `fopen` succeeds, and whether `malloc` does is a
parameter: its sizes are products that wrap. An index is kept as the unsigned number that is read. A
word that does not fit in the buffer for it, and a request beyond the room for them, are written
past the end of their arrays (`Halt.overrun`).

What is read depends on the words of the file alone, and a file that announces what it holds reads
back where its arrays are found (`readTrace_round_trip`); the assertions at the end look at the
number of requests and at the ids of those that ask for memory, and at nothing else. `main` on the
files of such traces is `main` on the traces (`evalFiles_traces`), as long as the arrays have a
place for each id: the evaluation of a trace takes them to be as long as they have to be.
-/

namespace Mdriver

open Machine32 Malloc

/-- The information of one trace file. -/
structure TraceFile where
  suggHeapsize : Int
  numIds : Int
  numOps : Int
  weight : Int
  ops : List TraceOp

/-- How reading a file ends the driver. -/
inductive Halt where
  /-- a line is printed, and the driver exits -/
  | exit (line : String)
  /-- `unix_error`: the message and that of `errno` are printed, and the driver exits -/
  | unixError (msg : String)
  /-- an assertion fails -/
  | abort
  /-- an array is written past its end -/
  | overrun

/-- The size of the buffer for a word. -/
def maxline : Nat := 1024

/-! ## Sizes -/

/-- `sizeof(trace_t)` -/
def traceSize : Nat := 28

/-- `trace->num_ops * sizeof(traceop_t)` -/
def opsBytes (numOps : Int) : Nat := ofInt numOps * 12 % 2 ^ 32

/-- `trace->num_ids * sizeof(char *)`, and the same for `size_t`. -/
def idsBytes (numIds : Int) : Nat := ofInt numIds * 4 % 2 ^ 32

/-- Where the writing of request `n` ends: the size, its last word, is not set by a free. -/
def opEnd (free : Bool) (n : Nat) : Nat := 12 * n + if free then 8 else 12

/-! ## Numbers -/

/-- `strtol`, which stops at the bounds of a `long`. -/
def strtol (x : Bool × Nat) : Int :=
  max (-2 ^ 31) (min (if x.1 then -(x.2 : Int) else x.2) (2 ^ 31 - 1))

/-- `strtoul`, which stops at the largest `unsigned long` and takes a sign as a negation. -/
def strtoul (x : Bool × Nat) : Nat :=
  if 2 ^ 32 ≤ x.2 then 2 ^ 32 - 1 else if x.1 then (2 ^ 32 - x.2) % 2 ^ 32 else x.2

/-- `fscanf(tracefile, "%d", &old)` -/
def scanInt (s : List Char) (old : Int) : Int × List Char :=
  match Scan.number s with
  | (some x, s) => (strtol x, s)
  | (none, s) => (old, s)

/-- `fscanf(tracefile, "%u %u", &index, &size)`: the second number is looked for when the first has
been found. -/
def scanPair (s : List Char) (index size : Nat) : Nat × Nat × List Char :=
  match Scan.number s with
  | (none, s) => (index, size, s)
  | (some x, s) =>
    match Scan.number s with
    | (none, s) => (strtoul x, size, s)
    | (some y, s) => (strtoul x, strtoul y, s)

/-- `fscanf(tracefile, "%ud", &index)`: a number, and a letter `d` right after it. -/
def scanIndex (s : List Char) (index : Nat) : Nat × List Char :=
  match Scan.number s with
  | (none, s) => (index, s)
  | (some x, 'd' :: s) => (strtoul x, s)
  | (some x, s) => (strtoul x, s)

/-! ## read_trace -/

/-- The variables of the loop, and the requests read so far. -/
structure Reader where
  index : Nat
  size : Nat
  maxIndex : Nat
  ops : List TraceOp

/-- The `int` of an unsigned number. -/
theorem toInt_int (n : Nat) : -2 ^ 31 ≤ toInt (n % 2 ^ 32) ∧ toInt (n % 2 ^ 32) < 2 ^ 31 := by
  unfold toInt
  split <;> omega

/-- A request as it is stored. -/
def traceOp (type : OpType) (index size : Nat) : TraceOp :=
  { type := type, index := index, size := toInt (size % 2 ^ 32), int := toInt_int size }

/-- One request line: its type is the first character of the word, and its numbers follow. The size
of a free is not set. The array of requests has `bytes` bytes. -/
def readOp (path : String) (bytes : Nat) (r : Reader) (word s : List Char) :
    Except Halt (Reader × List Char) :=
  if maxline ≤ word.length then .error .overrun
  else if word.head? = some 'a' ∨ word.head? = some 'r' then
    let (index, size, s) := scanPair s r.index r.size
    let type := if word.head? = some 'a' then .alloc else .realloc
    if bytes < opEnd false r.ops.length then .error .overrun
    else .ok (⟨index, size, if r.maxIndex < index then index else r.maxIndex,
      r.ops ++ [traceOp type index size]⟩, s)
  else if word.head? = some 'f' then
    let (index, s) := scanIndex s r.index
    if bytes < opEnd true r.ops.length then .error .overrun
    else .ok ({ r with index := index, ops := r.ops ++ [traceOp .free index 0] }, s)
  else
    .error (.exit s!"Bogus type character ({String.ofList (word.take 1)}) in tracefile {path}\n")

/-! What is left of the input after a request is no longer than it was. -/

/-- An id and a size leave no more than there was. -/
theorem scanPair_length (s : List Char) (index size : Nat) :
    (scanPair s index size).2.2.length ≤ s.length := by
  have h1 := Scan.number_length s
  unfold scanPair
  split
  · next h =>
    rw [h] at h1
    exact h1
  · next t h =>
    rw [h] at h1
    have h2 := Scan.number_length t
    split
    · next h' =>
      rw [h'] at h2
      exact h2.trans h1
    · next h' =>
      rw [h'] at h2
      exact h2.trans h1

/-- An id leaves no more than there was. -/
theorem scanIndex_length (s : List Char) (index : Nat) :
    (scanIndex s index).2.length ≤ s.length := by
  have h1 := Scan.number_length s
  unfold scanIndex
  split
  · next h =>
    rw [h] at h1
    exact h1
  · next h =>
    rw [h] at h1
    exact (Nat.le_succ _).trans h1
  · next h =>
    rw [h] at h1
    exact h1

/-- A request leaves no more than there was. -/
theorem readOp_length {path : String} {bytes : Nat} {r r' : Reader} {word s t : List Char}
    (h : readOp path bytes r word s = .ok (r', t)) : t.length ≤ s.length := by
  unfold readOp at h
  split at h
  · cases h
  · split at h
    · dsimp only at h
      split at h
      · cases h
      · cases h
        exact scanPair_length ..
    · split at h
      · dsimp only at h
        split at h
        · cases h
        · cases h
          exact scanIndex_length ..
      · cases h

/-- The loop over the request lines. -/
def readOps (path : String) (bytes : Nat) (r : Reader) (s : List Char) : Except Halt Reader :=
  match _ : Scan.word s with
  | none => .ok r
  | some (word, t) =>
    match _ : readOp path bytes r word t with
    | .error e => .error e
    | .ok (r, u) => readOps path bytes r u
  termination_by s.length
  decreasing_by exact Nat.lt_of_le_of_lt (readOp_length ‹_›) (Scan.word_length ‹_›)

/-- Reads a trace file, with what is in the memory for its record and in the variable `size`.
`malloc i n` says whether the call numbered `i` in the messages, for `n` bytes, succeeds. -/
def readTrace (malloc : Nat → Nat → Bool) (garbage : TraceFile) (size : Nat) (path : String)
    (s : List Char) : Except Halt TraceFile :=
  if ¬ malloc 1 traceSize then .error (.unixError "malloc 1 failed in read_trance")
  else
    let (suggHeapsize, s) := scanInt s garbage.suggHeapsize
    let (numIds, s) := scanInt s garbage.numIds
    let (numOps, s) := scanInt s garbage.numOps
    let (weight, s) := scanInt s garbage.weight
    if ¬ malloc 2 (opsBytes numOps) then .error (.unixError "malloc 2 failed in read_trace")
    else if ¬ malloc 3 (idsBytes numIds) then .error (.unixError "malloc 3 failed in read_trace")
    else if ¬ malloc 4 (idsBytes numIds) then .error (.unixError "malloc 4 failed in read_trace")
    else
      match readOps path (opsBytes numOps) ⟨0, size, 0, []⟩ s with
      | .error e => .error e
      | .ok r =>
        if r.maxIndex ≠ ofInt (numIds - 1) then .error .abort
        else if ofInt numOps ≠ r.ops.length % 2 ^ 32 then .error .abort
        else .ok ⟨suggHeapsize, numIds, numOps, weight, r.ops⟩

/-! ## main on files -/

/-- A trace file, with what `malloc` finds room for when it is read, and what the memory holds
where its trace is read to. -/
structure File where
  path : String
  text : List Char
  malloc : Nat → Nat → Bool
  garbage : TraceFile
  size : Nat
  blocks : Nat → Nat
  blockSizes : Nat → Nat

/-- How `main` ends early. -/
inductive Ending where
  /-- a file is not read -/
  | halt (h : Halt)
  /-- a trace is not evaluated -/
  | fatal (f : Fatal)

/-- The loop of `main`, which reads each file and evaluates it before it reads the next. -/
def evalFiles {τ : Type} (A : Allocator τ) : Nat → World τ → List File → Except Ending (World τ)
  | _, w, [] => .ok w
  | i, w, f :: fs => do
    let t ← (readTrace f.malloc f.garbage f.size f.path f.text).mapError .halt
    let w ← (evalTrace A i w ⟨t.ops, f.blocks, f.blockSizes⟩).mapError .fatal
    evalFiles A (i + 1) w fs

/-! ## What is read -/

/-- The word for an `int`. -/
def intWord (z : Int) : List Char := Scan.numeral (decide (z < 0)) z.natAbs

/-- The words of a request line. -/
def TraceOp.words (op : TraceOp) : List (List Char) :=
  match op.type with
  | .alloc => [['a'], Scan.numeral false op.index, intWord op.size]
  | .realloc => [['r'], Scan.numeral false op.index, intWord op.size]
  | .free => [['f'], Scan.numeral false op.index]

/-- The words of a trace file. -/
def TraceFile.words (t : TraceFile) : List (List Char) :=
  intWord t.suggHeapsize :: intWord t.numIds :: intWord t.numOps :: intWord t.weight ::
    t.ops.flatMap TraceOp.words

/-- A value of the type `int`. -/
def IsInt (z : Int) : Prop := -2 ^ 31 ≤ z ∧ z < 2 ^ 31

instance (z : Int) : Decidable (IsInt z) := inferInstanceAs (Decidable (_ ∧ _))

/-- The numbers of the file fit their types, and a free has no size. -/
structure TraceFile.Fits (t : TraceFile) : Prop where
  header : IsInt t.suggHeapsize ∧ IsInt t.numIds ∧ IsInt t.numOps ∧ IsInt t.weight
  ops : ∀ op ∈ t.ops, op.index < 2 ^ 32 ∧ (op.type = .free → op.size = 0)

/-- The largest id that memory is asked for, from `m` on. -/
def maxAsked (m : Nat) (ops : List TraceOp) : Nat :=
  ops.foldl (fun m op => if op.type = .free then m else max m op.index) m

/-- The file announces its requests, and the ids of those that ask for memory. -/
def TraceFile.Announced (t : TraceFile) : Prop :=
  maxAsked 0 t.ops = ofInt (t.numIds - 1) ∧ t.numOps = t.ops.length

instance (t : TraceFile) : Decidable t.Announced := inferInstanceAs (Decidable (_ ∧ _))

/-- The calls of `malloc` for the file succeed. -/
structure TraceFile.Allocated (t : TraceFile) (malloc : Nat → Nat → Bool) : Prop where
  trace : malloc 1 traceSize = true
  ops : malloc 2 (opsBytes t.numOps) = true
  blocks : malloc 3 (idsBytes t.numIds) = true
  blockSizes : malloc 4 (idsBytes t.numIds) = true

/-- There is room for the requests from number `n` on. -/
def Stored (bytes : Nat) : Nat → List TraceOp → Prop
  | _, [] => True
  | n, op :: ops => opEnd (op.type = .free) n ≤ bytes ∧ Stored bytes (n + 1) ops

section
variable {t garbage : TraceFile} {malloc : Nat → Nat → Bool} {path : String} {s : List Char}
  {ws : List (List Char)} {z old : Int} {n bytes index size : Nat} {op : TraceOp}
  {ops : List TraceOp} {r r' : Reader}

/-! ### Numbers -/

/-- `strtol` reads an `int` back. -/
theorem strtol_int (hz : IsInt z) : strtol (decide (z < 0), z.natAbs) = z := by
  obtain ⟨h1, h2⟩ := hz
  unfold strtol
  dsimp only
  by_cases h : z < 0
  · rw [if_pos (decide_eq_true h)]
    omega
  · rw [if_neg (by simp [h])]
    omega

/-- `strtoul` reads an `unsigned` back. -/
theorem strtoul_nat (hn : n < 2 ^ 32) : strtoul (false, n) = n := by
  rw [strtoul, if_neg (Nat.not_le.2 hn)]
  rfl

/-- A negative size is read as the number it wraps to, and stored as itself. -/
theorem toInt_strtoul (hz : IsInt z) :
    toInt (strtoul (decide (z < 0), z.natAbs) % 2 ^ 32) = z := by
  obtain ⟨h1, h2⟩ := hz
  have hlt : ¬ 2 ^ 32 ≤ z.natAbs := by omega
  by_cases h : z < 0
  · have he : strtoul (decide (z < 0), z.natAbs) = 2 ^ 32 - z.natAbs := by
      rw [strtoul, if_neg hlt, decide_eq_true h, if_pos rfl]
      omega
    rw [he, toInt, if_neg (by omega)]
    omega
  · have he : strtoul (decide (z < 0), z.natAbs) = z.natAbs := by
      rw [strtoul, if_neg hlt, decide_eq_false h]
      rfl
    rw [he, toInt, if_pos (by omega)]
    omega

/-- `%d` reads an `int` that is spelled out. -/
theorem scanInt_spells (old : Int) (hz : IsInt z) (h : Scan.Spells s (intWord z :: ws)) :
    ∃ t, scanInt s old = (z, t) ∧ Scan.Spells t ws := by
  obtain ⟨t, hn, ht, -⟩ := h.number_eq
  exact ⟨t, by simp only [scanInt, hn, strtol_int hz], ht⟩

/-- `%u %u` reads an id and a size that are spelled out. -/
theorem scanPair_spells (index size : Nat) (hn : n < 2 ^ 32)
    (h : Scan.Spells s (Scan.numeral false n :: intWord z :: ws)) :
    ∃ t, scanPair s index size = (n, strtoul (decide (z < 0), z.natAbs), t) ∧
      Scan.Spells t ws := by
  obtain ⟨t, h1, ht, -⟩ := h.number_eq
  obtain ⟨u, h2, hu, -⟩ := ht.number_eq
  exact ⟨u, by simp only [scanPair, h1, h2, strtoul_nat hn], hu⟩

/-- `%u` reads an id that is spelled out. -/
theorem scanIndex_spells (index : Nat) (hn : n < 2 ^ 32)
    (h : Scan.Spells s (Scan.numeral false n :: ws)) :
    ∃ t, scanIndex s index = (n, t) ∧ Scan.Spells t ws := by
  obtain ⟨t, h1, ht, hs⟩ := h.number_eq
  refine ⟨t, ?_, ht⟩
  unfold scanIndex
  rw [h1]
  split
  · next he => cases he
  · next he =>
    obtain ⟨-, rfl⟩ := Prod.mk.inj he
    have := hs _ rfl
    exact absurd this (by decide)
  · next he =>
    obtain ⟨hx, rfl⟩ := Prod.mk.inj he
    rw [← Option.some.inj hx, strtoul_nat hn]

/-! ### Requests -/

/-- The size of a request is an `int` in the record of the request. -/
theorem traceOp_eq (op : TraceOp) (hs : op.size = toInt (size % 2 ^ 32)) :
    traceOp op.type op.index size = op := by
  cases op
  simp only [traceOp, TraceOp.mk.injEq, true_and]
  exact hs.symm

/-- The largest id, from the first request on. -/
theorem maxAsked_cons (m : Nat) (op : TraceOp) (ops : List TraceOp) :
    maxAsked m (op :: ops) = maxAsked (if op.type = .free then m else max m op.index) ops := rfl

/-- The largest id, with one request more. -/
theorem maxAsked_concat (m : Nat) (op : TraceOp) (ops : List TraceOp) :
    maxAsked m (ops ++ [op]) =
      if op.type = .free then maxAsked m ops else max (maxAsked m ops) op.index := by
  rw [maxAsked, List.foldl_append]
  rfl

/-- A request takes twelve bytes, or eight at the end of the array. -/
theorem opEnd_bounds (free : Bool) (n : Nat) :
    12 * n + 8 ≤ opEnd free n ∧ opEnd free n ≤ 12 * n + 12 := by
  unfold opEnd
  split <;> omega

/-- Where twelve bytes are left for each, requests are stored. -/
theorem stored_of_le (h : 12 * (n + ops.length) ≤ bytes) : Stored bytes n ops := by
  induction ops generalizing n with
  | nil => trivial
  | cons op ops ih =>
    rw [List.length_cons] at h
    have := (opEnd_bounds (op.type = .free) n).2
    exact ⟨by omega, ih (by omega)⟩

/-- Requests that are stored fit, but for the size of the last. -/
theorem Stored.le (h : Stored bytes n ops) (hn : 12 * n ≤ bytes + 4) :
    12 * (n + ops.length) ≤ bytes + 4 := by
  induction ops generalizing n with
  | nil => exact hn
  | cons op ops ih =>
    have := (opEnd_bounds (op.type = .free) n).1
    have := ih h.2 (by have := h.1; omega)
    rw [List.length_cons]
    omega

/-- How a request line is read: it is stored, if there is room for it. -/
def ReadAs (path : String) (bytes : Nat) (r : Reader) (word s : List Char) (op : TraceOp)
    (ws : List (List Char)) : Prop :=
  (¬ opEnd (op.type = .free) r.ops.length ≤ bytes ∧ readOp path bytes r word s = .error .overrun) ∨
    ∃ index size t, opEnd (op.type = .free) r.ops.length ≤ bytes ∧ Scan.Spells t ws ∧
      readOp path bytes r word s = .ok (⟨index, size,
        if op.type = .free then r.maxIndex else max r.maxIndex op.index, r.ops ++ [op]⟩, t)

/-- A command letter fits its buffer. -/
theorem maxline_one (c : Char) : ¬ maxline ≤ [c].length := by
  rw [List.length_singleton]
  decide

/-- A request for memory is read. -/
theorem readOp_ask {c : Char} (hc : some c = some 'a' ∨ some c = some 'r')
    (ht : op.type = if some c = some 'a' then .alloc else .realloc) (hi : op.index < 2 ^ 32)
    (h : Scan.Spells s (Scan.numeral false op.index :: intWord op.size :: ws)) :
    ReadAs path bytes r [c] s op ws := by
  obtain ⟨t, hp, hv⟩ := scanPair_spells r.index r.size hi h
  have hop := traceOp_eq op (toInt_strtoul op.int).symm
  have hf : op.type ≠ .free := by
    rw [ht]
    split <;> decide
  rw [ht] at hop
  have hmax : (if r.maxIndex < op.index then op.index else r.maxIndex) =
      max r.maxIndex op.index := by split <;> omega
  unfold ReadAs readOp
  rw [if_neg (maxline_one c), List.head?_cons, if_pos hc, if_neg hf, hp]
  dsimp only
  rw [decide_eq_false hf]
  by_cases hroom : opEnd false r.ops.length ≤ bytes
  · rw [if_neg (Nat.not_lt.2 hroom), hop, hmax]
    exact .inr ⟨_, _, t, hroom, hv, rfl⟩
  · rw [if_pos (Nat.not_le.1 hroom)]
    exact .inl ⟨hroom, rfl⟩

/-- A request to free is read. -/
theorem readOp_free (ht : op.type = .free) (hi : op.index < 2 ^ 32) (hs : op.size = 0)
    (h : Scan.Spells s (Scan.numeral false op.index :: ws)) :
    ReadAs path bytes r ['f'] s op ws := by
  obtain ⟨t, hp, hv⟩ := scanIndex_spells r.index hi h
  have hop : traceOp op.type op.index 0 = op := traceOp_eq op hs
  rw [ht] at hop
  have hne : ¬ (some 'f' = some 'a' ∨ some 'f' = some 'r') := by decide
  unfold ReadAs readOp
  rw [if_neg (maxline_one 'f'), List.head?_cons, if_neg hne, if_pos rfl, if_pos ht, hp]
  dsimp only
  rw [decide_eq_true ht]
  by_cases hroom : opEnd true r.ops.length ≤ bytes
  · rw [if_neg (Nat.not_lt.2 hroom), hop]
    exact .inr ⟨_, _, t, hroom, hv, rfl⟩
  · rw [if_pos (Nat.not_le.1 hroom)]
    exact .inl ⟨hroom, rfl⟩

/-- **Step lemma.** The next request line is read. -/
theorem readOp_spells (path : String) (bytes : Nat) (r : Reader) (hi : op.index < 2 ^ 32)
    (hf : op.type = .free → op.size = 0) (h : Scan.Spells s (op.words ++ ws)) :
    ∃ word t, Scan.word s = some (word, t) ∧ ReadAs path bytes r word t op ws := by
  cases ht : op.type with simp only [TraceOp.words, ht, List.cons_append] at h
  | alloc =>
    obtain ⟨t, hw, hu⟩ := h.word_eq
    exact ⟨_, t, hw, readOp_ask (.inl rfl) ht hi hu⟩
  | realloc =>
    obtain ⟨t, hw, hu⟩ := h.word_eq
    exact ⟨_, t, hw, readOp_ask (.inr rfl) ht hi hu⟩
  | free =>
    obtain ⟨t, hw, hu⟩ := h.word_eq
    exact ⟨_, t, hw, readOp_free ht hi (hf ht) hu⟩

/-- **Run lemma.** The request lines are read, as long as there is room for them. -/
theorem readOps_spells (path : String) (bytes : Nat)
    (hops : ∀ op ∈ ops, op.index < 2 ^ 32 ∧ (op.type = .free → op.size = 0))
    (h : Scan.Spells s (ops.flatMap TraceOp.words)) :
    (¬ Stored bytes r.ops.length ops ∧ readOps path bytes r s = .error .overrun) ∨
      ∃ index size, Stored bytes r.ops.length ops ∧ readOps path bytes r s =
        .ok ⟨index, size, maxAsked r.maxIndex ops, r.ops ++ ops⟩ := by
  induction ops generalizing r s with
  | nil =>
    refine .inr ⟨r.index, r.size, trivial, ?_⟩
    have hw := h.word_nil
    rw [readOps]
    split
    · rw [List.append_nil]
      rfl
    · next h' =>
      rw [hw] at h'
      cases h'
  | cons op ops ih =>
    obtain ⟨⟨hi, hf⟩, hops⟩ := List.forall_mem_cons.1 hops
    rw [List.flatMap_cons] at h
    obtain ⟨word, u, hw, hstep⟩ := readOp_spells path bytes r hi hf h
    rw [readOps]
    split
    · next h' =>
      rw [hw] at h'
      cases h'
    next h' =>
    cases hw.symm.trans h'
    rcases hstep with ⟨hfull, hop⟩ | ⟨index, size, v, hroom, hv, hop⟩
    · refine .inl ⟨fun hst => hfull hst.1, ?_⟩
      split
      · next h' =>
        cases hop.symm.trans h'
        rfl
      · next h' => cases hop.symm.trans h'
    · split
      · next h' => cases hop.symm.trans h'
      next h' =>
      cases hop.symm.trans h'
      have hlen : (r.ops ++ [op]).length = r.ops.length + 1 := by simp
      have hrest := ih hops hv (r := ⟨index, size,
        if op.type = .free then r.maxIndex else max r.maxIndex op.index, r.ops ++ [op]⟩)
      dsimp only at hrest
      rw [hlen] at hrest
      rcases hrest with ⟨hno, he⟩ | ⟨i, n, hst, he⟩
      · exact .inl ⟨fun hst => hno hst.2, he⟩
      · refine .inr ⟨i, n, ⟨hroom, hst⟩, he.trans ?_⟩
        rw [maxAsked_cons, List.append_assoc, List.singleton_append]

/-- The room for the announced requests is the room they take, unless its size wraps. -/
theorem stored_iff (hn : t.numOps = t.ops.length) (hint : IsInt t.numOps) :
    Stored (opsBytes t.numOps) 0 t.ops ↔ 12 * t.ops.length < 2 ^ 32 := by
  have hbytes : opsBytes t.numOps = 12 * t.ops.length % 2 ^ 32 := by
    obtain ⟨-, hhi⟩ := hint
    unfold opsBytes ofInt
    omega
  rw [hbytes]
  constructor
  · intro hst
    have := hst.le (Nat.zero_le _)
    omega
  · intro hlt
    exact stored_of_le (by omega)

/-- **Run lemma.** A text with the words of a file that does not announce what it holds is not read:
a request for which there is no room is written past the end of its array, and otherwise an
assertion fails. -/
theorem TraceFile.Fits.read {t : TraceFile} {s : List Char} (ht : t.Fits)
    (h : Scan.Spells s t.words) (hm : t.Allocated malloc) (garbage : TraceFile) (size : Nat)
    (path : String) :
    (¬ Stored (opsBytes t.numOps) 0 t.ops ∧
        readTrace malloc garbage size path s = .error .overrun) ∨
      Stored (opsBytes t.numOps) 0 t.ops ∧
        readTrace malloc garbage size path s = if t.Announced then .ok t else .error .abort := by
  obtain ⟨h1, h2, h3, h4⟩ := ht.header
  obtain ⟨s₁, e1, h⟩ := scanInt_spells garbage.suggHeapsize h1 h
  obtain ⟨s₂, e2, h⟩ := scanInt_spells garbage.numIds h2 h
  obtain ⟨s₃, e3, h⟩ := scanInt_spells garbage.numOps h3 h
  obtain ⟨s₄, e4, h⟩ := scanInt_spells garbage.weight h4 h
  have hrun := readOps_spells path (opsBytes t.numOps) (r := ⟨0, size, 0, []⟩) ht.ops h
  simp only [readTrace, e1, e2, e3, e4, hm.trace, hm.ops, hm.blocks, hm.blockSizes, not_true,
    if_false]
  dsimp only at hrun
  simp only [List.length_nil, List.nil_append] at hrun
  rcases hrun with ⟨hno, he⟩ | ⟨i, n, hst, he⟩
  · rw [he]
    exact .inl ⟨hno, rfl⟩
  · rw [he]
    refine .inr ⟨hst, ?_⟩
    dsimp only
    have hlen : ofInt t.numOps = t.ops.length % 2 ^ 32 ↔ t.numOps = t.ops.length := by
      have hle := hst.le (Nat.zero_le _)
      obtain ⟨hlo, hhi⟩ := h3
      unfold opsBytes at hle
      unfold ofInt at hle ⊢
      omega
    by_cases hmax : maxAsked 0 t.ops = ofInt (t.numIds - 1)
    · rw [if_neg (not_not.2 hmax)]
      by_cases hn : t.numOps = t.ops.length
      · rw [if_neg (not_not.2 (hlen.2 hn)), if_pos ⟨hmax, hn⟩]
      · rw [if_pos (fun he => hn (hlen.1 he)), if_neg fun ha => hn ha.2]
    · rw [if_pos hmax, if_neg fun ha => hmax ha.1]

/-- Where a call of `malloc` fails, nothing is read. -/
theorem TraceFile.Fits.read_refused {t : TraceFile} {s : List Char} (ht : t.Fits)
    (h : Scan.Spells s t.words) (hm : ¬ t.Allocated malloc) (garbage : TraceFile) (size : Nat)
    (path : String) : ∃ msg, readTrace malloc garbage size path s = .error (.unixError msg) := by
  obtain ⟨h1, h2, h3, h4⟩ := ht.header
  obtain ⟨s₁, e1, h⟩ := scanInt_spells garbage.suggHeapsize h1 h
  obtain ⟨s₂, e2, h⟩ := scanInt_spells garbage.numIds h2 h
  obtain ⟨s₃, e3, h⟩ := scanInt_spells garbage.numOps h3 h
  obtain ⟨s₄, e4, -⟩ := scanInt_spells garbage.weight h4 h
  simp only [readTrace, e1, e2, e3, e4]
  split
  · exact ⟨_, rfl⟩
  next ha =>
  split
  · exact ⟨_, rfl⟩
  next hb =>
  split
  · exact ⟨_, rfl⟩
  next hc =>
  split
  · exact ⟨_, rfl⟩
  next hd =>
  exact absurd ⟨not_not.1 ha, not_not.1 hb, not_not.1 hc, not_not.1 hd⟩ hm

/-- **Reading back.** A text with the words of a file is read, whatever the memory held before,
exactly when the file announces what it holds and the calls of `malloc` for it succeed, with a size
that does not wrap for the requests, and then as that file and no other. -/
theorem readTrace_round_trip {t x garbage : TraceFile} {s : List Char} {size : Nat} {path : String}
    {malloc : Nat → Nat → Bool} (ht : t.Fits) (h : Scan.Spells s t.words) :
    readTrace malloc garbage size path s = .ok x ↔
      x = t ∧ t.Announced ∧ t.Allocated malloc ∧ 12 * t.ops.length < 2 ^ 32 := by
  by_cases hm : t.Allocated malloc
  · have hint := ht.header.2.2.1
    obtain ⟨hno, he⟩ | ⟨hst, he⟩ := ht.read h hm garbage size path
    · rw [he]
      refine iff_of_false nofun ?_
      rintro ⟨-, ha, -, hlt⟩
      exact hno ((stored_iff ha.2 hint).2 hlt)
    · rw [he]
      by_cases ha : t.Announced
      · rw [if_pos ha, Except.ok.injEq]
        exact ⟨fun he => ⟨he.symm, ha, hm, (stored_iff ha.2 hint).1 hst⟩, fun he => he.1.symm⟩
      · rw [if_neg ha]
        exact iff_of_false nofun fun he => ha he.2.1
  · obtain ⟨msg, he⟩ := ht.read_refused h hm garbage size path
    rw [he]
    exact iff_of_false nofun fun he => hm he.2.2.1

/-! ### What is accepted -/

/-- What the loop keeps on any text: the largest id asked for so far, and room for each request. -/
structure Kept (bytes : Nat) (r : Reader) : Prop where
  max : r.maxIndex = maxAsked 0 r.ops
  room : 12 * r.ops.length ≤ bytes + 4

/-- A request line that is read has room, and counts when it asks for memory. -/
theorem readOp_ok {word t : List Char} (h : readOp path bytes r word s = .ok (r', t)) :
    ∃ op : TraceOp, opEnd (op.type = .free) r.ops.length ≤ bytes ∧ r'.ops = r.ops ++ [op] ∧
      r'.maxIndex = if op.type = .free then r.maxIndex else max r.maxIndex op.index := by
  have hmax : ∀ m i : Nat, (if m < i then i else m) = max m i := fun m i => by
    split <;> omega
  unfold readOp at h
  split at h
  · cases h
  split at h
  · dsimp only at h
    split at h
    · cases h
    · next hroom =>
      cases h
      have hask : (if word.head? = some 'a' then OpType.alloc else .realloc) ≠ .free := by
        split <;> decide
      refine ⟨_, ?_, rfl, (hmax ..).trans (if_neg hask).symm⟩
      rw [traceOp, decide_eq_false hask]
      exact Nat.not_lt.1 hroom
  · split at h
    · dsimp only at h
      split at h
      · cases h
      · next hroom =>
        cases h
        exact ⟨traceOp .free _ 0, Nat.not_lt.1 hroom, rfl, rfl⟩
    · cases h

/-- **Step lemma.** One request more. -/
theorem Kept.readOp {word t : List Char} (K : Kept bytes r)
    (h : readOp path bytes r word s = .ok (r', t)) : Kept bytes r' := by
  obtain ⟨op, hroom, hops, hm⟩ := readOp_ok h
  refine ⟨?_, ?_⟩
  · rw [hops, maxAsked_concat, hm, K.max]
  · have := (opEnd_bounds (op.type = .free) r.ops.length).1
    rw [hops, List.length_append, List.length_singleton]
    omega

/-- **Run lemma.** Any number of requests more. -/
theorem Kept.readOps (K : Kept bytes r) (h : readOps path bytes r s = .ok r') : Kept bytes r' := by
  fun_induction Mdriver.readOps path bytes r s with
  | case1 r s hw =>
    cases h
    exact K
  | case2 r s word t hw e hop => cases h
  | case3 r s word t hw r₁ u hop ih => exact ih (K.readOp hop) h

/-- The largest id that memory is asked for is no less than the one it starts from, nor than any
that memory is asked for. -/
theorem le_maxAsked (m : Nat) (ops : List TraceOp) :
    m ≤ maxAsked m ops ∧ ∀ op ∈ ops, op.type ≠ .free → op.index ≤ maxAsked m ops := by
  induction ops generalizing m with
  | nil => exact ⟨Nat.le_refl _, fun op h => absurd h List.not_mem_nil⟩
  | cons op ops ih =>
    rw [maxAsked_cons]
    by_cases ht : op.type = .free
    · rw [if_pos ht]
      exact ⟨(ih m).1, List.forall_mem_cons.2 ⟨fun hne => absurd ht hne, (ih m).2⟩⟩
    · rw [if_neg ht]
      obtain ⟨hle, hall⟩ := ih (max m op.index)
      exact ⟨(Nat.le_max_left ..).trans hle,
        List.forall_mem_cons.2 ⟨fun _ => (Nat.le_max_right ..).trans hle, hall⟩⟩

/-- A number is an `int`, or it is missing. -/
theorem scanInt_int (ho : IsInt old) (s : List Char) : IsInt (scanInt s old).1 := by
  unfold scanInt
  split
  · unfold IsInt strtol
    dsimp only
    omega
  · exact ho

/-- **What is accepted.** Whatever the text, a trace that is read holds as many requests as it
announces, and the array of requests has room for them all. When it announces ids and frees only
ids that it asks memory for, each of its ids is below the number announced, and when that is below
2^30 the arrays of ids have a place for it. -/
theorem readTrace_accepts {t garbage : TraceFile} {malloc : Nat → Nat → Bool} {path : String}
    {size : Nat} {s : List Char} (hg : IsInt garbage.numOps ∧ IsInt garbage.numIds)
    (h : readTrace malloc garbage size path s = .ok t) :
    (t.numOps = t.ops.length ∧ 12 * t.ops.length ≤ opsBytes t.numOps) ∧
      ((∀ op ∈ t.ops, op.type = .free → ∃ a ∈ t.ops, a.type ≠ .free ∧ a.index = op.index) →
        0 < t.numIds → ∀ op ∈ t.ops, (op.index : Int) < t.numIds ∧
          (t.numIds < 2 ^ 30 → 4 * (op.index + 1) ≤ idsBytes t.numIds)) := by
  unfold readTrace at h
  dsimp only at h
  have hids := scanInt_int hg.2 (scanInt s garbage.suggHeapsize).2
  have hops := scanInt_int hg.1 (scanInt (scanInt s garbage.suggHeapsize).2 garbage.numIds).2
  generalize scanInt s garbage.suggHeapsize = x₁ at h hids hops
  generalize scanInt x₁.2 garbage.numIds = x₂ at h hids hops
  generalize scanInt x₂.2 garbage.numOps = x₃ at h hops
  iterate 4
    split at h
    · cases h
  split at h
  · cases h
  next r hr =>
  have K : Kept (opsBytes x₃.1) r := Kept.readOps ⟨rfl, Nat.zero_le _⟩ hr
  split at h
  · cases h
  next hmax =>
  split at h
  · cases h
  next hlen =>
  cases h
  rw [not_not, K.max] at hmax
  rw [not_not] at hlen
  have hroom := K.room
  dsimp only
  refine ⟨?_, fun hfree hpos op hop => ?_⟩
  · unfold opsBytes ofInt at *
    obtain ⟨hlo, hhi⟩ := hops
    omega
  · have hasked : op.index ≤ maxAsked 0 r.ops := by
      by_cases ht : op.type = .free
      · obtain ⟨a, ha, hne, he⟩ := hfree op hop ht
        exact he ▸ (le_maxAsked 0 r.ops).2 a ha hne
      · exact (le_maxAsked 0 r.ops).2 op hop ht
    rw [hmax] at hasked
    unfold idsBytes
    unfold ofInt at *
    obtain ⟨hlo, hhi⟩ := hids
    omega

/-! ## main on files -/

/-- The arrays of the trace are found, with a place for each request and each id. -/
structure TraceFile.Housed (t : TraceFile) (malloc : Nat → Nat → Bool) : Prop where
  allocated : t.Allocated malloc
  requests : 12 * t.ops.length < 2 ^ 32
  ids : ∀ op ∈ t.ops, 4 * (op.index + 1) ≤ idsBytes t.numIds

/-- The file holds the trace: its text has the words of a trace file that announces it, and the
arrays for it are found. -/
structure File.HasTrace (f : File) (t : Trace) : Prop where
  file : ∃ x : TraceFile, x.ops = t.ops ∧ x.Fits ∧ x.Announced ∧ x.Housed f.malloc ∧
    Scan.Spells f.text x.words
  arrays : t.blocks = f.blocks ∧ t.blockSizes = f.blockSizes

/-- A file that holds a trace is read as it. -/
theorem File.HasTrace.read {f : File} {t : Trace} (H : f.HasTrace t) : ∃ x : TraceFile,
    readTrace f.malloc f.garbage f.size f.path f.text = .ok x ∧
      ⟨x.ops, f.blocks, f.blockSizes⟩ = t := by
  obtain ⟨x, hops, hfits, ha, hm, hs⟩ := H.file
  obtain ⟨hno, -⟩ | ⟨-, he⟩ := hfits.read hs hm.allocated f.garbage f.size f.path
  · exact absurd ((stored_iff ha.2 hfits.header.2.2.1).2 hm.requests) hno
  · exact ⟨x, by rw [he, if_pos ha], by rw [hops, ← H.arrays.1, ← H.arrays.2]⟩

/-- On files that hold traces `main` does what it does on the traces. -/
theorem evalFiles_traces {τ : Type} {A : Allocator τ} {fs : List File} {ts : List Trace}
    (h : List.Forall₂ File.HasTrace fs ts) : ∀ {i : Nat} {w : World τ},
      evalFiles A i w fs = (evalTraces A i w ts).mapError .fatal := by
  induction h with
  | nil => exact fun {i w} => rfl
  | @cons f t fs ts hf _ ih =>
    intro i w
    obtain ⟨x, hr, rfl⟩ := hf.read
    rw [evalFiles, evalTraces, hr]
    show ((evalTrace A i w _).mapError Ending.fatal >>= _) = _
    cases evalTrace A i w ⟨x.ops, f.blocks, f.blockSizes⟩ with
    | error e => rfl
    | ok w₁ => exact ih

/-- **The report on mm.c, from the files.** The files announce what they hold, and their arrays are
found, with a place for each request and each id. Their traces ask for one byte at least whenever
they ask for memory, allocate new ids and move and free held ones (`Disciplined`), and make no block
outgrow its chunk; `memcpy` copies as `memmove` does, and no sum of `mem_sbrk` wraps
(`Heap.Placed`). Then the stats that `main` arrives at are those of each trace by itself, a function
of its requests alone; where one of them makes the process exit there are none. -/
theorem mm_files {w : World Globals} {fs : List File} {ts : List Trace} {i start : Nat}
    (hw : w.st.lib.memStartBrk = start) (hstart : start % 8 = 0)
    (hfs : List.Forall₂ File.HasTrace fs ts)
    (ht : ∀ t ∈ ts, Disciplined [] t.ops ∧ judgeTrace start t.ops ≠ .damaged) :
    match ts.mapM (reportOf start) with
    | some stats => ∃ w', evalFiles mm i w fs = .ok w' ∧ w'.stats = w.stats ++ stats
    | none => evalFiles mm i w fs = .error (.fatal .lost) := by
  have h := mm_report (i := i) hw hstart ht
  rw [evalFiles_traces hfs]
  split
  · next stats hm =>
    rw [hm] at h
    obtain ⟨w', he, hs⟩ := h
    exact ⟨w', by rw [he]; rfl, hs⟩
  · next hm =>
    rw [hm] at h
    rw [show evalTraces mm i w ts = .error .lost from h]
    rfl

end

/-! ## Writing -/

/-- A request is written in words. -/
theorem TraceOp.words_word (op : TraceOp) :
    ∀ w ∈ op.words, w ≠ [] ∧ ∀ c ∈ w, Scan.isSpace c = false := by
  have hletter : ∀ c : Char, Scan.isSpace c = false →
      [c] ≠ [] ∧ ∀ x ∈ [c], Scan.isSpace x = false := fun c hc =>
    ⟨nofun, fun x hx => List.mem_singleton.1 hx ▸ hc⟩
  unfold TraceOp.words
  split
  · exact List.forall_mem_cons.2 ⟨hletter _ rfl, List.forall_mem_cons.2
      ⟨Scan.numeral_word .., fun w hw => List.mem_singleton.1 hw ▸ Scan.numeral_word ..⟩⟩
  · exact List.forall_mem_cons.2 ⟨hletter _ rfl, List.forall_mem_cons.2
      ⟨Scan.numeral_word .., fun w hw => List.mem_singleton.1 hw ▸ Scan.numeral_word ..⟩⟩
  · exact List.forall_mem_cons.2 ⟨hletter _ rfl,
      fun w hw => List.mem_singleton.1 hw ▸ Scan.numeral_word ..⟩

/-- The words of a trace file can be written down. -/
theorem TraceFile.spells (t : TraceFile) : Scan.Spells (Scan.spell t.words) t.words := by
  refine Scan.spells_spell ?_
  unfold TraceFile.words
  simp only [List.forall_mem_cons, List.forall_mem_flatMap]
  exact ⟨Scan.numeral_word .., Scan.numeral_word .., Scan.numeral_word .., Scan.numeral_word ..,
    fun op _ => op.words_word⟩

/-- A block that is moved, in a file that announces `numOps` requests. -/
def movedFile (index : Nat) (numOps : Int) : TraceFile :=
  ⟨20000, index + 1, numOps, 1, movedOps index⟩

/-- The numbers of the file fit their types. -/
theorem movedFile_fits {index : Nat} {numOps : Int} (hi : index < 2 ^ 30) (hn : IsInt numOps) :
    (movedFile index numOps).Fits := by
  refine ⟨⟨(by decide : IsInt 20000), ⟨?_, ?_⟩, hn, (by decide : IsInt 1)⟩, fun op hop => ?_⟩
  · dsimp only [movedFile]
    omega
  · dsimp only [movedFile]
    omega
  · rcases List.mem_pair.1 hop with rfl | rfl
    · exact ⟨by dsimp only; omega, nofun⟩
    · exact ⟨by dsimp only; omega, nofun⟩

/-- The files of two requests announce what they hold. -/
theorem movedFile_announced : (movedFile 0 2).Announced ∧ (movedFile 128 2).Announced := by decide

/-- A `malloc` that finds room for less than half of the address space. -/
def roomyMalloc : Nat → Nat → Bool := fun _ n => n < 2 ^ 31

/-- It finds room for the arrays of the files. -/
theorem movedFile_housed :
    (movedFile 0 2).Housed roomyMalloc ∧ (movedFile 128 2).Housed roomyMalloc :=
  ⟨⟨⟨by decide, by decide, by decide, by decide⟩, by decide, by decide⟩,
    ⟨⟨by decide, by decide, by decide, by decide⟩, by decide, by decide⟩⟩

/-- A file that announces what it holds is read, and one that announces a request less is not. -/
theorem readTrace_round_trip_moved :
    readTrace roomyMalloc ⟨0, 0, 0, 0, []⟩ 0 "moved.rep" (Scan.spell (movedFile 128 2).words) =
        .ok (movedFile 128 2) ∧
      readTrace roomyMalloc ⟨0, 0, 0, 0, []⟩ 0 "moved.rep" (Scan.spell (movedFile 128 1).words) ≠
        .ok (movedFile 128 1) := by
  have hfits : ∀ n : Int, IsInt n → (movedFile 128 n).Fits := fun n hn =>
    movedFile_fits (by decide) hn
  refine ⟨(readTrace_round_trip (hfits 2 (by decide)) (TraceFile.spells _)).2
    ⟨rfl, movedFile_announced.2, movedFile_housed.2.allocated, movedFile_housed.2.requests⟩,
    fun hread => ?_⟩
  have h := (readTrace_round_trip (hfits 1 (by decide)) (TraceFile.spells _)).1 hread
  exact absurd h.2.1.2 (by decide)

/-- A block that is moved and freed. -/
def freedFile : TraceFile :=
  ⟨20000, 129, 3, 1, movedOps 128 ++ [{ type := .free, index := 128, size := 0 }]⟩

/-- The file announces its three requests, and their ids are below the 129 that it announces. -/
theorem readTrace_accepts_freed : readTrace roomyMalloc ⟨0, 0, 0, 0, []⟩ 0 "freed.rep"
      (Scan.spell freedFile.words) = .ok freedFile ∧
    freedFile.numOps = freedFile.ops.length ∧ ∀ op ∈ freedFile.ops, (op.index : Int) < 129 ∧
      4 * (op.index + 1) ≤ idsBytes 129 := by
  have hfits : freedFile.Fits := ⟨by decide, by decide⟩
  have hm : freedFile.Allocated roomyMalloc := ⟨by decide, by decide, by decide, by decide⟩
  have hst := (stored_iff (t := freedFile) rfl (by decide)).2 (by decide)
  obtain ⟨hno, -⟩ | ⟨-, hread⟩ :=
    hfits.read (TraceFile.spells _) hm ⟨0, 0, 0, 0, []⟩ 0 "freed.rep"
  · exact absurd hst hno
  rw [if_pos (by decide)] at hread
  obtain ⟨⟨hops, -⟩, hids⟩ := readTrace_accepts ⟨by decide, by decide⟩ hread
  refine ⟨hread, hops, fun op hop => ?_⟩
  obtain ⟨hlt, hplace⟩ := hids (by decide) (by decide) op hop
  exact ⟨hlt, hplace (by decide)⟩

/-- The files of the two traces that are moved. -/
def movedFiles : List File :=
  [⟨"moved.rep", Scan.spell (movedFile 0 2).words, roomyMalloc, ⟨0, 0, 0, 0, []⟩, 0, fun _ => 0,
      fun _ => 0⟩,
    ⟨"moved.rep", Scan.spell (movedFile 128 2).words, roomyMalloc, ⟨0, 0, 0, 0, []⟩, 0, fun _ => 0,
      fun _ => 0⟩]

/-- The files hold the traces. -/
theorem movedFiles_traces : List.Forall₂ File.HasTrace movedFiles movedTraces := by
  have h₀ : (movedFile 0 2).Fits := movedFile_fits (by decide) (by decide)
  have h₁ : (movedFile 128 2).Fits := movedFile_fits (by decide) (by decide)
  exact .cons
    ⟨⟨_, rfl, h₀, movedFile_announced.1, movedFile_housed.1, TraceFile.spells _⟩, rfl, rfl⟩
    (.cons ⟨⟨_, rfl, h₁, movedFile_announced.2, movedFile_housed.2, TraceFile.spells _⟩, rfl, rfl⟩
      .nil)

/-- The stats of two files, on zeroed storage. -/
theorem mm_files_moved : ∃ w', evalFiles mm 0 ⟨zeroed, [], 0, [], []⟩ movedFiles = .ok w' ∧
    w'.stats = [⟨2, true, some (16, 4112)⟩, ⟨2, false, none⟩] := by
  have hw : (⟨zeroed, [], 0, [], []⟩ : World Globals).st.lib.memStartBrk = 8 := rfl
  have h := mm_files (i := 0) hw rfl movedFiles_traces movedTraces_undamaged
  rw [movedTraces_report] at h
  exact h

end Mdriver
