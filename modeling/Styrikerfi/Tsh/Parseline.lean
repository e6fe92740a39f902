import Mathlib.Data.List.Forall2
import Styrikerfi.Lib.Words

/-!
# `parseline`

`parseline` copies a command line into its own array, replaces the last character, and cuts the
words out in place: a pointer moves over the array, the end of each word is overwritten with NUL,
and `argv` collects where the words begin. The model keeps a record of every store and of every
place the pointer is moved to.

What comes out are the words of the line without its last character (`parseline_spec`), and every
access is within bounds exactly if there are fewer than `MAXARGS` of them.
-/

namespace Tsh

open Words

/-- max line size -/
abbrev maxline : Nat := 1024

/-- max args on a command line -/
abbrev maxargs : Nat := 128

/-- What ends a string. -/
def nul : Char := Char.ofNat 0

/-- The string at an address of an array of characters. -/
def cstr (array : List Char) (p : Nat) : List Char := (array.drop p).takeWhile fun c => c ≠ nul

/-- The first `c` in the string at `p`. -/
def strchr (array : List Char) (p : Nat) (c : Char) : Option Nat :=
  let s := cstr array p
  if c ∈ s then some (p + s.idxOf c) else none

/-- A store to an entry of `argv` or to `array`, or a place `buf` is moved to. -/
inductive Access where
  | argv (i : Nat)
  | array (i : Int)
  | buf (p : Nat)
  deriving DecidableEq

/-- The store is to one of `args` entries or in the array, or `buf` stays within a string of `len`
characters and its terminator. -/
def Access.Within (args len : Nat) : Access → Prop
  | .argv i => i < args
  | .array i => 0 ≤ i ∧ i < maxline
  | .buf p => p ≤ len

instance (args len : Nat) (a : Access) : Decidable (a.Within args len) := by
  cases a <;> unfold Access.Within <;> infer_instance

/-- `parseline` at work. -/
structure Parse where
  array : List Char
  /-- the entries written so far -/
  argv : List (Option Nat)
  buf : Nat
  accesses : List Access

/-- `array[i] = c` -/
def Parse.put (p : Parse) (i : Int) (c : Char) : Parse :=
  { p with array := if 0 ≤ i then p.array.set i.toNat c else p.array,
           accesses := p.accesses ++ [.array i] }

/-- `argv[argc++] = entry` -/
def Parse.push (p : Parse) (entry : Option Nat) : Parse :=
  { p with argv := p.argv ++ [entry], accesses := p.accesses ++ [.argv p.argv.length] }

/-- `buf = q` -/
def Parse.moveTo (p : Parse) (q : Nat) : Parse :=
  { p with buf := q, accesses := p.accesses ++ [.buf q] }

/-- `strcpy(array, s)` -/
def Parse.strcpy (p : Parse) (s : List Char) : Parse :=
  { p with array := s ++ nul :: p.array.drop (s.length + 1),
           accesses := p.accesses ++ (List.range (s.length + 1)).map fun i => .array i }

/-- ignore spaces -/
def Parse.skip (p : Parse) : Parse :=
  p.moveTo (p.buf + ((p.array.drop p.buf).takeWhile fun c => c ≠ nul ∧ c = ' ').length)

/-- Where the word at `buf` ends, `buf` having been moved past a quote. -/
def Parse.delim (p : Parse) : Parse × Option Nat :=
  if p.array[p.buf]? = some '\'' then
    let p := p.moveTo (p.buf + 1)
    (p, strchr p.array p.buf '\'')
  else (p, strchr p.array p.buf ' ')

/-- `while (delim)` -/
def Parse.loop : Nat → Parse → Option Nat → Option Parse
  | _, p, none => some p
  | 0, _, some _ => none
  | fuel + 1, p, some delim =>
    let p := p.push (some p.buf)
    let p := p.put delim nul
    let p := (p.moveTo (delim + 1)).skip
    Parse.loop fuel p.delim.1 p.delim.2

/-- The end of `parseline`: `argv` is terminated, and loses its last entry if that asks for the
background. -/
def Parse.finish (p : Parse) : Parse × Bool :=
  let argc := p.argv.length
  let p := p.push none
  if argc = 0 then (p, true)
  else if (p.argv[argc - 1]?.join.bind fun q => p.array[q]?) = some '&' then
    ({ p with argv := p.argv.set (argc - 1) none, accesses := p.accesses ++ [.argv (argc - 1)] },
      true)
  else (p, false)

/-- The copy of the command line, its last character replaced with a space. -/
def Parse.start (array cmdline : List Char) : Parse :=
  let p : Parse := ⟨array, [], 0, []⟩
  let p := p.strcpy cmdline
  p.put ((cstr p.array p.buf).length - 1) ' '

/-- Parse the command line and build the argv array; whether the job runs in the background. The
array is static and holds what it held. -/
def parseline (array cmdline : List Char) : Option (Parse × Bool) :=
  let p := (Parse.start array cmdline).skip
  (Parse.loop maxline p.delim.1 p.delim.2).map Parse.finish

/-- The arguments that a caller finds up to `NULL`. -/
def Parse.vector (p : Parse) : List (List Char) :=
  ((p.argv.takeWhile Option.isSome).filterMap id).map (cstr p.array)

/-! ## Strings in an array -/

/-- The string `s` stands at `p`. -/
def Text (array : List Char) (p : Nat) (s : List Char) : Prop :=
  nul ∉ s ∧ ∃ rest, array.drop p = s ++ nul :: rest

section
variable {array s t u gap cmdline : List Char} {p q i fuel args args' len len' : Nat} {c : Char}

/-- A string and its terminator are in the array. -/
theorem Text.length (h : Text array p s) : p + s.length < array.length := by
  obtain ⟨-, rest, hd⟩ := h
  have := congrArg List.length hd
  rw [List.length_drop, List.length_append, List.length_cons] at this
  omega

/-- The string that stands there is the one read there. -/
theorem Text.cstr (h : Text array p s) : cstr array p = s := by
  obtain ⟨hs, rest, hd⟩ := h
  have hall : ∀ c ∈ s, decide (c ≠ nul) = true := fun c hc => by
    simpa using fun he : c = nul => hs (he ▸ hc)
  rw [Tsh.cstr, hd, List.takeWhile_append_of_pos hall, List.takeWhile_cons_of_neg (by simp),
    List.append_nil]

/-- The character at the start of a string, and the rest of it. -/
theorem Text.cons (h : Text array p (c :: s)) : array[p]? = some c ∧ Text array (p + 1) s := by
  obtain ⟨hs, rest, hd⟩ := h
  refine ⟨?_, fun hmem => hs (List.mem_cons_of_mem _ hmem), rest, ?_⟩
  · rw [← Nat.add_zero p, ← List.getElem?_drop, hd]
    rfl
  · rw [← List.drop_drop, hd]
    rfl

/-- The empty string is a terminator. -/
theorem Text.nil (h : Text array p []) : array[p]? = some nul := by
  obtain ⟨-, rest, hd⟩ := h
  rw [← Nat.add_zero p, ← List.getElem?_drop, hd]
  rfl

/-- What stands after a part of a string. -/
theorem Text.append (h : Text array p (u ++ s)) : Text array (p + u.length) s := by
  obtain ⟨hs, rest, hd⟩ := h
  refine ⟨fun hmem => hs (List.mem_append_right _ hmem), rest, ?_⟩
  rw [← List.drop_drop, hd, List.append_assoc, List.drop_left]

/-- A store behind a string leaves it alone. -/
theorem Text.set (h : Text array p s) (hi : p + s.length < i) : Text (array.set i c) p s := by
  obtain ⟨hs, rest, hd⟩ := h
  obtain ⟨k, rfl⟩ := Nat.exists_eq_add_of_lt hi
  refine ⟨hs, rest.set k c, ?_⟩
  rw [List.drop_set, if_neg (by omega), hd, List.set_append_right _ _ (by omega),
    show p + s.length + k + 1 - p - s.length = k + 1 by omega, List.set_cons_succ]

/-- A NUL over a character of a string cuts it. -/
theorem Text.cut (h : Text array p (u ++ c :: s)) :
    Text (array.set (p + u.length) nul) p u ∧
      Text (array.set (p + u.length) nul) (p + u.length + 1) s := by
  obtain ⟨hs, rest, hd⟩ := h
  obtain ⟨hu, hcs⟩ := not_or.1 (List.mem_append.not.1 hs)
  constructor
  · refine ⟨hu, s ++ nul :: rest, ?_⟩
    rw [List.drop_set, if_neg (by omega), hd, Nat.add_sub_cancel_left, List.append_assoc,
      List.set_append_right _ _ (Nat.le_refl _), Nat.sub_self, List.cons_append, List.set_cons_zero]
  · refine ⟨fun hmem => hcs (List.mem_cons_of_mem _ hmem), rest, ?_⟩
    rw [List.drop_set_of_lt (by omega), Nat.add_assoc, ← List.drop_drop, hd]
    simp

/-- The first `c` of a string. -/
theorem Text.strchr_some (h : Text array p (u ++ c :: s)) (hu : c ∉ u) :
    strchr array p c = some (p + u.length) := by
  unfold strchr
  rw [h.cstr, if_pos (by simp), List.idxOf_append_of_notMem hu, List.idxOf_cons_self, Nat.add_zero]

/-- A character that is not in the string is not found. -/
theorem Text.strchr_none (h : Text array p s) (hs : c ∉ s) : strchr array p c = none := by
  unfold strchr
  rw [h.cstr, if_neg hs]

/-- The pointer stops at the first character that is not a space. -/
theorem Text.skip {p : Parse} (h : Text p.array p.buf (gap ++ s)) (hgap : ∀ c ∈ gap, c = ' ')
    (hs : s.head? ≠ some ' ') : p.skip = p.moveTo (p.buf + gap.length) := by
  obtain ⟨-, rest, hd⟩ := h
  have hall : ∀ c ∈ gap, decide (c ≠ nul ∧ c = ' ') = true := fun c hc => by
    rw [hgap c hc]
    decide
  have hstop : (s ++ nul :: rest).takeWhile (fun c => decide (c ≠ nul ∧ c = ' ')) = [] := by
    cases s with
    | nil => exact List.takeWhile_cons_of_neg (by simp)
    | cons c s =>
      have hc : c ≠ ' ' := fun he => hs (congrArg some he)
      exact List.takeWhile_cons_of_neg (by simp [hc])
  rw [Parse.skip, hd, List.append_assoc, List.takeWhile_append_of_pos hall, hstop, List.append_nil]

/-- More entries and a longer string allow as much. -/
theorem Access.Within.mono {a : Access} (h : a.Within args len) (ha : args ≤ args')
    (hl : len ≤ len') : a.Within args' len' := by
  cases a with
  | argv i => exact Nat.lt_of_lt_of_le h ha
  | array i => exact h
  | buf p => exact Nat.le_trans h hl

end

/-! ## The loop -/

/-- From `p` to `p'` the words `ts` have been cut out of the string `s` at the pointer. -/
structure Parse.Scanned (p p' : Parse) (s : List Char) (ts : List (List Char)) : Prop where
  argv : ∃ qs, p'.argv = p.argv ++ qs.map some ∧ List.Forall₂ (Text p'.array) qs ts
  /-- what stands before the pointer stays -/
  kept : ∀ q t, Text p.array q t → q + t.length < p.buf → Text p'.array q t
  length : p'.array.length = p.array.length
  accesses : ∃ new, p'.accesses = p.accesses ++ new ∧
    ∀ a ∈ new, a.Within p'.argv.length (p.buf + s.length)

section
variable {p p' : Parse} {s t u gap : List Char} {ts : List (List Char)} {c : Char} {q fuel : Nat}

/-- No word is cut out of anything where nothing is done. -/
theorem Parse.Scanned.refl (p : Parse) (s : List Char) : p.Scanned p s [] :=
  ⟨⟨[], (List.append_nil _).symm, .nil⟩, fun _ _ h _ => h, rfl, [], (List.append_nil _).symm,
    fun _ h => absurd h List.not_mem_nil⟩

/-- Every word is an argument. -/
theorem Parse.Scanned.argc (h : p.Scanned p' s ts) :
    p'.argv.length = p.argv.length + ts.length := by
  obtain ⟨qs, hqs, htexts⟩ := h.argv
  rw [hqs, List.length_append, List.length_map, htexts.length_eq]

/-- The pointer moves over characters that are no part of a word. -/
theorem Parse.Scanned.move (h : (p.moveTo (p.buf + u.length)).Scanned p' s ts) :
    p.Scanned p' (u ++ s) ts := by
  obtain ⟨new, hnew, hin⟩ := h.accesses
  have hlen : p.buf + (u ++ s).length = p.buf + u.length + s.length := by
    rw [List.length_append, Nat.add_assoc]
  refine ⟨h.argv, fun q t ht hq => h.kept q t ht (Nat.lt_add_right _ hq), h.length,
    .buf (p.buf + u.length) :: new, ?_, List.forall_mem_cons.2 ⟨?_, ?_⟩⟩
  · rw [hnew]
    exact List.append_assoc p.accesses _ _
  · rw [hlen]
    exact Nat.le_add_right _ _
  · rw [hlen]
    exact hin

@[simp] theorem Parse.put_natCast (p : Parse) (i : Nat) (c : Char) :
    p.put i c = { p with array := p.array.set i c, accesses := p.accesses ++ [.array i] } := by
  simp [Parse.put]

/-- The body of the loop up to the next spaces. -/
theorem Parse.cut_eq (p : Parse) (d : Nat) :
    ((p.push (some p.buf)).put d nul).moveTo (d + 1) =
      ⟨p.array.set d nul, p.argv ++ [some p.buf], d + 1,
        p.accesses ++ [.argv p.argv.length, .array d, .buf (d + 1)]⟩ := by
  simp [Parse.push, Parse.moveTo]

/-- A word is entered in `argv` and cut off. -/
theorem Parse.Scanned.cut (ht : Text p.array p.buf (t ++ c :: s)) (harr : p.array.length = maxline)
    (h : (((p.push (some p.buf)).put (p.buf + t.length : Nat) nul).moveTo
      (p.buf + t.length + 1)).Scanned p' s ts) : p.Scanned p' (t ++ c :: s) (t :: ts) := by
  rw [Parse.cut_eq] at h
  have hlen := ht.length
  have hargc := h.argc
  obtain ⟨qs, hqs, htexts⟩ := h.argv
  obtain ⟨new, hnew, hin⟩ := h.accesses
  dsimp only at hqs hargc hnew hin
  rw [List.length_append, List.length_cons] at hlen
  rw [List.length_append, List.length_singleton] at hargc
  have hend : p.buf + (t ++ c :: s).length = p.buf + t.length + 1 + s.length := by
    rw [List.length_append, List.length_cons]
    omega
  have hword : Text p'.array p.buf t := h.kept p.buf t ht.cut.1 (Nat.lt_succ_self _)
  refine ⟨⟨p.buf :: qs, ?_, .cons hword htexts⟩, fun q u hu hq => ?_, ?_,
    [.argv p.argv.length, .array (p.buf + t.length : Nat), .buf (p.buf + t.length + 1)] ++ new,
    ?_, List.forall_mem_append.2 ⟨?_, ?_⟩⟩
  · rw [hqs, List.append_assoc]
    rfl
  · refine h.kept q u (hu.set (Nat.lt_add_right _ hq)) ?_
    change q + u.length < p.buf + t.length + 1
    omega
  · rw [h.length]
    exact List.length_set
  · rw [hnew, List.append_assoc]
  · rw [hend]
    simp only [List.forall_mem_cons, Access.Within]
    refine ⟨by omega, ⟨by omega, by omega⟩, by omega, fun _ h => absurd h List.not_mem_nil⟩
  · rw [hend]
    exact hin

/-- Without a delimiter the loop ends. -/
theorem Parse.loop_none (fuel : Nat) (p : Parse) : Parse.loop fuel p none = some p := by
  cases fuel <;> rfl

/-- A bare word ends at the first space. -/
theorem Parse.delim_bare (ht : Text p.array q s) (hs : s.head? ≠ some '\'') :
    (p.moveTo q).delim = (p.moveTo q, strchr p.array q ' ') := by
  refine if_neg fun hq => ?_
  cases s with
  | nil => cases ht.nil.symm.trans hq
  | cons c s => exact hs (ht.cons.1.symm.trans hq)

/-- A quoted word begins after its quote and ends at the next one. -/
theorem Parse.delim_quoted (ht : Text p.array q ('\'' :: s)) :
    (p.moveTo q).delim = ((p.moveTo q).moveTo (q + 1), strchr p.array (q + 1) '\'') :=
  if_pos ht.cons.1

/-- The rest of a line of spaces holds no word. -/
theorem Parse.loop_blank (ht : Text p.array p.buf s) (hs : ∀ c ∈ s, c = ' ') (fuel : Nat) :
    ∃ p', Parse.loop fuel p.skip.delim.1 p.skip.delim.2 = some p' ∧ p.Scanned p' s [] := by
  have ht' : Text p.array p.buf (s ++ []) := by rwa [List.append_nil]
  have hend : Text p.array (p.buf + s.length) [] := ht'.append
  refine ⟨p.moveTo (p.buf + s.length), ?_, ?_⟩
  · rw [ht'.skip hs (by simp), Parse.delim_bare hend (by simp), hend.strchr_none List.not_mem_nil]
    exact Parse.loop_none fuel _
  · have := Parse.Scanned.move (u := s) (Parse.Scanned.refl (p.moveTo (p.buf + s.length)) [])
    rwa [List.append_nil] at this

/-- A quote that is not closed ends the search. -/
theorem Parse.loop_unclosed (ht : Text p.array p.buf (gap ++ '\'' :: u)) (hgap : ∀ c ∈ gap, c = ' ')
    (hu : '\'' ∉ u) (fuel : Nat) : ∃ p', Parse.loop fuel p.skip.delim.1 p.skip.delim.2 = some p' ∧
      p.Scanned p' (gap ++ '\'' :: u) [] := by
  have hquote := ht.append
  refine ⟨(p.moveTo (p.buf + gap.length)).moveTo (p.buf + gap.length + 1), ?_, ?_⟩
  · rw [ht.skip hgap (by simp), Parse.delim_quoted hquote, hquote.cons.2.strchr_none hu]
    exact Parse.loop_none fuel _
  · exact Parse.Scanned.move (Parse.Scanned.move (u := ['\'']) (Parse.Scanned.refl _ u))

/-- A word that ends at `c`, and what the loop makes of the rest. -/
theorem Parse.loop_word (ht : Text p.array p.buf (u ++ c :: s)) (harr : p.array.length = maxline)
    (hrest : ∀ p' : Parse, Text p'.array p'.buf s → p'.array.length = maxline →
      ∃ p'', Parse.loop fuel p'.skip.delim.1 p'.skip.delim.2 = some p'' ∧ p'.Scanned p'' s ts) :
    ∃ p', Parse.loop (fuel + 1) p (some (p.buf + u.length)) = some p' ∧
      p.Scanned p' (u ++ c :: s) (u :: ts) := by
  obtain ⟨p', hp', hs⟩ := hrest (((p.push (some p.buf)).put (p.buf + u.length : Nat) nul).moveTo
    (p.buf + u.length + 1)) (by rw [Parse.cut_eq]; exact ht.cut.2)
    (by rw [Parse.cut_eq, ← harr]; exact List.length_set)
  exact ⟨p', hp', hs.cut ht harr⟩

/-- What is left of a string that ends in a space is empty or ends in a space. -/
theorem last_space (h : ∀ d ∈ (u ++ s).getLast?, d = ' ') : ∀ d ∈ s.getLast?, d = ' ' := by
  intro d hd
  refine h d ?_
  rw [Option.mem_def] at hd ⊢
  rw [List.getLast?_append, hd, Option.some_or]

/-- **The loop** cuts out the words of a string that is empty or ends in a space. -/
theorem Parse.loop_scanned (ht : Text p.array p.buf s) (hlast : ∀ c ∈ s.getLast?, c = ' ')
    (harr : p.array.length = maxline) (hfuel : s.length ≤ fuel) :
    ∃ p', Parse.loop fuel p.skip.delim.1 p.skip.delim.2 = some p' ∧
      p.Scanned p' s (words ' ' '\'' s) := by
  induction fuel generalizing p s with
  | zero =>
    obtain rfl := List.eq_nil_of_length_eq_zero (Nat.le_zero.1 hfuel)
    exact Parse.loop_blank ht (fun c hc => absurd hc List.not_mem_nil) 0
  | succ fuel ih =>
    have hsplit := split (show '\'' ≠ ' ' by decide) s
    generalize words ' ' '\'' s = ts at hsplit ⊢
    cases hsplit with
    | blank hgap => exact Parse.loop_blank ht hgap (fuel + 1)
    | unclosed hgap hu => exact Parse.loop_unclosed ht hgap hu (fuel + 1)
    | @bare gap u s hgap hne hu hq hs =>
      have hword := ht.append
      cases s with
      | nil =>
        -- the word does not end the string, which ends in a space
        obtain ⟨last, hl⟩ := List.getLast?_isSome.2 hne |> Option.isSome_iff_exists.1
        have hspace := hlast last (by
          rw [Option.mem_def, List.append_nil, List.getLast?_append, hl, Option.some_or])
        exact absurd (hspace ▸ List.mem_of_getLast? hl) hu
      | cons c s =>
        obtain rfl := hs c rfl
        have hrest : ∀ d ∈ s.getLast?, d = ' ' :=
          last_space (u := [' ']) (last_space (last_space hlast))
        have hhead : (u ++ ' ' :: s).head? = u.head? := List.head?_append_of_ne_nil _ hne
        have hskip : (u ++ ' ' :: s).head? ≠ some ' ' := fun he =>
          hu (List.mem_of_head? (hhead.symm.trans he))
        rw [ht.skip hgap hskip, Parse.delim_bare hword (hhead ▸ hq), hword.strchr_some hu]
        obtain ⟨p', hp', hscan⟩ := Parse.loop_word (p := p.moveTo (p.buf + gap.length)) hword harr
          fun p₂ ht₂ harr₂ => ih ht₂ hrest harr₂ (by simp at hfuel; omega)
        exact ⟨p', hp', hscan.move⟩
    | @quoted gap u s hgap hu =>
      have hquote := ht.append
      have hword := hquote.cons.2
      have hrest : ∀ d ∈ s.getLast?, d = ' ' :=
        last_space (u := ['\'']) (last_space (last_space (u := ['\'']) (last_space hlast)))
      rw [ht.skip hgap (by simp), Parse.delim_quoted hquote, hword.strchr_some hu]
      obtain ⟨p', hp', hscan⟩ := Parse.loop_word
        (p := (p.moveTo (p.buf + gap.length)).moveTo (p.buf + gap.length + 1)) hword harr
        fun p₂ ht₂ harr₂ => ih ht₂ hrest harr₂ (by simp at hfuel; omega)
      exact ⟨p', hp', (Parse.Scanned.move (u := ['\'']) hscan).move⟩

end

/-! ## The argument list -/

/-- The arguments and the result for the words of a line: the last word is no argument if it begins
with `&`, and a line without words asks for the background. -/
def arguments (ts : List (List Char)) : List (List Char) × Bool :=
  match ts.getLast? with
  | none => ([], true)
  | some t => if t.head? = some '&' then (ts.dropLast, true) else (ts, false)

/-- `argv` holds these texts, in order, and then `NULL`. -/
def Parse.Holds (p : Parse) (ts : List (List Char)) : Prop :=
  ∃ qs rest, p.argv = qs.map some ++ none :: rest ∧ List.Forall₂ (Text p.array) qs ts

section
variable {p p' : Parse} {array s t cmdline : List Char} {ts : List (List Char)} {c : Char}
  {q : Nat} {qs : List Nat}

/-- What a caller finds. -/
theorem Parse.Holds.vector (h : p.Holds ts) : p.vector = ts := by
  obtain ⟨qs, rest, hargv, htexts⟩ := h
  have htake : (p.argv.takeWhile Option.isSome).filterMap id = qs := by
    rw [hargv, List.takeWhile_append_of_pos (by simp), List.takeWhile_cons_of_neg (by simp),
      List.append_nil, List.filterMap_map]
    exact List.filterMap_some
  rw [Parse.vector, htake]
  clear hargv htake
  induction htexts with
  | nil => rfl
  | cons ht _ ih => rw [List.map_cons, ht.cstr, ih]

/-- The character at an address is the first of the string there. -/
theorem Text.head (h : Text array q t) (hc : c ≠ nul) : array[q]? = some c ↔ t.head? = some c := by
  cases t with
  | nil =>
    rw [h.nil]
    exact iff_of_false (fun he => hc (Option.some.inj he).symm) (by simp)
  | cons d t => rw [h.cons.1, List.head?_cons]

/-- A line without words asks for the background. -/
theorem Parse.finish_nil (h : p.argv = []) : p.finish = (p.push none, true) :=
  if_pos (by rw [h]; rfl)

/-- A last word that begins with `&` is taken back. -/
theorem Parse.finish_concat (h : p.argv = qs.map some ++ [some q]) :
    p.finish = if p.array[q]? = some '&' then
      ({ p with argv := qs.map some ++ [none, none],
                accesses := p.accesses ++ [.argv (qs.length + 1), .argv qs.length] }, true)
    else (p.push none, false) := by
  have hlen : p.argv.length = qs.length + 1 := by
    rw [h, List.length_append, List.length_map, List.length_singleton]
  have hlast : (p.push none).argv[p.argv.length - 1]? = some (some q) := by
    rw [Parse.push, hlen, h]
    simp
  rw [Parse.finish, if_neg (by omega), hlast]
  refine if_congr Iff.rfl ?_ rfl
  rw [Parse.push, hlen, h, Nat.add_sub_cancel]
  simp

/-- The end of `parseline`, where `argv` holds the words. -/
theorem Parse.finish_holds (hargv : p.argv = qs.map some)
    (htexts : List.Forall₂ (Text p.array) qs ts) :
    p.finish.1.Holds (arguments ts).1 ∧ p.finish.2 = (arguments ts).2 ∧
      p.finish.1.array = p.array ∧
      ∃ new, p.finish.1.accesses = p.accesses ++ .argv ts.length :: new ∧
        ∀ a ∈ new, a = .argv (ts.length - 1) := by
  rcases List.eq_nil_or_concat ts with rfl | ⟨front, t, rfl⟩
  · obtain rfl := List.eq_nil_of_length_eq_zero htexts.length_eq
    rw [Parse.finish_nil hargv]
    refine ⟨⟨[], [], ?_, .nil⟩, rfl, rfl, [], ?_, fun _ h => absurd h List.not_mem_nil⟩
    · rw [Parse.push, hargv]
    · rw [Parse.push, hargv]
      rfl
  · rw [List.concat_eq_append] at htexts ⊢
    obtain ⟨qs', q, rfl, hfront, hq⟩ : ∃ qs' q, qs = qs' ++ [q] ∧
        List.Forall₂ (Text p.array) qs' front ∧ Text p.array q t := by
      have hlast := List.forall₂_drop_append _ _ _ htexts
      obtain ⟨q, hq, hdrop⟩ : ∃ q, Text p.array q t ∧ qs.drop front.length = [q] := by
        generalize qs.drop front.length = l at hlast
        cases hlast with
        | cons hq hnil =>
          cases hnil
          exact ⟨_, hq, rfl⟩
      refine ⟨qs.take front.length, q, ?_, List.forall₂_take_append _ _ _ htexts, hq⟩
      rw [← hdrop, List.take_append_drop]
    have hlen := hfront.length_eq
    have hamp : p.array[q]? = some '&' ↔ t.head? = some '&' := hq.head (by decide)
    rw [List.map_append] at hargv
    rw [Parse.finish_concat hargv, arguments, List.getLast?_concat]
    dsimp only
    by_cases ht : t.head? = some '&'
    · rw [if_pos (hamp.2 ht), if_pos ht, List.dropLast_concat]
      refine ⟨⟨qs', [none], rfl, hfront⟩, rfl, rfl, [.argv qs'.length], ?_, ?_⟩
      · rw [hlen, List.length_append, List.length_singleton]
      · simp [hlen]
    · rw [if_neg (hamp.not.2 ht), if_neg ht]
      refine ⟨⟨qs' ++ [q], [], ?_, htexts⟩, rfl, rfl, [], ?_, fun _ h => absurd h List.not_mem_nil⟩
      · rw [Parse.push, hargv, List.map_append]
      · rw [Parse.push, hargv]
        simp [hlen]

/-- The copy ends in a space. -/
theorem Parse.start_text (hnul : nul ∉ s ++ [c]) (hlen : (s ++ [c]).length < maxline)
    (harr : array.length = maxline) :
    Text (Parse.start array (s ++ [c])).array 0 (s ++ [' ']) ∧
      (Parse.start array (s ++ [c])).array.length = maxline ∧
      ∀ a ∈ (Parse.start array (s ++ [c])).accesses, a.Within 0 0 := by
  have hcopy : Text ((⟨array, [], 0, []⟩ : Parse).strcpy (s ++ [c])).array 0 (s ++ [c]) :=
    ⟨hnul, _, List.drop_zero⟩
  have hlast : ((s ++ [c]).length : Int) - 1 = (s.length : Nat) := by simp
  have hstart : Parse.start array (s ++ [c]) =
      ((⟨array, [], 0, []⟩ : Parse).strcpy (s ++ [c])).put (s.length : Nat) ' ' := by
    rw [← hlast, ← congrArg List.length hcopy.cstr]
    rfl
  rw [hstart, Parse.put_natCast, Parse.strcpy]
  dsimp only
  rw [List.length_append, List.length_singleton] at hlen ⊢
  refine ⟨⟨?_, array.drop (s.length + 1 + 1), ?_⟩, ?_, ?_⟩
  · rw [List.mem_append, not_or, List.mem_singleton]
    exact ⟨fun hs => hnul (List.mem_append_left _ hs), by decide⟩
  · simp
  · simp [harr]
    omega
  · simp only [List.nil_append, List.forall_mem_append, List.forall_mem_map, List.mem_range,
      List.forall_mem_singleton, Access.Within]
    exact ⟨fun i hi => ⟨by omega, by omega⟩, by omega, by omega⟩

/-- **`parseline`** leaves the words of the line without its last character, and its stores and its
pointer stay within bounds exactly if there are fewer of them than entries of `argv`. -/
theorem parseline_spec (harr : array.length = maxline) (hne : s ≠ []) (hnul : nul ∉ s)
    (hlen : s.length < maxline) :
    ∃ p, parseline array s = some (p, (arguments (words ' ' '\'' s.dropLast)).2) ∧
      p.Holds (arguments (words ' ' '\'' s.dropLast)).1 ∧ p.array.length = maxline ∧
      ((∀ a ∈ p.accesses, a.Within maxargs s.length) ↔
        (words ' ' '\'' s.dropLast).length < maxargs) := by
  rcases List.eq_nil_or_concat s with rfl | ⟨body, c, rfl⟩
  · exact absurd rfl hne
  rw [List.concat_eq_append] at hnul hlen ⊢
  rw [List.dropLast_concat]
  obtain ⟨ht, harr₀, hin₀⟩ := Parse.start_text hnul hlen harr
  have hargv₀ : (Parse.start array (body ++ [c])).argv = [] := rfl
  have hfuel : (body ++ [' ']).length ≤ maxline := by
    rw [List.length_append] at hlen ⊢
    exact Nat.le_of_lt hlen
  obtain ⟨p₁, hp₁, hscan⟩ := Parse.loop_scanned ht (by simp) harr₀ hfuel
  rw [words_concat_sep (show '\'' ≠ ' ' by decide)] at hscan
  obtain ⟨qs, hqs, htexts⟩ := hscan.argv
  obtain ⟨new, hnew, hin⟩ := hscan.accesses
  have hargc := hscan.argc
  rw [hargv₀, List.nil_append] at hqs
  rw [hargv₀, List.length_nil, Nat.zero_add] at hargc
  obtain ⟨hholds, hbg, harray, new', hnew', hin'⟩ := Parse.finish_holds hqs htexts
  refine ⟨p₁.finish.1, ?_, hholds, ?_, ?_⟩
  · rw [parseline, hp₁, Option.map_some, ← hbg]
  · rw [harray, hscan.length, harr₀]
  · rw [hnew', hnew]
    constructor
    · intro hall
      exact hall (.argv (words ' ' '\'' body).length) (by simp)
    · intro hlt
      have hend : (Parse.start array (body ++ [c])).buf + (body ++ [' ']).length =
          (body ++ [c]).length := by simp [Parse.start, Parse.put, Parse.strcpy]
      rw [List.forall_mem_append, List.forall_mem_append, List.forall_mem_cons]
      refine ⟨⟨fun a ha => (hin₀ a ha).mono (Nat.zero_le _) (Nat.zero_le _), fun a ha => ?_⟩, hlt,
        fun a ha => ?_⟩
      · exact (hin a ha).mono (hargc ▸ Nat.le_of_lt hlt) (Nat.le_of_eq hend)
      · rw [hin' a ha]
        exact Nat.lt_of_le_of_lt (Nat.sub_le _ _) hlt

/-- On the empty string the last character is taken to stand before the array. -/
theorem parseline_nil (array : List Char) :
    ∃ r, parseline array [] = some r ∧ .array (-1) ∈ r.1.accesses := by
  have ht : Text (Parse.start array []).array (Parse.start array []).buf [] :=
    ⟨List.not_mem_nil, array.drop 1, rfl⟩
  obtain ⟨p, hp, hscan⟩ := Parse.loop_blank ht (fun _ h => absurd h List.not_mem_nil) maxline
  obtain ⟨qs, hqs, htexts⟩ := hscan.argv
  obtain ⟨new, hnew, -⟩ := hscan.accesses
  obtain ⟨-, -, -, new', hnew', -⟩ := Parse.finish_holds hqs htexts
  refine ⟨p.finish, by rw [parseline, hp, Option.map_some], ?_⟩
  rw [hnew', hnew]
  exact List.mem_append_left _ (List.mem_append_left _ (List.mem_of_elem_eq_true rfl))

/-- A command line on which the words `ws` are written, with `n` spaces after them. -/
def writtenLine (ws : List (Nat × Written Char)) (n : Nat) : List Char :=
  render ' ' '\'' ws ++ List.replicate n ' ' ++ ['\n']

/-- **`parseline` reads back an argument list.** Arguments are written bare or between quotes, with
spaces around them and at least one space between them; up to 127 of them, in a line that fits. -/
theorem parseline_render {ws : List (Nat × Written Char)} {n : Nat}
    (harr : array.length = maxline) (hok : ∀ x ∈ ws, x.2.Ok ' ' '\'' ∧ nul ∉ x.2.text)
    (hgap : ∀ x ∈ ws.tail, 1 ≤ x.1) (hfew : ws.length < maxargs)
    (hlen : (writtenLine ws n).length < maxline) :
    ∃ p bg, parseline array (writtenLine ws n) = some (p, bg) ∧
      (∀ a ∈ p.accesses, a.Within maxargs (writtenLine ws n).length) ∧
      ∀ t ∈ (ws.map fun x => x.2.text).getLast?,
        (t.head? = some '&' → bg = true ∧ p.Holds (ws.map fun x => x.2.text).dropLast) ∧
        (t.head? ≠ some '&' → bg = false ∧ p.Holds (ws.map fun x => x.2.text)) := by
  unfold writtenLine at hlen ⊢
  have hwords : words ' ' '\'' (render ' ' '\'' ws ++ List.replicate n ' ') =
      ws.map fun x => x.2.text :=
    words_render (by decide) (fun x hx => (hok x hx).1) hgap n
  have hnul : nul ∉ render ' ' '\'' ws ++ List.replicate n ' ' ++ ['\n'] := by
    rw [List.mem_append, List.mem_append, not_or, not_or, List.mem_singleton]
    refine ⟨⟨fun h => ?_, fun h => ?_⟩, by decide⟩
    · rcases mem_render h with h | h | ⟨x, hx, h⟩
      · cases h
      · cases h
      · exact (hok x hx).2 h
    · cases List.eq_of_mem_replicate h
  obtain ⟨p, hp, hholds, -, hin⟩ := parseline_spec harr (by simp) hnul hlen
  rw [List.dropLast_concat, hwords] at hp hholds hin
  refine ⟨p, _, hp, hin.2 (by rwa [List.length_map]), fun t ht => ?_⟩
  rw [arguments, Option.mem_def.1 ht] at hholds ⊢
  dsimp only at hholds ⊢
  constructor
  · intro hamp
    rw [if_pos hamp] at hholds ⊢
    exact ⟨rfl, hholds⟩
  · intro hamp
    rw [if_neg hamp] at hholds ⊢
    exact ⟨rfl, hholds⟩

end

/-- `echo 'a b'  & ` and a newline. -/
def echoWords : List (Nat × Written Char) :=
  [(0, ⟨false, ['e', 'c', 'h', 'o']⟩), (1, ⟨true, ['a', ' ', 'b']⟩), (2, ⟨false, ['&']⟩)]

/-- The written line of the example is parsed into its words, for the background. -/
theorem parseline_render_echo : ∃ p bg,
    parseline (List.replicate maxline nul) (writtenLine echoWords 1) = some (p, bg) ∧
      bg = true ∧ p.Holds [['e', 'c', 'h', 'o'], ['a', ' ', 'b']] := by
  have hok : ∀ x ∈ echoWords, x.2.Ok ' ' '\'' ∧ nul ∉ x.2.text := by
    unfold Written.Ok
    decide
  have hgap : ∀ x ∈ echoWords.tail, 1 ≤ x.1 := by decide
  have hlen : (writtenLine echoWords 1).length < maxline := by decide
  obtain ⟨p, bg, hp, -, hargs⟩ :=
    parseline_render List.length_replicate hok hgap (by decide) hlen
  exact ⟨p, bg, hp, (hargs ['&'] rfl).1 rfl⟩

end Tsh
