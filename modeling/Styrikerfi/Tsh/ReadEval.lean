import Styrikerfi.Lib.Lines
import Styrikerfi.Tsh.Parseline
import Styrikerfi.Tsh.Shell

/-!
# The read/eval loop

`main` reads a command line with `fgets` and hands it to `eval`, which builds an argument vector
with `parseline` and passes it to `builtin_cmd`. Three layers have their own notion of a line:
`fgets` stops after 1023 characters, `parseline` takes the last character for a newline, and `main`
looks for the end of the file before it evaluates what it has read.

So `parseline` stays within its arrays on what `fgets` returns only where that is a string, and of
fewer than 128 words (`parseline_within_iff`); `builtin_cmd` is given a command only where the line
has one (`eval_command_iff`); and the loop evaluates the lines of its input, each once and whole,
exactly where they fit (`readEval_iff`).
-/

namespace Tsh

open Words Lines

/-- The characters `fgets` takes: up to `k` of them, not past a newline; then what is left, and
whether the end of the file was met. -/
def readLine : Nat → List Char → List Char × List Char × Bool
  | 0, stdin => ([], stdin, false)
  | _ + 1, [] => ([], [], true)
  | k + 1, c :: stdin =>
    if c = '\n' then ([c], stdin, false)
    else
      let r := readLine k stdin
      (c :: r.1, r.2)

/-- `fgets(buf, size, stdin)`; where nothing is read before the end of the file the result is
`NULL`. -/
def fgets (size : Nat) (stdin : List Char) : List Char × List Char × Bool :=
  readLine (size - 1) stdin

/-- `eval`, up to its call of `builtin_cmd`, on a buffer that holds these characters and a NUL;
`none` where `parseline` makes an access that is not within bounds. -/
def eval (array line : List Char) : Option (Parse × Bool) :=
  let cmdline := cstr (line ++ [nul]) 0
  (parseline array cmdline).filter fun r =>
    r.1.accesses.all fun a => a.Within maxargs cmdline.length

/-- `builtin_cmd` does not return: there is no command, or it is `quit`. -/
def ends (argv : List (List Char)) : Bool := argv = [] ∨ argv.head? = some ['q', 'u', 'i', 't']

/-- The read/eval loop: the lines evaluated, with their argument vectors, up to the end of the file
or a call of `builtin_cmd` or `parseline` that does not return. The input is a stream of characters
that no child repositions. -/
def readEval : Nat → List Char → List Char → Option (List (List Char × List (List Char)))
  | 0, _, _ => none
  | fuel + 1, array, stdin =>
    let (line, rest, eof) := fgets maxline stdin
    if eof then some []
    else
      match eval array line with
      | none => some []
      | some (p, _) =>
        if ends p.vector then some [(line, p.vector)]
        else (readEval fuel p.array rest).map fun evs => (line, p.vector) :: evs

section
variable {array line stdin u r body : List Char} {k fuel : Nat} {s : Shell}

/-! ## What `fgets` returns -/

/-- There is room for one more character. -/
theorem readLine_cons (k : Nat) (c : Char) (stdin : List Char) :
    readLine (k + 1) (c :: stdin) =
      if c = '\n' then ([c], stdin, false)
      else (c :: (readLine k stdin).1, (readLine k stdin).2) := rfl

/-- Characters before a newline are taken one after the other. -/
theorem readLine_append (hu : '\n' ∉ u) (k : Nat) (r : List Char) :
    readLine (u.length + k) (u ++ r) = (u ++ (readLine k r).1, (readLine k r).2) := by
  induction u with
  | nil => rw [List.length_nil, Nat.zero_add]; rfl
  | cons c u ih =>
    obtain ⟨hc, hu⟩ := not_or.1 (List.mem_cons.not.1 hu)
    rw [List.length_cons, Nat.add_right_comm, List.cons_append, readLine_cons,
      if_neg (Ne.symm hc), ih hu]
    rfl

/-- A line that fits is taken up to its newline. -/
theorem readLine_ended (hu : '\n' ∉ u) (hk : u.length < k) (r : List Char) :
    readLine k (u ++ '\n' :: r) = (u ++ ['\n'], r, false) := by
  obtain ⟨j, rfl⟩ := Nat.exists_eq_add_of_lt hk
  rw [Nat.add_assoc, readLine_append hu, readLine_cons, if_pos rfl]

/-- Without a newline as much is taken as fits. -/
theorem readLine_full (hu : '\n' ∉ u) (r : List Char) :
    readLine u.length (u ++ r) = (u, r, false) := by
  have hfull : readLine 0 r = ([], r, false) := rfl
  have := readLine_append hu 0 r
  rwa [hfull, List.append_nil] at this

/-- What comes before the end of the file is taken. -/
theorem readLine_eof (hu : '\n' ∉ u) (hk : u.length < k) : readLine k u = (u, [], true) := by
  obtain ⟨j, rfl⟩ := Nat.exists_eq_add_of_lt hk
  have heof : readLine (j + 1) [] = ([], [], true) := rfl
  have := readLine_append hu (j + 1) []
  rwa [heof, List.append_nil] at this

/-- A call of `fgets` returns a line, or as much of it as fits, or meets the end of the file. -/
inductive Gets (size : Nat) : List Char → List Char × List Char × Bool → Prop
  | ended {u r : List Char} (hu : '\n' ∉ u) (hk : u.length + 1 < size) :
      Gets size (u ++ '\n' :: r) (u ++ ['\n'], r, false)
  | full {u r : List Char} (hu : '\n' ∉ u) (hk : u.length + 1 = size) :
      Gets size (u ++ r) (u, r, false)
  | eof {u : List Char} (hu : '\n' ∉ u) (hk : u.length + 1 < size) : Gets size u (u, [], true)

/-- What a call of `fgets` returns is one of the three. -/
theorem fgets_gets {size : Nat} (hsize : 0 < size) (stdin : List Char) :
    Gets size stdin (fgets size stdin) := by
  have hcut : ∀ {u r}, '\n' ∉ u → size ≤ u.length + 1 →
      Gets size (u ++ r) (fgets size (u ++ r)) := by
    intro u r hu hk
    have htake : (u.take (size - 1)).length = size - 1 := List.length_take_of_le (by omega)
    have hu' : '\n' ∉ u.take (size - 1) := fun h => hu (List.mem_of_mem_take h)
    have hfull := readLine_full hu' (u.drop (size - 1) ++ r)
    rw [htake, ← List.append_assoc, List.take_append_drop] at hfull
    rw [fgets, hfull]
    have hgets := Gets.full (r := u.drop (size - 1) ++ r) hu' (by omega : _ + 1 = size)
    rwa [← List.append_assoc, List.take_append_drop] at hgets
  by_cases hnl : '\n' ∈ stdin
  · obtain ⟨u, r, rfl, hu⟩ := List.eq_append_cons_of_mem hnl
    rcases Nat.lt_or_ge (u.length + 1) size with hk | hk
    · rw [fgets, readLine_ended hu (by omega)]
      exact .ended hu hk
    · exact hcut hu hk
  · rcases Nat.lt_or_ge (stdin.length + 1) size with hk | hk
    · rw [fgets, readLine_eof hnl (by omega)]
      exact .eof hnl hk
    · have := hcut (r := []) hnl hk
      rwa [List.append_nil] at this

/-! ## What `eval` makes of a line -/

/-- The string in the buffer: what stands before the first NUL. -/
theorem cstr_concat (line : List Char) :
    cstr (line ++ [nul]) 0 = line.takeWhile fun c => c ≠ nul := by
  rw [cstr, List.drop_zero]
  induction line with
  | nil => rfl
  | cons c line ih => rw [List.cons_append, List.takeWhile_cons, List.takeWhile_cons, ih]

/-- The string in the buffer is the line. -/
theorem cstr_nul (hnul : nul ∉ line) : cstr (line ++ [nul]) 0 = line :=
  Text.cstr ⟨hnul, [], rfl⟩

/-- A line with few words is evaluated to its arguments. -/
theorem eval_some (harr : array.length = maxline) (hne : line ≠ []) (hnul : nul ∉ line)
    (hlen : line.length < maxline) (hfew : (words ' ' '\'' line.dropLast).length < maxargs) :
    ∃ p, eval array line = some (p, (arguments (words ' ' '\'' line.dropLast)).2) ∧
      p.vector = (arguments (words ' ' '\'' line.dropLast)).1 ∧ p.array.length = maxline := by
  obtain ⟨p, hp, hholds, harr', hin⟩ := parseline_spec harr hne hnul hlen
  refine ⟨p, ?_, hholds.vector, harr'⟩
  rw [eval, cstr_nul hnul, hp]
  exact Option.filter_some_pos (by simpa using hin.2 hfew)

/-- A line with too many words is not evaluated. -/
theorem eval_none (harr : array.length = maxline) (hne : line ≠ []) (hnul : nul ∉ line)
    (hlen : line.length < maxline) (hmany : maxargs ≤ (words ' ' '\'' line.dropLast).length) :
    eval array line = none := by
  obtain ⟨p, hp, -, -, hin⟩ := parseline_spec harr hne hnul hlen
  rw [eval, cstr_nul hnul, hp]
  refine Option.filter_some_neg (Bool.eq_false_iff.2 fun hall => ?_)
  have := hin.1 (by simpa using hall)
  omega

/-! ## `parseline` within its arrays -/

/-- **Where `parseline` stays within its arrays.** On what `fgets` returns, whatever the input, its
stores and its pointer stay within bounds exactly if the buffer holds a string that is not empty and
that has fewer than 128 words before its last character. -/
theorem parseline_within_iff {rest : List Char} {eof : Bool} (harr : array.length = maxline)
    (hf : fgets maxline stdin = (line, rest, eof)) :
    let cmdline := cstr (line ++ [nul]) 0
    ∃ r, parseline array cmdline = some r ∧
      ((∀ a ∈ r.1.accesses, a.Within maxargs cmdline.length) ↔
        cmdline ≠ [] ∧ (words ' ' '\'' cmdline.dropLast).length < maxargs) := by
  dsimp only
  have hlen : line.length < maxline := by
    have hgets := fgets_gets (by decide : 0 < maxline) stdin
    rw [hf] at hgets
    cases hgets with
    | ended hu hk => rwa [List.length_append]
    | full hu hk => exact Nat.lt_of_succ_le (Nat.le_of_eq hk)
    | eof hu hk => exact Nat.lt_of_succ_lt hk
  have hsub : (cstr (line ++ [nul]) 0).length ≤ line.length := by
    rw [cstr_concat]
    exact (List.takeWhile_prefix _).length_le
  have hnul : nul ∉ cstr (line ++ [nul]) 0 := fun h => by
    simpa using List.mem_takeWhile_imp h
  by_cases hne : cstr (line ++ [nul]) 0 = []
  · rw [hne]
    obtain ⟨r, hr, hout⟩ := parseline_nil array
    refine ⟨r, hr, iff_of_false (fun hin => ?_) fun h => absurd rfl h.1⟩
    exact absurd (hin _ hout).1 (by decide)
  · obtain ⟨p, hp, -, -, hin⟩ := parseline_spec harr hne hnul (by omega)
    exact ⟨_, hp, hin.trans ⟨fun h => ⟨hne, h⟩, fun h => h.2⟩⟩

/-- The line `ls` is parsed within bounds. -/
theorem parseline_within_ls : ∃ r,
    parseline (List.replicate maxline nul) (cstr (['l', 's', '\n'] ++ [nul]) 0) = some r ∧
      ∀ a ∈ r.1.accesses, a.Within maxargs 3 := by
  obtain ⟨r, hr, hin⟩ := parseline_within_iff List.length_replicate
    (show fgets maxline ['l', 's', '\n'] = (['l', 's', '\n'], [], false) by decide)
  exact ⟨r, hr, hin.2 (by decide)⟩

/-- A NUL begins the line, or 128 words stand on it. -/
theorem parseline_outside :
    (∃ r, parseline (List.replicate maxline nul) (cstr ((fgets maxline [nul, '\n']).1 ++ [nul]) 0) =
      some r ∧ .array (-1) ∈ r.1.accesses) ∧
    let line := (List.replicate 128 ['a', ' ']).flatten ++ ['\n']
    fgets maxline line = (line, [], false) ∧ ∃ r,
      parseline (List.replicate maxline nul) (cstr (line ++ [nul]) 0) = some r ∧
        ¬ ∀ a ∈ r.1.accesses, a.Within maxargs line.length := by
  refine ⟨parseline_nil _, ?_⟩
  intro line
  have hnul : nul ∉ line := by decide +kernel
  have hmany : (words ' ' '\'' line.dropLast).length = 128 := by decide +kernel
  obtain ⟨p, hp, -, -, hin⟩ := parseline_spec List.length_replicate (by decide : line ≠ []) hnul
    (by decide +kernel)
  rw [cstr_nul hnul]
  exact ⟨by decide +kernel, _, hp, fun hall => absurd (hin.1 hall) (by rw [hmany]; decide)⟩

/-! ## Lines without a command -/

/-- The line has a word that stays an argument. -/
def HasCommand (line : List Char) : Prop :=
  ∃ w ws, words ' ' '\'' line = w :: ws ∧ (ws ≠ [] ∨ w.head? ≠ some '&')

/-- A line has an argument if and only if it has a command. -/
theorem arguments_ne_nil : (arguments (words ' ' '\'' body)).1 ≠ [] ↔ HasCommand body := by
  unfold HasCommand
  rcases List.eq_nil_or_concat (words ' ' '\'' body) with hts | ⟨front, t, hts⟩
  · rw [hts]
    exact iff_of_false (fun h => h rfl) (by simp)
  · rw [hts, List.concat_eq_append, arguments, List.getLast?_concat]
    dsimp only
    rw [List.dropLast_concat]
    cases front with
    | nil => by_cases ht : t.head? = some '&' <;> simp [ht]
    | cons x front => by_cases ht : t.head? = some '&' <;> simp [ht]

/-- The vector `main` hands to `builtin_cmd`, and what becomes of the shell. -/
theorem step_command (hend : s.ended = none) (hidle : s.handler = .idle) (hpc : s.pc = .prompt)
    (argv : List String) (bg : Bool) (cmdline : String) :
    exec step s [.command argv bg cmdline, .main] =
      some ((s.goto (.builtinCmd argv bg cmdline)).builtinCmd argv bg cmdline) := by
  have hcommand : step s (.command argv bg cmdline) =
      some (s.goto (.builtinCmd argv bg cmdline)) := by
    simp [step, hend, hidle, hpc]
  have hmain : step (s.goto (.builtinCmd argv bg cmdline)) .main =
      some ((s.goto (.builtinCmd argv bg cmdline)).builtinCmd argv bg cmdline) := by
    simp [step, Shell.goto, hend, hidle, Shell.mainStep]
  rw [exec, hcommand, Option.bind_some, exec, hmain, Option.bind_some, exec]

/-- `do_bgfg` does not end the shell. -/
theorem Shell.doBgfg_ended (s : Shell) (isbg : Bool) (args : List String) :
    (s.doBgfg isbg args).ended = s.ended := by
  have hcases := s.doBgfg_cases isbg args
  generalize s.doBgfg isbg args = t at hcases ⊢
  cases hcases <;> rfl

/-- `builtin_cmd` dereferences `NULL` if and only if there is no argument. -/
theorem builtinCmd_nullDeref (hend : s.ended = none) (argv : List String) (bg : Bool)
    (cmdline : String) :
    (s.builtinCmd argv bg cmdline).ended = some (.nullDeref .builtinCmd) ↔ argv = [] := by
  cases argv with
  | nil => exact iff_of_true rfl rfl
  | cons cmd args =>
    refine iff_of_false (fun h => ?_) (List.cons_ne_nil _ _)
    unfold Shell.builtinCmd at h
    dsimp only at h
    split at h
    · cases h
    split at h
    · cases hend.symm.trans h
    split at h
    · cases hend.symm.trans ((s.doBgfg_ended _ _).symm.trans h)
    split at h
    · cases hend.symm.trans ((s.doBgfg_ended _ _).symm.trans h)
    · cases hend.symm.trans h

/-- **Lines without a command.** A line that ends in a newline and fits is evaluated to an argument
vector, and `builtin_cmd` then dereferences no `NULL` in it exactly if the line has a command. -/
theorem eval_command_iff (harr : array.length = maxline) (hnul : nul ∉ body)
    (hlen : (body ++ ['\n']).length < maxline) (hfew : (words ' ' '\'' body).length < maxargs)
    (hend : s.ended = none) (hidle : s.handler = .idle) (hpc : s.pc = .prompt) :
    ∃ p bg s', eval array (body ++ ['\n']) = some (p, bg) ∧
      exec step s [.command (p.vector.map String.ofList) bg (String.ofList (body ++ ['\n'])),
        .main] = some s' ∧ (s'.ended ≠ some (.nullDeref .builtinCmd) ↔ HasCommand body) := by
  have hnul' : nul ∉ body ++ ['\n'] := by
    rw [List.mem_append, not_or]
    exact ⟨hnul, by decide⟩
  obtain ⟨p, hp, hvector, -⟩ := eval_some harr (by simp) hnul' hlen
    (by rwa [List.dropLast_concat])
  rw [List.dropLast_concat] at hp hvector
  refine ⟨p, _, _, hp, step_command hend hidle hpc _ _ _, ?_⟩
  have hnil := builtinCmd_nullDeref (s := s.goto (.builtinCmd (p.vector.map String.ofList)
    (arguments (words ' ' '\'' body)).2 (String.ofList (body ++ ['\n'])))) hend
    (p.vector.map String.ofList) (arguments (words ' ' '\'' body)).2
    (String.ofList (body ++ ['\n']))
  rw [← arguments_ne_nil, ← hvector, Ne, hnil, List.map_eq_nil_iff]

/-- The line `ls` crashes nothing. -/
theorem eval_command_iff_ls : ∃ p bg s', eval (List.replicate maxline nul) ['l', 's', '\n'] =
    some (p, bg) ∧ exec step (Shell.init false) [.command (p.vector.map String.ofList) bg
      (String.ofList ['l', 's', '\n']), .main] = some s' ∧
    s'.ended ≠ some (.nullDeref .builtinCmd) := by
  obtain ⟨p, bg, s', hp, hs', hiff⟩ := eval_command_iff (s := Shell.init false)
    List.length_replicate (show nul ∉ ['l', 's'] by decide) (by decide) (by decide) rfl rfl rfl
  exact ⟨p, bg, s', hp, hs', hiff.2 ⟨['l', 's'], [], by decide, .inr (by decide)⟩⟩

/-- An empty line. -/
theorem eval_blank : ∃ p bg s', eval (List.replicate maxline nul) ['\n'] = some (p, bg) ∧
    exec step (Shell.init false) [.command (p.vector.map String.ofList) bg (String.ofList ['\n']),
      .main] = some s' ∧ s'.ended = some (.nullDeref .builtinCmd) := by
  obtain ⟨p, hp, hvector, -⟩ := eval_some List.length_replicate (show ['\n'] ≠ [] by decide)
    (by decide) (by decide) (by decide)
  refine ⟨p, _, _, hp, step_command rfl rfl rfl _ _ _, ?_⟩
  rw [hvector]
  rfl

end

/-! ## Lines evaluated once and whole -/

/-- The line without its newline. -/
def chomp (line : List Char) : List Char :=
  if line.getLast? = some '\n' then line.dropLast else line

/-- The arguments of a whole line. -/
def lineArgv (line : List Char) : List (List Char) := (arguments (words ' ' '\'' (chomp line))).1

def isQuit (line : List Char) : Bool := (lineArgv line).head? = some ['q', 'u', 'i', 't']

/-- The lines of the input, up to a `quit`. -/
def inputLines (stdin : List Char) : List (List Char) := through isQuit (lines '\n' stdin)

/-- The lines of the input have each been evaluated to its arguments, and no character of theirs has
been left out or replaced but a newline. -/
structure Evaluates (stdin : List Char) (evs : List (List Char × List (List Char))) : Prop where
  argvs : evs.map Prod.snd = (inputLines stdin).map lineArgv
  whole : (evs.map Prod.fst).flatten = (inputLines stdin).flatten
  /-- `parseline` writes a space over the last character -/
  kept : ∀ ev ∈ evs, ∀ c ∈ ev.1.getLast?, c = '\n' ∨ c = ' '

/-- A line fits: it ends in a newline and has room in the buffer, or is not terminated, fills the
buffer and ends in a space; and its words have room in `argv`. -/
structure Fits (line : List Char) : Prop where
  length : line.length < maxline
  last : line.getLast? = some '\n' ∨ line.length + 1 = maxline ∧ line.getLast? = some ' '
  few : (words ' ' '\'' (chomp line)).length < maxargs

/-- The lines fit, and each but the last has a command. -/
structure InputFits (stdin : List Char) : Prop where
  fits : ∀ line ∈ inputLines stdin, Fits line
  command : ∀ line ∈ (inputLines stdin).dropLast, lineArgv line ≠ []

section
variable {array line stdin rest : List Char} {fuel : Nat}
  {evs : List (List Char × List (List Char))}

/-- What `parseline` makes of a line whose last character is no loss. -/
theorem words_dropLast (h : ∀ c ∈ line.getLast?, c = '\n' ∨ c = ' ') :
    words ' ' '\'' line.dropLast = words ' ' '\'' (chomp line) := by
  rcases List.eq_nil_or_concat line with rfl | ⟨body, c, rfl⟩
  · rfl
  · rw [List.concat_eq_append] at h ⊢
    rw [chomp, List.getLast?_concat, List.dropLast_concat]
    rcases h c List.getLast?_concat with rfl | rfl
    · rw [if_pos rfl]
    · rw [if_neg (by decide), words_concat_sep (by decide)]

/-- No character but a newline or a space is lost of a line that fits. -/
theorem Fits.kept (h : Fits line) : ∀ c ∈ line.getLast?, c = '\n' ∨ c = ' ' := by
  intro c hc
  rw [Option.mem_def] at hc
  rcases h.last with hl | ⟨-, hl⟩
  · exact .inl (Option.some.inj (hc.symm.trans hl))
  · exact .inr (Option.some.inj (hc.symm.trans hl))

/-- A line that fits is not empty. -/
theorem Fits.ne (h : Fits line) : line ≠ [] := by
  rintro rfl
  rcases h.last with hl | ⟨-, hl⟩ <;> cases hl

/-- What is evaluated of a line that fits. -/
theorem Fits.eval (h : Fits line) (harr : array.length = maxline) (hnul : nul ∉ line) :
    ∃ p bg, eval array line = some (p, bg) ∧ p.vector = lineArgv line ∧
      p.array.length = maxline := by
  have hwords := words_dropLast h.kept
  obtain ⟨p, hp, hvector, harr'⟩ := eval_some harr h.ne hnul h.length (hwords ▸ h.few)
  exact ⟨p, _, hp, by rw [hvector, hwords]; rfl, harr'⟩

/-- An input whose lines fit is read line by line. -/
theorem InputFits.gets (h : InputFits stdin) (hne : stdin ≠ []) :
    ∃ line rest, fgets maxline stdin = (line, rest, false) ∧ stdin = line ++ rest ∧ Fits line ∧
      inputLines stdin = if isQuit line then [line] else line :: inputLines rest := by
  rcases lines_cases '\n' stdin with rfl | ⟨u, r, rfl, hu⟩ | ⟨-, hs⟩
  · exact absurd rfl hne
  · have hlines : inputLines (u ++ '\n' :: r) = if isQuit (u ++ ['\n']) then [u ++ ['\n']] else
        (u ++ ['\n']) :: inputLines r := by
      rw [inputLines, lines_ended hu, through]
      rfl
    have hfits : Fits (u ++ ['\n']) := h.fits _ (by rw [hlines]; split <;> simp)
    have hlen := hfits.length
    rw [List.length_append, List.length_singleton] at hlen
    exact ⟨u ++ ['\n'], r, readLine_ended hu (by omega) r, by simp, hfits, hlines⟩
  · have hlines : inputLines stdin = if isQuit stdin then [stdin] else stdin :: inputLines [] := by
      rw [inputLines, lines_last hne hs, through]
      rfl
    have hfits : Fits stdin := h.fits _ (by rw [hlines]; split <;> simp)
    refine ⟨stdin, [], ?_, (List.append_nil _).symm, hfits, hlines⟩
    rcases hfits.last with hl | ⟨hfull, -⟩
    · exact absurd (List.mem_of_getLast? hl) hs
    · have hget := readLine_full hs []
      rw [List.append_nil] at hget
      rw [fgets, ← hfull, Nat.add_sub_cancel, hget]

/-- All but the last of a list with a member in front. -/
theorem mem_dropLast_cons {α : Type*} {a b : α} {l : List α} :
    b ∈ (a :: l).dropLast ↔ l ≠ [] ∧ (b = a ∨ b ∈ l.dropLast) := by
  cases l with
  | nil => simp
  | cons c l => simp [List.dropLast_cons_of_ne_nil]

/-- What comes after a line of an input that fits does. -/
theorem InputFits.tail (h : InputFits stdin) (hlines : inputLines stdin = line :: inputLines rest) :
    InputFits rest := by
  refine ⟨fun l hl => h.fits l ?_, fun l hl => h.command l ?_⟩
  · rw [hlines]
    exact List.mem_cons_of_mem _ hl
  · rw [hlines, mem_dropLast_cons]
    exact ⟨List.ne_nil_of_mem (List.dropLast_subset _ hl), .inr hl⟩

/-- A first line is evaluated, and then the rest. -/
theorem Evaluates.cons (h : Evaluates rest evs) (hfits : Fits line)
    (hlines : inputLines stdin = line :: inputLines rest) :
    Evaluates stdin ((line, lineArgv line) :: evs) where
  argvs := by rw [List.map_cons, h.argvs, hlines, List.map_cons]
  whole := by rw [List.map_cons, List.flatten_cons, h.whole, hlines, List.flatten_cons]
  kept := List.forall_mem_cons.2 ⟨hfits.kept, h.kept⟩

/-- The only line is evaluated. -/
theorem Evaluates.single (hfits : Fits line) (hlines : inputLines stdin = [line]) :
    Evaluates stdin [(line, lineArgv line)] where
  argvs := by rw [hlines]; rfl
  whole := by rw [hlines]; rfl
  kept := List.forall_mem_singleton.2 hfits.kept

/-- **Lines that fit** are evaluated. -/
theorem InputFits.evaluates (h : InputFits stdin) (harr : array.length = maxline)
    (hnul : nul ∉ stdin) (hfuel : stdin.length < fuel) :
    ∃ evs, readEval fuel array stdin = some evs ∧ Evaluates stdin evs := by
  induction fuel generalizing array stdin with
  | zero => exact absurd hfuel (Nat.not_lt_zero _)
  | succ fuel ih =>
    rcases eq_or_ne stdin [] with rfl | hne
    · exact ⟨[], rfl, rfl, rfl, fun _ h => absurd h List.not_mem_nil⟩
    obtain ⟨line, rest, hget, rfl, hfits, hlines⟩ := h.gets hne
    obtain ⟨hnul₁, hnul₂⟩ := not_or.1 (List.mem_append.not.1 hnul)
    obtain ⟨p, bg, hp, hvector, harr'⟩ := hfits.eval harr hnul₁
    rw [readEval, hget]
    dsimp only
    rw [if_neg Bool.false_ne_true, hp]
    dsimp only
    rw [hvector]
    by_cases hq : isQuit line = true
    · have hends : ends (lineArgv line) = true :=
        decide_eq_true (.inr (of_decide_eq_true hq))
      rw [if_pos hends]
      rw [if_pos hq] at hlines
      exact ⟨_, rfl, .single hfits hlines⟩
    · rw [if_neg hq] at hlines
      by_cases hnil : lineArgv line = []
      · have hends : ends (lineArgv line) = true := by rw [hnil]; rfl
        have hlast : inputLines rest = [] := by
          by_contra hmore
          refine h.command line ?_ hnil
          rw [hlines, mem_dropLast_cons]
          exact ⟨hmore, .inl rfl⟩
        rw [if_pos hends]
        rw [hlast] at hlines
        exact ⟨_, rfl, .single hfits hlines⟩
      · have hends : ¬ ends (lineArgv line) = true := fun he =>
          (of_decide_eq_true he).elim hnil fun hquit => hq (decide_eq_true hquit)
        have hpos : 0 < line.length := List.length_pos_iff.2 hfits.ne
        rw [List.length_append] at hfuel
        obtain ⟨evs, hevs, heval⟩ := ih (h.tail hlines) harr' hnul₂ (by omega)
        rw [if_neg hends, hevs]
        exact ⟨_, rfl, heval.cons hfits hlines⟩

/-! ## What is evaluated -/

/-- A piece of the input that `fgets` has taken, with the vector built of it. -/
structure Taken (ev : List Char × List (List Char)) : Prop where
  piece : Piece '\n' ev.1
  length : ev.1.length < maxline
  last : ev.1.getLast? = some '\n' ∨ ev.1.length + 1 = maxline
  few : (words ' ' '\'' ev.1.dropLast).length < maxargs
  argv : ev.2 = (arguments (words ' ' '\'' ev.1.dropLast)).1

/-- A turn of the loop: it is the last one, or a piece is taken and has a command. -/
inductive Turn (fuel : Nat) (stdin : List Char) :
    Option (List (List Char × List (List Char))) → Prop
  | stop : Turn fuel stdin (some [])
  | exit {ev} (ht : Taken ev) : Turn fuel stdin (some [ev])
  | more {ev rest array} (ht : Taken ev) (hcommand : ev.2 ≠ []) (harr : array.length = maxline)
      (hs : stdin = ev.1 ++ rest) :
      Turn fuel stdin ((readEval fuel array rest).map fun evs => ev :: evs)

/-- What is evaluated of a piece. -/
theorem readEval_piece (harr : array.length = maxline) (hnul : nul ∉ stdin)
    (hget : fgets maxline stdin = (line, rest, false)) (hs : stdin = line ++ rest)
    (hpiece : Piece '\n' line) (hlen : line.length < maxline)
    (hlast : line.getLast? = some '\n' ∨ line.length + 1 = maxline) :
    Turn fuel stdin (readEval (fuel + 1) array stdin) := by
  have hnul' : nul ∉ line := fun h => hnul (hs ▸ List.mem_append_left _ h)
  rw [readEval, hget]
  dsimp only
  rw [if_neg Bool.false_ne_true]
  rcases Nat.lt_or_ge (words ' ' '\'' line.dropLast).length maxargs with hfew | hmany
  · obtain ⟨p, hp, hvector, harr'⟩ := eval_some harr hpiece.ne hnul' hlen hfew
    have htaken : Taken (line, p.vector) := ⟨hpiece, hlen, hlast, hfew, hvector⟩
    rw [hp]
    dsimp only
    split
    · exact .exit htaken
    · next hends =>
      exact .more htaken (fun hnil => hends (decide_eq_true (.inl hnil))) harr' hs
  · rw [eval_none harr hpiece.ne hnul' hlen hmany]
    exact .stop

/-- A turn of the loop is one of the three. -/
theorem readEval_turn (harr : array.length = maxline) (hnul : nul ∉ stdin) :
    Turn fuel stdin (readEval (fuel + 1) array stdin) := by
  have hgets := fgets_gets (by decide : 0 < maxline) stdin
  generalize hget : fgets maxline stdin = g at hgets
  cases hgets with
  | @ended u r hu hk =>
    refine readEval_piece harr hnul hget (by simp) ⟨by simp, ?_⟩ ?_ (.inl ?_)
    · rwa [List.dropLast_concat]
    · rwa [List.length_append]
    · exact List.getLast?_concat
  | @full u r hu hk =>
    have hlen : u.length < maxline := Nat.lt_of_succ_le (Nat.le_of_eq hk)
    refine readEval_piece harr hnul hget rfl ⟨?_, ?_⟩ hlen (.inr hk)
    · rintro rfl
      exact absurd hk (by decide)
    · exact fun h => hu (List.dropLast_subset _ h)
  | eof hu hk =>
    rw [readEval, hget]
    exact .stop

/-- What the loop takes in any run. -/
theorem readEval_taken (harr : array.length = maxline) (hnul : nul ∉ stdin)
    (hfuel : stdin.length < fuel) : ∃ evs, readEval fuel array stdin = some evs ∧
      (∀ ev ∈ evs, Taken ev) ∧ ∀ ev ∈ evs.dropLast, ev.2 ≠ [] := by
  induction fuel generalizing array stdin with
  | zero => exact absurd hfuel (Nat.not_lt_zero _)
  | succ fuel ih =>
    have hturn : Turn fuel stdin (readEval (fuel + 1) array stdin) := readEval_turn harr hnul
    generalize readEval (fuel + 1) array stdin = t at hturn ⊢
    cases hturn with
    | stop => exact ⟨[], rfl, by simp, by simp⟩
    | @exit ev ht => exact ⟨[ev], rfl, by simpa using ht, by simp⟩
    | @more ev rest array' ht hcommand harr' hs =>
      subst hs
      have hpos : 0 < ev.1.length := List.length_pos_iff.2 ht.piece.ne
      rw [List.length_append] at hfuel
      obtain ⟨evs, hevs, htaken, hcommands⟩ := ih harr'
        (fun h => hnul (List.mem_append_right _ h)) (by omega)
      rw [hevs]
      refine ⟨ev :: evs, rfl, List.forall_mem_cons.2 ⟨ht, htaken⟩, fun e he => ?_⟩
      rcases mem_dropLast_cons.1 he with ⟨-, rfl | he⟩
      · exact hcommand
      · exact hcommands e he

/-- What is evaluated is the lines where it makes up as many as them. -/
theorem Evaluates.lines (h : Evaluates stdin evs) (htaken : ∀ ev ∈ evs, Taken ev) :
    evs.map Prod.fst = inputLines stdin := by
  have hpieces : ∀ p ∈ evs.map Prod.fst, Piece '\n' p :=
    List.forall_mem_map.2 fun ev hev => (htaken ev hev).piece
  have hlines : Lines.lines '\n' (evs.map Prod.fst).flatten = inputLines stdin := by
    rw [h.whole]
    exact lines_flatten (isPrefix_through _ _)
  have hcount := congrArg List.length h.argvs
  rw [List.length_map, List.length_map] at hcount
  rw [← hlines]
  refine ((pieces_eq hpieces).2 ?_).symm
  rw [hlines, List.length_map, hcount]

/-- **Lines that are evaluated** fit. -/
theorem Evaluates.fits (h : Evaluates stdin evs) (htaken : ∀ ev ∈ evs, Taken ev)
    (hcommand : ∀ ev ∈ evs.dropLast, ev.2 ≠ []) : InputFits stdin := by
  have hlines := h.lines htaken
  refine ⟨?_, ?_⟩
  · rw [← hlines]
    refine List.forall_mem_map.2 fun ev hev => ?_
    obtain ⟨-, hlen, hlast, hfew, -⟩ := htaken ev hev
    have hkept := h.kept ev hev
    rw [words_dropLast hkept] at hfew
    refine ⟨hlen, ?_, hfew⟩
    rcases hlast with hnl | hfull
    · exact .inl hnl
    · have hc := List.getLast?_eq_some_getLast (htaken ev hev).piece.ne
      rcases hkept _ hc with heq | heq
      · exact .inl (heq ▸ hc)
      · exact .inr ⟨hfull, heq ▸ hc⟩
  · rw [← hlines, ← List.map_dropLast]
    refine List.forall_mem_map.2 fun ev hev => ?_
    have hmem := List.dropLast_subset _ hev
    rw [lineArgv, ← words_dropLast (h.kept ev hmem), ← (htaken ev hmem).argv]
    exact hcommand ev hev

/-- **The loop evaluates the lines of its input** once and whole, on any input without a NUL,
exactly if the lines fit. -/
theorem readEval_iff (harr : array.length = maxline) (hnul : nul ∉ stdin) :
    ∃ evs, readEval (stdin.length + 1) array stdin = some evs ∧
      (Evaluates stdin evs ↔ InputFits stdin) := by
  obtain ⟨evs, hevs, htaken, hcommand⟩ := readEval_taken harr hnul (Nat.lt_succ_self _)
  refine ⟨evs, hevs, fun h => h.fits htaken hcommand, fun h => ?_⟩
  obtain ⟨evs', hevs', heval⟩ := h.evaluates harr hnul (Nat.lt_succ_self _)
  obtain rfl : evs = evs' := Option.some.inj (hevs.symm.trans hevs')
  exact heval

/-- Two lines are evaluated, and the third, after `quit`, is not. -/
theorem readEval_iff_quit : ∃ evs,
    readEval 11 (List.replicate maxline nul) ['l', 's', '\n', 'q', 'u', 'i', 't', '\n', 'a', '\n'] =
      some evs ∧ evs.map Prod.snd = [[['l', 's']], [['q', 'u', 'i', 't']]] := by
  obtain ⟨evs, hevs, hiff⟩ := readEval_iff List.length_replicate
    (show nul ∉ ['l', 's', '\n', 'q', 'u', 'i', 't', '\n', 'a', '\n'] by decide)
  have hlines : inputLines ['l', 's', '\n', 'q', 'u', 'i', 't', '\n', 'a', '\n'] =
      [['l', 's', '\n'], ['q', 'u', 'i', 't', '\n']] := by decide
  refine ⟨evs, hevs, (hiff.2 ⟨?_, ?_⟩).argvs.trans (by decide)⟩
  · rw [hlines]
    intro line hline
    rcases List.mem_cons.1 hline with rfl | hline
    · exact ⟨by decide, .inl rfl, by decide⟩
    · obtain rfl := List.mem_singleton.1 hline
      exact ⟨by decide, .inl rfl, by decide⟩
  · rw [hlines]
    intro line hline
    obtain rfl := List.mem_singleton.1 hline
    decide

/-- A last line without a newline is not evaluated, and nothing is after an empty line. -/
theorem readEval_misses :
    (readEval 3 (List.replicate maxline nul) ['l', 's'] = some [] ∧ ¬ Evaluates ['l', 's'] []) ∧
      ∃ evs, readEval 5 (List.replicate maxline nul) ['\n', 'l', 's', '\n'] = some evs ∧
        ¬ Evaluates ['\n', 'l', 's', '\n'] evs := by
  refine ⟨⟨rfl, fun h => ?_⟩, [(['\n'], [])], by decide +kernel, fun h => ?_⟩
  · cases h.argvs
  · cases (List.cons.inj h.argvs).2

end

end Tsh
