import ParchTestbench.Shell.Execute
import ParchTestbench.Shell.Words

/-!
# The shell: built-in commands

`serve_command` compares the front of the line with the names of the built-in commands.
The parser would take the first word of the line instead.

Main results:

- Theorem `dispatch_iff`: the lines on which the two agree.
-/

namespace ParchTestbench

namespace Shell

open ProcM (panic unwrap)
open Splitting

/-! ## The built-in commands -/

/-- `str::strip_prefix`. -/
def stripFront (front cmd : List Char) : Option (List Char) :=
  if front.isPrefixOf cmd then some (cmd.drop front.length) else none

/-- `serve_cd`. -/
def serveCd (cmd : List Char) : ProcM Unit :=
  match stripFront "cd ".toList cmd with
  | none => panic "called `Option::unwrap()` on a `None` value".toList
  | some path => do
      let _ ← chdir (trim path)
      pure ()

/-- `serve_exit`. -/
def serveExit (_cmd : List Char) : ProcM Unit := do
  println "Bye.".toList
  exit 0

/-- `serve_help`. -/
def serveHelp (_cmd : List Char) : ProcM Unit := do
  println "Built-in commands:".toList
  println "\tcd [dir]\t: change current working directory.".toList
  println "\thelp\t: display help message.".toList
  println "\tshutdown\t: shutdown the computer.".toList
  println "\treboot\t: reboot the computer.".toList
  println "\texit\t: exit shell.".toList
  println "\nPlease enter built-in commands, or path to elf file to execute.".toList

/-- Request number 1 to a device, which `serve_shutdown` and `serve_reboot` make. -/
def pokeDevice (path : List Char) : ProcM Unit := do
  let fd ← unwrap (openPath path READ)
  let _ ← ioctl fd 1
  pure ()

/-- `serve_shutdown`. -/
def serveShutdown (_cmd : List Char) : ProcM Unit := pokeDevice "/dev/poweroff".toList

/-- `serve_reboot`. -/
def serveReboot (_cmd : List Char) : ProcM Unit := pokeDevice "/dev/reboot".toList

/-- The functions that serve a line. -/
inductive Handler
  | cd
  | help
  | exit
  | shutdown
  | reboot
  | exec
deriving DecidableEq, Repr

namespace Handler

/-- Run the function on the line. -/
def serve : Handler → List Char → ProcM Unit
  | cd => serveCd
  | help => serveHelp
  | exit => serveExit
  | shutdown => serveShutdown
  | reboot => serveReboot
  | exec => serveExec

end Handler

/-- The ladder of `serve_command`. -/
def handlerOf (cmd : List Char) : Handler :=
  if "cd ".toList.isPrefixOf cmd then .cd
  else if "help".toList.isPrefixOf cmd then .help
  else if "exit".toList.isPrefixOf cmd then .exit
  else if "shutdown".toList.isPrefixOf cmd then .shutdown
  else if "reboot".toList.isPrefixOf cmd then .reboot
  else .exec

/-- `serve_command`. -/
def serveCommand (cmd : List Char) : ProcM Unit := (handlerOf cmd).serve cmd

/-! ## The dispatch by words -/

/-- The names of the built-in commands that take no argument. -/
def builtins : List (List Char × Handler) :=
  [("help".toList, .help), ("exit".toList, .exit), ("shutdown".toList, .shutdown),
    ("reboot".toList, .reboot)]

/-- The function that the words of a line ask for. -/
def wordHandler : List (List Char) → Handler
  | [] => .exec
  | name :: args =>
      if name = "cd".toList ∧ args ≠ [] then .cd else (builtins.lookup name).getD .exec

/-- What follows a name does not belong to its word: a space, or white space up to the first
separator. -/
def EndsWord (rest : List Char) : Prop :=
  (commandPart rest).head? = some ' ' ∨ ∀ c ∈ commandPart rest, isWhitespace c

/-- The lines that the ladder and the words take alike. -/
structure Agreeable (line : List Char) : Prop where
  /-- a name at the front of the line ends there; -/
  ended : ∀ name handler rest, (name, handler) ∈ builtins → line = name ++ rest → EndsWord rest
  /-- `cd ` at the front of the line has an argument; -/
  argued : ∀ rest, line = "cd ".toList ++ rest → ¬ ∀ c ∈ commandPart rest, isWhitespace c
  /-- a line behind white space does not ask for a built-in command. -/
  unindented : ∀ c rest, line = c :: rest → isWhitespace c → wordHandler (lineWords line) = .exec

variable {line w name rest : List Char} {words ws : List (List Char)} {handler : Handler} {c : Char}

/-! ## The ladder -/

theorem handlerOf_cd (rest : List Char) : handlerOf ("cd ".toList ++ rest) = .cd := by
  unfold handlerOf
  rw [if_pos (List.isPrefixOf_iff_prefix.mpr (List.prefix_append _ _))]

theorem handlerOf_builtin (h : (name, handler) ∈ builtins) (rest : List Char) :
    handlerOf (name ++ rest) = handler := by
  unfold builtins at h
  simp only [List.mem_cons, List.not_mem_nil, or_false, Prod.mk.injEq] at h
  rcases h with ⟨rfl, rfl⟩ | ⟨rfl, rfl⟩ | ⟨rfl, rfl⟩ | ⟨rfl, rfl⟩ <;> rfl

/-- A line that starts with none of the names goes to `serve_exec`. -/
theorem handlerOf_exec (hcd : ∀ rest, line ≠ "cd ".toList ++ rest)
    (hnames : ∀ name handler rest, (name, handler) ∈ builtins → line ≠ name ++ rest) :
    handlerOf line = .exec := by
  have hno : ∀ {name : List Char}, (∀ rest, line ≠ name ++ rest) →
      ¬ name.isPrefixOf line = true := by
    intro name hname hprefix
    obtain ⟨rest, hrest⟩ := List.isPrefixOf_iff_prefix.mp hprefix
    exact hname rest hrest.symm
  unfold handlerOf
  rw [if_neg (hno hcd), if_neg (hno fun rest => hnames _ .help rest (by simp [builtins])),
    if_neg (hno fun rest => hnames _ .exit rest (by simp [builtins])),
    if_neg (hno fun rest => hnames _ .shutdown rest (by simp [builtins])),
    if_neg (hno fun rest => hnames _ .reboot rest (by simp [builtins]))]

/-! ## The words -/

theorem builtin_facts (h : (name, handler) ∈ builtins) :
    name ≠ "cd".toList ∧ handler ≠ .cd ∧ handler ≠ .exec ∧ name ≠ [] ∧
      (∀ c ∈ name, isWhitespace c = false) ∧ Unseparated name := by
  simp only [builtins, List.mem_cons, Prod.mk.injEq, List.not_mem_nil, or_false] at h
  rcases h with ⟨rfl, rfl⟩ | ⟨rfl, rfl⟩ | ⟨rfl, rfl⟩ | ⟨rfl, rfl⟩ <;>
    exact ⟨by decide, by decide, by decide, by decide, solid_of_all rfl, by decide⟩

/-- The built-in command that the first word names. -/
theorem wordHandler_eq_iff (h : (name, handler) ∈ builtins) :
    wordHandler words = handler ↔ words.head? = some name := by
  obtain ⟨hname, hcd, hexec, -⟩ := builtin_facts h
  have hunique : ∀ x ∈ builtins, ∀ y ∈ builtins, x.2 = y.2 → x.1 = y.1 := by decide
  have hlookup : ∀ x ∈ builtins, builtins.lookup x.1 = some x.2 := by decide
  rcases words with - | ⟨w, ws⟩
  · exact iff_of_false (fun heq => hexec heq.symm) (fun heq => by cases heq)
  rw [wordHandler, List.head?_cons, Option.some_inj]
  by_cases hw : w = "cd".toList ∧ ws ≠ []
  · rw [if_pos hw]
    exact iff_of_false (fun heq => hcd heq.symm) (fun heq => hname (heq.symm.trans hw.1))
  · rw [if_neg hw]
    constructor
    · intro heq
      rcases hfound : builtins.lookup w with - | handler'
      · rw [hfound] at heq
        exact absurd heq.symm hexec
      · rw [hfound] at heq
        obtain ⟨l₁, l₂, hsplit, -⟩ := List.lookup_eq_some_iff.mp hfound
        exact hunique _ (hsplit ▸ List.mem_append_right _ List.mem_cons_self) _ h heq
    · rintro rfl
      rw [hlookup _ h]
      rfl

/-- Only the names of built-in commands ask for them. -/
theorem exists_of_wordHandler (h : wordHandler (w :: ws) ≠ .exec) :
    (w = "cd".toList ∧ ws ≠ []) ∨ ∃ handler, (w, handler) ∈ builtins := by
  rw [wordHandler] at h
  by_cases hw : w = "cd".toList ∧ ws ≠ []
  · exact Or.inl hw
  · rw [if_neg hw] at h
    rcases hfound : builtins.lookup w with - | handler
    · rw [hfound] at h
      exact absurd rfl h
    · obtain ⟨l₁, l₂, hsplit, -⟩ := List.lookup_eq_some_iff.mp hfound
      exact Or.inr ⟨handler, hsplit ▸ List.mem_append_right _ List.mem_cons_self⟩

/-- The words of a line that starts with a word. -/
theorem lineWords_append (hw : w ≠ []) (hsolid : ∀ c ∈ w, isWhitespace c = false)
    (hplain : Unseparated w) (rest : List Char) :
    lineWords (w ++ rest) = pieces ' ' (w ++ (commandPart rest).rdropWhile isWhitespace) := by
  have hpart : commandPart (w ++ rest) = w ++ commandPart rest :=
    List.takeWhile_append_of_pos fun c hc => decide_eq_true (hplain c hc)
  rw [lineWords, hpart]
  exact congrArg (pieces ' ') (strip_append_of_solid hw hsolid)

theorem space_notMem (hsolid : ∀ c ∈ w, isWhitespace c = false) : ' ' ∉ w := fun hmem => by
  have hspace := hsolid ' ' hmem
  cases hspace

/-- A word ends where the blanks at the end of the command begin, or at a space. -/
theorem endsWord_iff (rest : List Char) : EndsWord rest ↔
    (commandPart rest).rdropWhile isWhitespace = [] ∨
      ((commandPart rest).rdropWhile isWhitespace).head? = some ' ' := by
  unfold EndsWord
  rw [← List.rdropWhile_eq_nil_iff (p := isWhitespace), or_comm]
  refine or_congr_right' fun hne => ?_
  obtain ⟨tail, htail⟩ := List.rdropWhile_prefix isWhitespace (l := commandPart rest)
  rw [← List.head?_append_of_ne_nil _ hne, htail]

/-- The first word of a line is the name that it starts with, where that ends. -/
theorem head?_lineWords (h : (name, handler) ∈ builtins) (rest : List Char) :
    (lineWords (name ++ rest)).head? = some name ↔ EndsWord rest := by
  obtain ⟨-, -, -, hne, hsolid, hplain⟩ := builtin_facts h
  rw [lineWords_append hne hsolid hplain, head?_pieces_append (space_notMem hsolid) hne,
    endsWord_iff]

/-- The words of a line that starts with `cd `. -/
theorem exists_lineWords_cd (rest : List Char) :
    ∃ args, lineWords ("cd ".toList ++ rest) = "cd".toList :: args ∧
      (args = [] ↔ ∀ c ∈ commandPart rest, isWhitespace c) := by
  have hpart : commandPart (' ' :: rest) = ' ' :: commandPart rest :=
    List.takeWhile_cons_of_pos (by decide)
  have hends : EndsWord (' ' :: rest) := Or.inl (by rw [hpart]; rfl)
  refine ⟨pieces ' ' ((commandPart (' ' :: rest)).rdropWhile isWhitespace), ?_, ?_⟩
  · rw [show "cd ".toList ++ rest = "cd".toList ++ ' ' :: rest from rfl,
      lineWords_append (by decide) (solid_of_all rfl) (by decide),
      pieces_append_of_ended (by decide) (by decide) ((endsWord_iff _).mp hends)]
  · rw [pieces_rdropWhile_eq_nil_iff rfl, hpart, List.forall_mem_cons]
    exact and_iff_right rfl

/-- A line that does not start with white space starts with its first word, and with a space
behind that if there are more. -/
theorem lineWords_prefix (hc : isWhitespace c = false)
    (hwords : lineWords (c :: rest) = w :: ws) :
    w <+: c :: rest ∧ (ws ≠ [] → w ++ [' '] <+: c :: rest) := by
  by_cases hsep : IsSeparator c
  · have hnil : commandPart (c :: rest) = [] := List.takeWhile_cons_of_neg (by simpa using hsep)
    rw [lineWords, hnil] at hwords
    cases hwords
  have hplain : Unseparated [c] := fun d hd => by rwa [List.mem_singleton.mp hd]
  have hsolid : ∀ d ∈ [c], isWhitespace d = false := fun d hd => by rwa [List.mem_singleton.mp hd]
  have hne : c ≠ ' ' := fun heq => by
    rw [heq] at hc
    cases hc
  obtain ⟨tail, htail⟩ := List.rdropWhile_prefix isWhitespace (l := commandPart rest)
  obtain ⟨tail', htail'⟩ := List.takeWhile_prefix (l := rest) fun c => decide ¬ IsSeparator c
  have hprefix : c :: (commandPart rest).rdropWhile isWhitespace <+: c :: rest :=
    ⟨tail ++ tail', by rw [List.cons_append, ← List.append_assoc, htail]; exact congrArg _ htail'⟩
  have hline := lineWords_append (by simp) hsolid hplain rest
  rw [List.singleton_append, List.singleton_append, hwords, pieces_cons_of_ne hne,
    List.cons.injEq] at hline
  obtain ⟨rfl, rfl⟩ := hline
  refine ⟨(List.takeWhile_prefix _).trans hprefix, fun hmore => ?_⟩
  rcases takeWhile_cases (fun b => decide (b ≠ ' '))
    (c :: (commandPart rest).rdropWhile isWhitespace) with ⟨hdrop, -⟩ | ⟨b, t, -, hb, hall⟩
  · rw [hdrop] at hmore
    exact absurd pieces_nil hmore
  · have heq : b = ' ' := by simpa using hb
    rw [heq] at hall
    refine List.IsPrefix.trans ⟨t, ?_⟩ hprefix
    rw [List.append_assoc, List.singleton_append, hall]

/-! ## The two dispatches -/

/-- The ladder and the words agree exactly on these lines. -/
theorem dispatch_iff (line : List Char) :
    handlerOf line = wordHandler (lineWords line) ↔ Agreeable line := by
  constructor
  · intro hagree
    refine ⟨fun name handler rest hmem heq => ?_, fun rest heq hblank => ?_,
      fun c rest heq hc => ?_⟩
    · subst heq
      rw [handlerOf_builtin hmem, eq_comm, wordHandler_eq_iff hmem, head?_lineWords hmem] at hagree
      exact hagree
    · subst heq
      obtain ⟨args, hwords, hargs⟩ := exists_lineWords_cd rest
      rw [handlerOf_cd, hwords, hargs.mpr hblank] at hagree
      cases hagree
    · subst heq
      rw [← hagree]
      refine handlerOf_exec (fun tail htail => ?_) fun name handler tail hmem htail => ?_
      · rw [(List.cons.inj htail).1] at hc
        cases hc
      · obtain ⟨-, -, -, hne, hsolid, -⟩ := builtin_facts hmem
        rcases name with - | ⟨d, ds⟩
        · exact hne rfl
        · rw [(List.cons.inj htail).1, hsolid d List.mem_cons_self] at hc
          cases hc
  · rintro ⟨hended, hargued, hunindented⟩
    by_cases hcd : ∃ rest, line = "cd ".toList ++ rest
    · obtain ⟨rest, rfl⟩ := hcd
      obtain ⟨args, hwords, hargs⟩ := exists_lineWords_cd rest
      have hne : args ≠ [] := fun h => hargued rest rfl (hargs.mp h)
      rw [handlerOf_cd, hwords, wordHandler, if_pos ⟨rfl, hne⟩]
    by_cases hname : ∃ name handler rest, (name, handler) ∈ builtins ∧ line = name ++ rest
    · obtain ⟨name, handler, rest, hmem, rfl⟩ := hname
      rw [handlerOf_builtin hmem, eq_comm, wordHandler_eq_iff hmem, head?_lineWords hmem]
      exact hended name handler rest hmem rfl
    · have hnocd : ∀ rest, line ≠ "cd ".toList ++ rest := fun rest h => hcd ⟨rest, h⟩
      have hnoname : ∀ name handler rest, (name, handler) ∈ builtins → line ≠ name ++ rest :=
        fun name handler rest hmem h => hname ⟨name, handler, rest, hmem, h⟩
      rw [handlerOf_exec hnocd hnoname]
      rcases line with - | ⟨c, rest⟩
      · rfl
      by_cases hc : isWhitespace c
      · exact (hunindented c rest rfl hc).symm
      · rcases hwords : lineWords (c :: rest) with - | ⟨w, ws⟩
        · rfl
        · obtain ⟨⟨tail, htail⟩, hmore⟩ := lineWords_prefix (Bool.eq_false_iff.mpr hc) hwords
          by_contra hne
          rcases exists_of_wordHandler (Ne.symm hne) with ⟨rfl, hargs⟩ | ⟨handler, hmem⟩
          · obtain ⟨tail', htail'⟩ := hmore hargs
            exact hnocd tail' htail'.symm
          · exact hnoname w handler tail hmem htail.symm

/-- The line `helper` is served as `help`, though its only word is another. -/
theorem not_dispatched :
    lineWords "helper".toList = ["helper".toList] ∧
      handlerOf "helper".toList ≠ wordHandler (lineWords "helper".toList) := by
  decide

end Shell

end ParchTestbench
