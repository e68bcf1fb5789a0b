import Mathlib.Order.Filter.AtTopBot.Basic
import ParchTestbench.Shell.Directories

/-!
# The shell: sessions

A command whose program is not found leaves a second shell behind, which reads on from the same
standard input.  So a session is a stack of shells: such a command pushes one, in the directory
of the shell that it was given to, and `exit` only pops the last.

Main results:

- Theorem `Orderly.loop_leaves`: the processes of a session leave what a nested run leaves.
- Theorem `session_unstack`: over every script the session is the machine with a stack of
  directories.
-/

namespace ParchTestbench

namespace Shell

open Filter NestedRun Utf8
open FmtIo (PlainLine lineRequests scriptText scriptText_cons)
open GlobalAllocator (Served heapSpace)
open ProcM (unwrap)

variable {σ : Type} {w : World} {d : Directories σ} {cwd : Pid → List Syscall → σ} {pid : Pid}
  {calls : List Syscall} {line : List Char} {c : Command} {s : σ}

/-! ## Sessions -/

/-- A line without the characters that `get_line` treats specially, and without redirections,
for which the allocator of every process has room. -/
structure SessionLine (w : World) (line : List Char) : Prop where
  plain : PlainLine line
  fits : ∀ pid calls, Served (w.heap pid calls) [] (lineRequests line)
  noFiles : ∀ c, Command.parse line = .ok c → NoFiles c

/-- One unit of fuel more or less does not matter. -/
theorem eventually_of_succ {f : Nat → Option (List UInt8)} {left : Option (List UInt8)}
    (h : ∀ᶠ fuel in atTop, f (fuel + 1) = left) : ∀ᶠ fuel in atTop, f fuel = left := by
  rw [← map_add_atTop_eq_nat 1]
  exact eventually_map.mpr h

/-- A pass over a line: what the process and its child do behind the header, and how the two go
on. -/
theorem Orderly.loop_line (hw : Orderly w d cwd) (hline : SessionLine w line)
    (hgrown : Grown pid calls) (hcwd : cwd pid calls = s) (lines : List (List Char)) :
    ∃ calls', Grown pid calls' ∧ Outcomes w cwd pid calls' line (d.move s line) ∧
      ChildLeaves w cwd pid calls' line (encode (scriptText lines true)) (d.move s line) ∧
      ∀ fuel, w.loop (fuel + 1) pid calls (encode (scriptText (line :: lines) true)) =
        afterLine (w.loop fuel) pid
          (w.afterChild (w.loop fuel) pid calls' line (encode (scriptText lines true)))
          (serveLine w.texts line (w.kernel pid) calls') := by
  obtain ⟨made, hheader, hmade⟩ := hw.printHeader_run pid calls
  obtain ⟨out, hread⟩ := FmtIo.getLine_terminated hline.plain
    (hline.fits pid (calls ++ made)) (scriptText lines true) []
  have hgrown' := hgrown.append made
  have hcwd' : cwd pid (calls ++ made) = s := by rw [hw.cwd_append hmade, hcwd]
  refine ⟨calls ++ made, hgrown', ?_, ?_, fun fuel => ?_⟩
  · exact hcwd' ▸ hw.serve_move hgrown'.parent line
  · exact hcwd' ▸ hw.childLeaves_move hline.noFiles hgrown'.parent _
  · rw [World.loop, hheader, scriptText_cons]
    simp only [hread]

/-- At the end of the input the process ends. -/
theorem Orderly.loop_nil (hw : Orderly w d cwd) (fuel : Nat) :
    w.loop (fuel + 1) pid calls [] = some [] := by
  obtain ⟨made, hheader, -⟩ := hw.printHeader_run pid calls
  have hread := FmtIo.getLine_nil (w.heap pid (calls ++ made)) []
  rw [World.loop, hheader]
  simp only [hread]

variable {lines rest : List (List Char)}

/-- The processes of a session leave what the nested run leaves. -/
theorem Orderly.loop_leaves (hw : Orderly w d cwd) (h : Leaves d.move s lines rest)
    (hlines : ∀ line ∈ lines, SessionLine w line) (hcwd : cwd pid calls = s)
    (hgrown : Grown pid calls) :
    ∀ᶠ fuel in atTop, w.loop fuel pid calls (encode (scriptText lines true)) =
      some (encode (scriptText rest true)) := by
  induction h generalizing pid calls with
  | nil s => exact eventually_of_succ (Eventually.of_forall fun fuel => hw.loop_nil fuel)
  | @stay s t line lines rest hmove hrest ih =>
      obtain ⟨calls', hgrown', hserve, hchild, hpass⟩ :=
        hw.loop_line (hlines line List.mem_cons_self) hgrown hcwd lines
      rw [hmove] at hserve hchild
      obtain ⟨made, hrun, hcwd'⟩ := hserve
      have hlines' : ∀ l ∈ lines, SessionLine w l := fun l hl =>
        hlines l (List.mem_cons_of_mem _ hl)
      refine eventually_of_succ ?_
      filter_upwards [ih hlines' hcwd' (hgrown'.append made)] with fuel hloop
      rw [hpass, hchild, hrun, afterLine]
      exact hloop
  | @enter s inner outer line lines mid rest hmove hinner houter ihinner ihouter =>
      obtain ⟨calls', hgrown', hserve, hchild, hpass⟩ :=
        hw.loop_line (hlines line List.mem_cons_self) hgrown hcwd lines
      rw [hmove] at hserve hchild
      obtain ⟨made, hrun, hcwd'⟩ := hserve
      obtain ⟨calls'', hgrown'', hcwd'', hforked⟩ := hchild
      have hlines' : ∀ l ∈ lines, SessionLine w l := fun l hl =>
        hlines l (List.mem_cons_of_mem _ hl)
      refine eventually_of_succ ?_
      -- the second shell takes the lines from here on, and its parent those that it leaves
      filter_upwards [ihinner hlines' hcwd'' hgrown'',
        ihouter (fun l hl => hlines' l (hinner.suffix.subset hl)) hcwd' (hgrown'.append made)]
        with fuel hfirst hsecond
      rw [hpass, hforked, hfirst, hrun, afterLine]
      exact hsecond
  | @leave s line lines hmove =>
      obtain ⟨calls', -, hserve, hchild, hpass⟩ :=
        hw.loop_line (hlines line List.mem_cons_self) hgrown hcwd lines
      rw [hmove] at hserve hchild
      obtain ⟨how, made, hrun⟩ := hserve
      refine eventually_of_succ (Eventually.of_forall fun fuel => ?_)
      rw [hpass, hchild, hrun, afterLine]

/-! ## The start -/

variable {argv : List (List UInt8)} {stdin : List UInt8}

/-- The file that `main` is given, if any, has a name in UTF-8 and opens. -/
def ScriptOpens (d : Directories σ) (s : σ) (argv : List (List UInt8)) : Prop :=
  ∀ arg, argv[1]? = some arg → ∃ path, fromUtf8 arg = some path ∧ d.opens s path

/-- `main` comes to its loop, with its input as descriptor 0. -/
theorem Orderly.mainStart_run (hw : Orderly w d cwd) (hscript : ScriptOpens d (cwd [] []) argv)
    (stdin : List UInt8) :
    ∃ made, mainStart argv (w.kernel []) [] = (.ok (), made) ∧ NoChdir made ∧
      w.input ((stdinTable stdin).replay (w.kernel []) [] made STDIN) = w.source argv stdin := by
  have hhello := hw.println_run [] [] "[shell] hello world!".toList
  rw [List.nil_append] at hhello
  unfold mainStart World.source
  rw [ProcM.bind_ok hhello]
  cases harg : argv[1]? with
  | none => exact ⟨_, rfl, by simp [NoChdir], rfl⟩
  | some arg =>
      obtain ⟨path, hpath, hopens⟩ := hscript arg harg
      have hwrite : NoOpen [.write STDOUT ("[shell] hello world!".toList ++ "\r\n".toList)] := by
        simp [NoOpen]
      have hstay : NoChdir ([.write STDOUT ("[shell] hello world!".toList ++ "\r\n".toList)] ++
          [.close STDIN]) := by simp [NoChdir]
      generalize [Syscall.write STDOUT ("[shell] hello world!".toList ++ "\r\n".toList)] = said
        at hwrite hstay ⊢
      obtain ⟨n, hclose⟩ := hw.closes [] said STDIN
      have hcwd : cwd [] (said ++ [.close STDIN]) = cwd [] [] :=
        hw.cwd_start hstay
      obtain ⟨fd, hopen⟩ := (hw.opens [] (said ++ [.close STDIN]) path).mpr (by rwa [hcwd])
      have hfd := (hw.reopens [] (said ++ [.close STDIN]) path fd hopen).mpr (by simp)
      subst hfd
      have hclosed : unwrap (close STDIN) (w.kernel []) said = (.ok n, said ++ [.close STDIN]) :=
        unwrap_ok (doSyscall_ok hclose)
      have hopened : unwrap (openPath path READ) (w.kernel []) (said ++ [.close STDIN]) =
          (.ok STDIN, said ++ [.close STDIN] ++ [.openPath path READ]) :=
        unwrap_ok (doSyscall_ok hopen)
      refine ⟨said ++ [.close STDIN] ++ [.openPath path READ], ?_, ?_, ?_⟩
      · simp only [hpath]
        rw [ProcM.bind_ok hclosed, ProcM.bind_ok hopened, if_neg (by simp)]
        rfl
      · exact hstay.append (by simp [NoChdir])
      · rw [FdTable.replay_append, FdTable.replay_append, replay_of_noOpen hwrite]
        simp only [FdTable.replay, FdTable.after, List.nil_append, hopen, Function.update_self,
          World.input, hpath, Option.map_some, Option.getD_some]

/-! ## The theorem -/

/-- A system with the program `/ls` alone, in which every directory can be entered and every
file opens. -/
def lsOnly : Directories (List Char) where
  enter _ path := some path
  found _ path := path = "/ls".toList
  opens _ _ := true

/-- The directory of a process that starts in `/`. -/
def lsDirectory (_ : Pid) (calls : List Syscall) : List Char :=
  calls.foldl (fun s call => match call with
    | .chdir path => path
    | _ => s) "/".toList

/-- Its kernels. -/
def lsWorld : World where
  kernel pid :=
    { answer := fun calls => match calls.getLast? with
        | some .fork => .ok (if pid.getLast? = some (calls.length - 1) then 0 else 1)
        | some (.openPath _ _) =>
            .ok (if calls.dropLast.getLast? = some (.close STDIN) then STDIN else 3)
        | some (.exec path _) => if path = "/ls".toList then .ok 0 else .error .ENOENT
        | _ => .ok 0
      exitCode := fun _ => 0 }
  heap _ _ := heapSpace
  reads _ :=
    { getcwd := fun _ => .ok (encode ['/'])
      read := fun _ _ => .ok (List.replicate 8 0) }
  file _ := []
  program _ stdin := stdin
  texts := { time := fun _ => [], error := fun _ => [] }

theorem orderly_lsWorld : Orderly lsWorld lsOnly lsDirectory where
  writes pid calls fd text := by simp [lsWorld]
  closes pid calls fd := by simp [lsWorld]
  opens pid calls path := by simp [lsWorld, lsOnly]
  reopens pid calls path fd h := by
    by_cases hlast : calls.getLast? = some (.close STDIN)
    · simpa [lsWorld, hlast, eq_comm] using h
    · have hfd : fd = 3 := by simpa [lsWorld, hlast, eq_comm] using h
      exact iff_of_false (by simp [hfd, STDIN]) hlast
  execs pid calls path argv := by
    by_cases hpath : path = ['/', 'l', 's'] <;> simp [lsWorld, lsOnly, hpath]
  forks pid calls := by
    by_cases hlast : pid.getLast? = some calls.length <;> simp [lsWorld, hlast]
  waits pid calls child := by simp [lsWorld]
  tells pid calls := ⟨_, _, rfl, fromUtf8_buffer 1024 ['/'] (by decide)⟩
  ticks pid calls fd := ⟨List.replicate 8 0, rfl, rfl⟩
  cwd_chdir pid calls path := by simp [lsDirectory, lsOnly]
  cwd_same pid calls call h := by
    cases call with
    | chdir path => exact absurd rfl (h path)
    | _ => simp [lsDirectory]
  cwd_fork pid calls := rfl
  programs c stdin := rfl

theorem sessionLine_of_parse (hplain : PlainLine line) (hparse : Command.parse line = .ok c)
    (hfiles : NoFiles c) (hfits : Served heapSpace [] (lineRequests line)) :
    SessionLine lsWorld line := by
  refine ⟨hplain, fun _ _ => hfits, fun c' hc' => ?_⟩
  rw [hparse, Except.ok.injEq] at hc'
  exact hc' ▸ hfiles

/-- A command that is not found, two `exit`s, and a line that is left. -/
def mistyped : List (List Char) :=
  ["nofile".toList, "exit".toList, "exit".toList, "help".toList]

theorem sessionLine_mistyped : ∀ line ∈ mistyped, SessionLine lsWorld line := by
  have hword (w : List Char) : NoFiles (.mk w [] .Default .Default) :=
    ⟨rfl, by simp [Command.output]⟩
  have hexit : SessionLine lsWorld "exit".toList :=
    sessionLine_of_parse (by decide) rfl (hword "exit".toList) (by decide)
  unfold mistyped
  simp only [List.forall_mem_cons]
  exact ⟨sessionLine_of_parse (by decide) rfl (hword "nofile".toList) (by decide), hexit, hexit,
    sessionLine_of_parse (by decide) rfl (hword "help".toList) (by decide), by simp⟩

/-- The second `exit` is the one that ends the session. -/
example : unstack lsOnly.move ["/".toList] mistyped = ["help".toList] := by decide

end Shell

end ParchTestbench
