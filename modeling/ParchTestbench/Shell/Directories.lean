import ParchTestbench.Machine.NestedRun
import ParchTestbench.Shell.MainLoop

/-!
# The shell: lines and directories

A line changes the directory of the shell that reads it, ends the shell, or leaves a second
shell behind: the child of a command whose program is not found.

Main results:

- Theorem `Orderly.serve_move`: what a line does to the process that reads it.
- Theorem `Orderly.childLeaves_move`: what its child leaves of the standard input.
-/

namespace ParchTestbench

namespace Shell

open NestedRun
open ProcM (fail panic unwrap)

variable {σ : Type}

/-! ## The machine -/

/-- A file system during a session, by the directory of a process: where `chdir` leads, which
programs `exec` finds, and which files open for reading. -/
structure Directories (σ : Type) where
  enter : σ → List Char → Option σ
  found : σ → List Char → Bool
  opens : σ → List Char → Bool

/-- A request to a device, which fails to stop the machine, or cannot be made. -/
def Directories.device (d : Directories σ) (s : σ) (path : List Char) : Move σ :=
  if d.opens s path then .stay s else .leave

/-- A command, which runs, or leaves a second shell behind. -/
def Directories.command (d : Directories σ) (s : σ) : Except ParseFailure Command → Move σ
  | .ok c => if d.found s c.execPath then .stay s else .enter s s
  | .error .panic => .leave
  | .error _ => .stay s

/-- What a line does to the shell in directory `s` that reads it. -/
def Directories.move (d : Directories σ) (s : σ) (line : List Char) : Move σ :=
  match handlerOf line with
  | .cd => .stay ((d.enter s (trim (line.drop 3))).getD s)
  | .help => .stay s
  | .exit => .leave
  | .shutdown => d.device s "/dev/poweroff".toList
  | .reboot => d.device s "/dev/reboot".toList
  | .exec => d.command s (Command.parse line)

/-- The kernels of a session keep to the file system: `cwd` is the directory of a process after
its calls.  The console can be written to, `fork` returns 0 in the child and in no other
process, `waitpid` comes back when the child has ended, `open` takes descriptor 0 just when that
has been closed, the directory and the clock can be read, and the programs that are run leave
the standard input alone. -/
structure Orderly (w : World) (d : Directories σ) (cwd : Pid → List Syscall → σ) : Prop where
  writes : ∀ pid calls fd text, ∃ n, (w.kernel pid).answer (calls ++ [.write fd text]) = .ok n
  closes : ∀ pid calls fd, ∃ n, (w.kernel pid).answer (calls ++ [.close fd]) = .ok n
  opens : ∀ pid calls path, (∃ fd, (w.kernel pid).answer (calls ++ [.openPath path READ]) =
    .ok fd) ↔ d.opens (cwd pid calls) path
  reopens : ∀ pid calls path fd, (w.kernel pid).answer (calls ++ [.openPath path READ]) =
    .ok fd → (fd = STDIN ↔ calls.getLast? = some (.close STDIN))
  execs : ∀ pid calls path argv, (∃ n, (w.kernel pid).answer (calls ++ [.exec path argv]) =
    .ok n) ↔ d.found (cwd pid calls) path
  forks : ∀ pid calls, ∃ n, (w.kernel pid).answer (calls ++ [.fork]) = .ok n ∧
    (n = 0 ↔ pid.getLast? = some calls.length)
  waits : ∀ pid calls child, ∃ n, (w.kernel pid).answer (calls ++ [.waitpid child]) = .ok n
  tells : ∀ pid calls, ∃ bytes text, (w.reads pid).getcwd calls = .ok bytes ∧
    fromUtf8 (buffer 1024 bytes) = some text
  ticks : ∀ pid calls fd, ∃ bytes, (w.reads pid).read calls fd = .ok bytes ∧ bytes.length = 8
  cwd_chdir : ∀ pid calls path, cwd pid (calls ++ [.chdir path]) =
    (d.enter (cwd pid calls) path).getD (cwd pid calls)
  cwd_same : ∀ pid calls call, (∀ path, call ≠ .chdir path) →
    cwd pid (calls ++ [call]) = cwd pid calls
  cwd_fork : ∀ pid calls, cwd (pid ++ [calls.length]) calls = cwd pid calls
  programs : ∀ c stdin, w.program c stdin = stdin

/-- The command redirects neither its input nor its output to a file. -/
def NoFiles (c : Command) : Prop := c.input = .Default ∧ ∀ path, c.output ≠ .File path

variable {w : World} {d : Directories σ} {cwd : Pid → List Syscall → σ} {pid : Pid}
  {calls made : List Syscall} {line : List Char} {c : Command} {s t : σ} {num : ErrorNum}

/-! ## Calls that change no directory and no descriptor -/

/-- None of the calls changes the directory. -/
def NoChdir (made : List Syscall) : Prop := ∀ path, .chdir path ∉ made

/-- The directory is that in front of the calls. -/
theorem Orderly.cwd_append (hw : Orderly w d cwd) (h : NoChdir made) :
    cwd pid (calls ++ made) = cwd pid calls := by
  induction made generalizing calls with
  | nil => simp
  | cons call made ih =>
      have hhead : cwd pid (calls ++ [call]) = cwd pid calls :=
        hw.cwd_same pid calls call fun path heq => h path (by simp [heq])
      have htail : NoChdir made := fun path hmem => h path (List.mem_cons_of_mem _ hmem)
      rw [List.append_cons, ih htail, hhead]

theorem Orderly.cwd_start (hw : Orderly w d cwd) (h : NoChdir made) :
    cwd pid made = cwd pid [] := by
  rw [← List.nil_append made, hw.cwd_append h]

/-- Printing in pieces makes one call for each. -/
theorem Orderly.printPieces_run (hw : Orderly w d cwd) (pid : Pid) (calls : List Syscall)
    (pieces : List (List Char)) :
    printPieces pieces (w.kernel pid) calls = (.ok (), calls ++ pieces.map (.write STDOUT)) := by
  induction pieces generalizing calls with
  | nil =>
      rw [List.map_nil, List.append_nil]
      rfl
  | cons piece pieces ih =>
      obtain ⟨n, hn⟩ := hw.writes pid calls STDOUT piece
      rw [printPieces]
      simp only [doSyscall_ok hn]
      rw [ih, List.map_cons, ← List.append_cons]

theorem Orderly.println_run (hw : Orderly w d cwd) (pid : Pid) (calls : List Syscall)
    (text : List Char) :
    println text (w.kernel pid) calls =
      (.ok (), calls ++ [.write STDOUT (text ++ "\r\n".toList)]) :=
  hw.printPieces_run pid calls [text ++ "\r\n".toList]

theorem noChdir_writes (pieces : List (List Char)) : NoChdir (pieces.map (.write STDOUT)) := by
  simp [NoChdir]

theorem NoChdir.append {made' : List Syscall} (h : NoChdir made) (h' : NoChdir made') :
    NoChdir (made ++ made') := by
  intro path hmem
  exact (List.mem_append.mp hmem).elim (h path) (h' path)

/-! ## The header -/

/-- The clock is read and its device closed. -/
theorem Orderly.printTime_run (hw : Orderly w d cwd) (pid : Pid) (calls : List Syscall)
    (fd : Nat) :
    ∃ made, printTime w.texts (w.reads pid) fd (w.kernel pid) calls = (.ok (), calls ++ made) ∧
      NoChdir made := by
  obtain ⟨bytes, hread, hlength⟩ := hw.ticks pid calls fd
  obtain ⟨n, hclose⟩ := hw.closes pid calls fd
  have hword : readWord (w.reads pid) fd (w.kernel pid) calls =
      (.ok (8, buffer 8 bytes), calls) := by
    rw [readWord, hread, ← hlength]
  have hclosed : unwrap (close fd) (w.kernel pid) calls = (.ok n, calls ++ [.close fd]) :=
    unwrap_ok (doSyscall_ok hclose)
  refine ⟨[.close fd] ++ [" ".toList, w.texts.time (fromLeBytes (buffer 8 bytes)),
    " $ ".toList].map (.write STDOUT), ?_, by simp [NoChdir]⟩
  rw [printTime, ProcM.bind_ok (unwrap_ok hword)]
  show (if (8 : Nat) ≠ 8 then _ else _ : ProcM Unit) (w.kernel pid) calls = _
  rw [if_neg (by simp), ProcM.bind_ok hclosed, hw.printPieces_run, List.append_assoc]

theorem Orderly.printClock_run (hw : Orderly w d cwd) (pid : Pid) (calls : List Syscall) :
    ∃ made, printClock w.texts (w.reads pid) (w.kernel pid) calls = (.ok (), calls ++ made) ∧
      NoChdir made := by
  have hopens : NoChdir [.openPath "/dev/rtc@101000".toList READ] := by simp [NoChdir]
  unfold printClock
  rcases hopen : (w.kernel pid).answer
    (calls ++ [.openPath "/dev/rtc@101000".toList READ]) with num | fd
  · refine ⟨_, ?_, hopens.append (noChdir_writes [" $ ".toList])⟩
    simp only [openPath, doSyscall_error hopen]
    rw [hw.printPieces_run, List.append_assoc]
  · obtain ⟨made, hrun, hmade⟩ := hw.printTime_run pid
      (calls ++ [.openPath "/dev/rtc@101000".toList READ]) fd
    refine ⟨_, ?_, hopens.append hmade⟩
    simp only [openPath, doSyscall_ok hopen]
    rw [hrun, List.append_assoc]

/-- The header is printed. -/
theorem Orderly.printHeader_run (hw : Orderly w d cwd) (pid : Pid) (calls : List Syscall) :
    ∃ made, printHeader w.texts (w.reads pid) (w.kernel pid) calls = (.ok (), calls ++ made) ∧
      NoChdir made := by
  obtain ⟨bytes, text, hread, htext⟩ := hw.tells pid calls
  have hcwd : getcwd (w.reads pid) (w.kernel pid) calls = (.ok text, calls) :=
    getcwd_ok hread htext
  obtain ⟨made, hclock, hmade⟩ := hw.printClock_run pid
    (calls ++ ["[ ".toList, text, " ]".toList].map (.write STDOUT))
  refine ⟨_, ?_, (noChdir_writes ["[ ".toList, text, " ]".toList]).append hmade⟩
  rw [printHeader, ProcM.bind_ok (unwrap_ok hcwd), ProcM.bind_ok (hw.printPieces_run _ _ _), hclock,
    List.append_assoc]

/-! ## Serving a line -/

/-- Serving the line leaves the process in directory `t`. -/
def ServedInto (w : World) (cwd : Pid → List Syscall → σ) (pid : Pid) (calls : List Syscall)
    (line : List Char) (t : σ) : Prop :=
  ∃ made, serveLine w.texts line (w.kernel pid) calls = (.ok (), calls ++ made) ∧
    cwd pid (calls ++ made) = t

/-- Serving the line ends the process. -/
def EndsOn (w : World) (pid : Pid) (calls : List Syscall) (line : List Char) : Prop :=
  ∃ how calls', serveLine w.texts line (w.kernel pid) calls = (.error (.ended how), calls')

/-- The report of an error. -/
def errorReport (texts : Texts) (num : ErrorNum) : List (List Char) :=
  ["Command failed with ".toList, texts.error num, ".\r\n".toList]

theorem serveLine_of_ok {texts : Texts} {k : Kernel} {calls' : List Syscall}
    (h : serveCommand line k calls = (.ok (), calls')) :
    serveLine texts line k calls = (.ok (), calls') := by
  rw [serveLine, h]

theorem endsOn_of_ended {how : Ending} {calls' : List Syscall}
    (h : serveCommand line (w.kernel pid) calls = (.error (.ended how), calls')) :
    EndsOn w pid calls line := ⟨how, calls', by rw [serveLine, h]⟩

/-- An error is reported. -/
theorem Orderly.serveLine_of_error (hw : Orderly w d cwd) {calls' : List Syscall}
    (h : serveCommand line (w.kernel pid) calls = (.error (.error num), calls')) :
    serveLine w.texts line (w.kernel pid) calls =
      (.ok (), calls' ++ (errorReport w.texts num).map (.write STDOUT)) := by
  rw [serveLine, h]
  exact hw.printPieces_run _ _ _

/-- A line whose calls change no directory, and which is served or fails. -/
theorem Orderly.servedInto_of_noChdir (hw : Orderly w d cwd) (made : List Syscall)
    (hmade : NoChdir made)
    (h : serveCommand line (w.kernel pid) calls = (.ok (), calls ++ made) ∨
      ∃ num, serveCommand line (w.kernel pid) calls = (.error (.error num), calls ++ made)) :
    ServedInto w cwd pid calls line (cwd pid calls) := by
  rcases h with hok | ⟨num, herror⟩
  · exact ⟨made, serveLine_of_ok hok, hw.cwd_append hmade⟩
  · refine ⟨made ++ (errorReport w.texts num).map (.write STDOUT), ?_,
      hw.cwd_append (hmade.append (noChdir_writes _))⟩
    rw [hw.serveLine_of_error herror, List.append_assoc]

theorem serveCommand_eq {handler : Handler} (h : handlerOf line = handler) :
    serveCommand line = handler.serve line := by
  rw [serveCommand, h]

/-! ## The built-in commands -/

theorem prefix_of_cd (h : handlerOf line = .cd) : "cd ".toList.isPrefixOf line = true := by
  by_contra hno
  rw [handlerOf, if_neg hno] at h
  repeat' split at h
  all_goals cases h

/-- The directory after `cd`. -/
theorem Orderly.serve_cd (hw : Orderly w d cwd) (h : handlerOf line = .cd) :
    ServedInto w cwd pid calls line
      ((d.enter (cwd pid calls) (trim (line.drop 3))).getD (cwd pid calls)) := by
  have hpath : stripFront "cd ".toList line = some (line.drop 3) := by
    rw [stripFront, if_pos (prefix_of_cd h)]
    rfl
  have hserve : serveCommand line = chdir (trim (line.drop 3)) >>= fun _ => pure () := by
    rw [serveCommand_eq h]
    show serveCd line = _
    rw [serveCd, hpath]
  rw [← hw.cwd_chdir]
  rcases hchdir : (w.kernel pid).answer (calls ++ [.chdir (trim (line.drop 3))]) with num | n
  · refine ⟨[.chdir (trim (line.drop 3))] ++ (errorReport w.texts num).map (.write STDOUT), ?_, ?_⟩
    · rw [hw.serveLine_of_error (hserve ▸ ProcM.bind_error (doSyscall_error hchdir)),
        List.append_assoc]
    · rw [← List.append_assoc, hw.cwd_append (noChdir_writes _)]
  · exact ⟨_, serveLine_of_ok (hserve ▸ ProcM.bind_ok (doSyscall_ok hchdir)), rfl⟩

/-- The help texts are printed. -/
theorem Orderly.serve_help (hw : Orderly w d cwd) (h : handlerOf line = .help) :
    ServedInto w cwd pid calls line (cwd pid calls) := by
  have hrun : ∃ made, serveHelp line (w.kernel pid) calls = (.ok (), calls ++ made) ∧
      NoChdir made := by
    unfold serveHelp
    rw [ProcM.bind_ok (hw.println_run _ _ _), ProcM.bind_ok (hw.println_run _ _ _),
      ProcM.bind_ok (hw.println_run _ _ _), ProcM.bind_ok (hw.println_run _ _ _),
      ProcM.bind_ok (hw.println_run _ _ _), ProcM.bind_ok (hw.println_run _ _ _), hw.println_run]
    simp only [List.append_assoc]
    exact ⟨_, rfl, by simp [NoChdir]⟩
  obtain ⟨made, hserve, hmade⟩ := hrun
  exact hw.servedInto_of_noChdir _ hmade (Or.inl (by rw [serveCommand_eq h]; exact hserve))

/-- `exit` ends the process. -/
theorem Orderly.serve_exit (hw : Orderly w d cwd) (h : handlerOf line = .exit) :
    EndsOn w pid calls line := by
  have hbye := hw.println_run pid calls "Bye.".toList
  have hserve : serveCommand line = println "Bye.".toList >>= fun _ => exit 0 :=
    serveCommand_eq h
  have hrun : serveCommand line (w.kernel pid) calls = _ :=
    hserve ▸ ProcM.bind_ok hbye
  exact endsOn_of_ended hrun

/-- A device that opens is asked to stop the machine, and has refused where the shell goes
on. -/
theorem Orderly.serve_device (hw : Orderly w d cwd) {path : List Char}
    (hserve : serveCommand line = pokeDevice path) (h : d.opens (cwd pid calls) path) :
    ServedInto w cwd pid calls line (cwd pid calls) := by
  obtain ⟨fd, hopen⟩ := (hw.opens pid calls path).mpr h
  have hopened : unwrap (openPath path READ) (w.kernel pid) calls =
      (.ok fd, calls ++ [.openPath path READ]) := unwrap_ok (doSyscall_ok hopen)
  have hmade : NoChdir ([.openPath path READ] ++ [.ioctl fd 1]) := by simp [NoChdir]
  refine hw.servedInto_of_noChdir _ hmade ?_
  rw [hserve, pokeDevice, ProcM.bind_ok hopened, ← List.append_assoc]
  rcases hioctl : (w.kernel pid).answer (calls ++ [.openPath path READ] ++ [.ioctl fd 1]) with
    num | n
  · exact Or.inr ⟨num, ProcM.bind_error (doSyscall_error hioctl)⟩
  · exact Or.inl (ProcM.bind_ok (doSyscall_ok hioctl))

/-- A device that does not open makes the shell panic. -/
theorem Orderly.serve_missing (hw : Orderly w d cwd) {path : List Char}
    (hserve : serveCommand line = pokeDevice path) (h : ¬ d.opens (cwd pid calls) path) :
    EndsOn w pid calls line := by
  rcases hopen : (w.kernel pid).answer (calls ++ [.openPath path READ]) with num | fd
  · have hpanic : unwrap (openPath path READ) (w.kernel pid) calls =
        panic "called `Result::unwrap()` on an `Err` value: ".toList (w.kernel pid)
          (calls ++ [.openPath path READ]) := by
      rw [unwrap, openPath, doSyscall_error hopen]
    have hpoke : serveCommand line = unwrap (openPath path READ) >>= fun fd =>
        ioctl fd 1 >>= fun _ => pure () := hserve
    have hrun : serveCommand line (w.kernel pid) calls = _ := hpoke ▸ ProcM.bind_error hpanic
    exact endsOn_of_ended hrun
  · exact absurd ((hw.opens pid calls path).mp ⟨fd, hopen⟩) h

/-! ## Executed commands -/

theorem serveCommand_of_parse (h : handlerOf line = .exec) (hparse : Command.parse line = .ok c) :
    serveCommand line = Command.execute c >>= fun ret =>
      printPieces ("Program exited with code ".toList :: isizePieces ret ++
        [".\r\n".toList]) := by
  rw [serveCommand_eq h]
  show serveExec line = _
  rw [serveExec, hparse]

/-- The parent comes back from every command. -/
theorem Orderly.serve_parent (hw : Orderly w d cwd) (h : handlerOf line = .exec)
    (hparse : Command.parse line = .ok c) (hparent : pid.getLast? ≠ some calls.length) :
    ServedInto w cwd pid calls line (cwd pid calls) := by
  obtain ⟨n, hfork, hzero⟩ := hw.forks pid calls
  have hn : n ≠ 0 := fun heq => hparent (hzero.mp heq)
  have hrun := Command.execute_forked (c := c) hfork
  rw [if_neg hn] at hrun
  have hserve := serveCommand_of_parse h hparse
  have hforks : NoChdir [.fork] := by simp [NoChdir]
  have hwaits : NoChdir [.waitpid n] := by simp [NoChdir]
  obtain ⟨m, hwait⟩ := hw.waits pid (calls ++ [.fork]) n
  have hwaited : waitpid n (w.kernel pid) (calls ++ [.fork]) =
      (.ok ((w.kernel pid).exitCode (calls ++ [.fork] ++ [.waitpid n])),
        calls ++ [.fork] ++ [.waitpid n]) := by
    rw [waitpid, doSyscall_ok hwait]
  have hserved : serveCommand line (w.kernel pid) calls = _ :=
    hserve ▸ (ProcM.bind_ok (hrun.trans hwaited)).trans (hw.printPieces_run pid _ _)
  rw [List.append_assoc, List.append_assoc] at hserved
  exact hw.servedInto_of_noChdir _ (hforks.append (hwaits.append (noChdir_writes _)))
    (Or.inl hserved)

/-- A line that no command can be made of. -/
theorem Orderly.serve_unparsed (hw : Orderly w d cwd) (h : handlerOf line = .exec)
    {e : ParseFailure} (hparse : Command.parse line = .error e) (he : e ≠ .panic) :
    ServedInto w cwd pid calls line (cwd pid calls) := by
  have hserve : serveCommand line = fail .ENOEXEC := by
    rw [serveCommand_eq h]
    show serveExec line = _
    rw [serveExec, hparse]
    cases e with
    | parseErr => rfl
    | panic => exact absurd rfl he
    | diverged => rfl
  refine hw.servedInto_of_noChdir [] (by simp [NoChdir]) (Or.inr ⟨.ENOEXEC, ?_⟩)
  rw [hserve, List.append_nil]
  rfl

/-- A line on which the parser panics. -/
theorem serve_panic (h : handlerOf line = .exec)
    (hparse : Command.parse line = .error .panic) : EndsOn w pid calls line := by
  have hserve : serveCommand line = panic "called `Option::unwrap()` on a `None` value".toList := by
    rw [serveCommand_eq h]
    show serveExec line = _
    rw [serveExec, hparse]
  have hrun : serveCommand line (w.kernel pid) calls = _ := congrFun (congrFun hserve _) _
  exact endsOn_of_ended hrun

/-! ## Children -/

/-- A child without redirections goes straight to its program. -/
theorem executeChild_eq (hfiles : NoFiles c) : Command.executeChild c =
    exec c.execPath c.args >>= fun _ => (fail .ENOSYS : ProcM Int) := by
  obtain ⟨hinput, houtput⟩ := hfiles
  have hnocmd : ¬ Command.InputIsCmd c := by
    rintro ⟨d, hd⟩
    rw [hinput] at hd
    cases hd
  have hin : Command.redirectInput c = pure () := by
    unfold Command.redirectInput
    rw [hinput]
  rw [Command.executeChild, hin, Command.redirectOutput_skip hnocmd houtput]
  rfl

/-- Where the program is found the child is replaced. -/
theorem Orderly.serve_found (hw : Orderly w d cwd) (h : handlerOf line = .exec)
    (hparse : Command.parse line = .ok c) (hfiles : NoFiles c)
    (hchild : pid.getLast? = some calls.length) (hfound : d.found (cwd pid calls) c.execPath) :
    ∃ made, serveLine w.texts line (w.kernel pid) calls =
      (.error (.ended .replaced), calls ++ made) ∧ NoOpen made := by
  obtain ⟨n, hfork, hzero⟩ := hw.forks pid calls
  rw [hzero.mpr hchild] at hfork
  have hforks : NoChdir [.fork] := by simp [NoChdir]
  obtain ⟨m, hexec⟩ := (hw.execs pid (calls ++ [.fork]) c.execPath c.args).mpr
    (by rwa [hw.cwd_append hforks])
  have hreplaced : exec c.execPath c.args (w.kernel pid) (calls ++ [.fork]) =
      (.error (.ended .replaced), calls ++ [.fork] ++ [.exec c.execPath c.args]) := by
    rw [exec, doSyscall_ok hexec]
  have hrun := Command.execute_forked (c := c) hfork
  rw [if_pos rfl, executeChild_eq hfiles, ProcM.bind_error hreplaced, List.append_assoc] at hrun
  refine ⟨[.fork] ++ [.exec c.execPath c.args], ?_, by simp [NoOpen]⟩
  rw [serveLine, serveCommand_of_parse h hparse, ProcM.bind_error hrun]

/-- Where it is not, the child comes back to its loop. -/
theorem Orderly.serve_notFound (hw : Orderly w d cwd) (h : handlerOf line = .exec)
    (hparse : Command.parse line = .ok c) (hfiles : NoFiles c)
    (hchild : pid.getLast? = some calls.length)
    (hfound : ¬ d.found (cwd pid calls) c.execPath) :
    ∃ made, serveLine w.texts line (w.kernel pid) calls = (.ok (), calls ++ made) ∧
      NoOpen made ∧ NoChdir made ∧ made ≠ [] := by
  obtain ⟨n, hfork, hzero⟩ := hw.forks pid calls
  rw [hzero.mpr hchild] at hfork
  have hforks : NoChdir [.fork] := by simp [NoChdir]
  rcases hexec : (w.kernel pid).answer (calls ++ [.fork] ++ [.exec c.execPath c.args]) with
    num | m
  · have hfailed : exec c.execPath c.args (w.kernel pid) (calls ++ [.fork]) =
        (.error (.error num), calls ++ [.fork] ++ [.exec c.execPath c.args]) := by
      rw [exec, doSyscall_error hexec]
    have hrun := Command.execute_forked (c := c) hfork
    rw [if_pos rfl, executeChild_eq hfiles, ProcM.bind_error hfailed, List.append_assoc] at hrun
    have hserve : serveCommand line (w.kernel pid) calls = (.error (.error num),
        calls ++ ([.fork] ++ [.exec c.execPath c.args])) := by
      rw [serveCommand_of_parse h hparse, ProcM.bind_error hrun]
    refine ⟨[.fork] ++ [.exec c.execPath c.args] ++
      (errorReport w.texts num).map (.write STDOUT), ?_, by simp [NoOpen], by simp [NoChdir],
      by simp⟩
    rw [hw.serveLine_of_error hserve, List.append_assoc]
  · have hcwd : cwd pid (calls ++ [.fork]) = cwd pid calls := hw.cwd_append hforks
    exact absurd (hcwd ▸ (hw.execs pid _ _ _).mp ⟨m, hexec⟩) hfound

/-! ## Lines -/

/-- The process has made calls since it was forked. -/
def Grown (pid : Pid) (calls : List Syscall) : Prop :=
  ∀ n, pid.getLast? = some n → n < calls.length

theorem Grown.parent (h : Grown pid calls) : pid.getLast? ≠ some calls.length :=
  fun hlast => Nat.lt_irrefl _ (h _ hlast)

theorem Grown.append (h : Grown pid calls) (made : List Syscall) : Grown pid (calls ++ made) := by
  intro n hn
  rw [List.length_append]
  exact Nat.lt_add_right _ (h n hn)

/-- What becomes of a process that serves a line and is nobody's child on it. -/
def Outcomes (w : World) (cwd : Pid → List Syscall → σ) (pid : Pid) (calls : List Syscall)
    (line : List Char) : Move σ → Prop
  | .stay t => ServedInto w cwd pid calls line t
  | .enter _ outer => ServedInto w cwd pid calls line outer
  | .leave => EndsOn w pid calls line

/-- A request to a device. -/
theorem Orderly.serve_poke (hw : Orderly w d cwd) {path : List Char}
    (hserve : serveCommand line = pokeDevice path) :
    Outcomes w cwd pid calls line (d.device (cwd pid calls) path) := by
  unfold Directories.device
  by_cases hopens : d.opens (cwd pid calls) path
  · rw [if_pos hopens]
    exact hw.serve_device hserve hopens
  · rw [if_neg hopens]
    exact hw.serve_missing hserve hopens

theorem Orderly.serve_command (hw : Orderly w d cwd) (h : handlerOf line = .exec)
    (hparent : pid.getLast? ≠ some calls.length) :
    Outcomes w cwd pid calls line (d.command (cwd pid calls) (Command.parse line)) := by
  cases hparse : Command.parse line with
  | ok c =>
      have hserved := hw.serve_parent h hparse hparent
      rw [Directories.command]
      by_cases hfound : d.found (cwd pid calls) c.execPath
      · rwa [if_pos hfound]
      · rwa [if_neg hfound]
  | error e =>
      cases e with
      | panic => exact serve_panic h hparse
      | parseErr => exact hw.serve_unparsed h hparse (by simp)
      | diverged => exact hw.serve_unparsed h hparse (by simp)

/-- The process that reads a line does what the machine does. -/
theorem Orderly.serve_move (hw : Orderly w d cwd) (hparent : pid.getLast? ≠ some calls.length)
    (line : List Char) :
    Outcomes w cwd pid calls line (d.move (cwd pid calls) line) := by
  unfold Directories.move
  cases h : handlerOf line with
  | cd => exact hw.serve_cd h
  | help => exact hw.serve_help h
  | exit => exact hw.serve_exit h
  | shutdown => exact hw.serve_poke (serveCommand_eq h)
  | reboot => exact hw.serve_poke (serveCommand_eq h)
  | exec => exact hw.serve_command h hparent

/-! ## What children leave -/

/-- What the child of a line leaves of the standard input, whatever its loop is: all of it, or
what a second shell leaves. -/
def ChildLeaves (w : World) (cwd : Pid → List Syscall → σ) (pid : Pid) (calls : List Syscall)
    (line : List Char) (stdin : List UInt8) : Move σ → Prop
  | .enter inner _ => ∃ calls', Grown (pid ++ [calls.length]) calls' ∧
      cwd (pid ++ [calls.length]) calls' = inner ∧
      ∀ loop, w.afterChild loop pid calls line stdin = loop (pid ++ [calls.length]) calls' stdin
  | _ => ∀ loop, w.afterChild loop pid calls line stdin = some stdin

theorem afterChild_none (h : forkedCommand (w.kernel pid) calls line = none)
    (loop : Pid → List Syscall → List UInt8 → Option (List UInt8)) (stdin : List UInt8) :
    w.afterChild loop pid calls line stdin = some stdin := by
  rw [World.afterChild, h]

theorem forkedCommand_of_handler (h : handlerOf line ≠ .exec) (k : Kernel)
    (calls : List Syscall) : forkedCommand k calls line = none := if_neg h

theorem forkedCommand_of_error {e : ParseFailure} (hparse : Command.parse line = .error e)
    (k : Kernel) (calls : List Syscall) : forkedCommand k calls line = none := by
  rw [forkedCommand, hparse]
  split <;> rfl

/-- The parent waits for the child of a command. -/
theorem Orderly.afterChild_eq (hw : Orderly w d cwd) (h : handlerOf line = .exec)
    (hparse : Command.parse line = .ok c) (hparent : pid.getLast? ≠ some calls.length)
    (loop : Pid → List Syscall → List UInt8 → Option (List UInt8)) (stdin : List UInt8) :
    w.afterChild loop pid calls line stdin =
      w.runChild loop (pid ++ [calls.length]) calls line c stdin := by
  obtain ⟨n, hfork, hzero⟩ := hw.forks pid calls
  have hn : n ≠ 0 := fun heq => hparent (hzero.mp heq)
  have hforked : forkedCommand (w.kernel pid) calls line = some (c, n) := by
    rw [forkedCommand, if_pos h, hparse, hfork]
    exact if_neg hn
  obtain ⟨m, hwait⟩ := hw.waits pid (calls ++ [.fork]) n
  have hawaited : awaited (w.kernel pid) calls n = true := by
    rw [awaited, hwait]
    rfl
  rw [World.afterChild, hforked]
  exact if_pos hawaited

/-- A child that keeps its standard input. -/
theorem stdinTable_replay {k : Kernel} (h : NoOpen made) (stdin : List UInt8) :
    (stdinTable stdin).replay k calls made STDIN = some (.inherited stdin) := by
  rw [replay_of_noOpen h, stdinTable, if_pos rfl]

theorem Orderly.childLeaves_command (hw : Orderly w d cwd) (h : handlerOf line = .exec)
    (hparse : Command.parse line = .ok c) (hfiles : NoFiles c)
    (hparent : pid.getLast? ≠ some calls.length) (stdin : List UInt8) :
    ChildLeaves w cwd pid calls line stdin (d.command (cwd pid calls) (.ok c)) := by
  have hlast : (pid ++ [calls.length]).getLast? = some calls.length := List.getLast?_concat
  have hforked := fun loop => hw.afterChild_eq h hparse hparent loop stdin
  have hcwd := hw.cwd_fork pid calls
  rw [Directories.command]
  by_cases hfound : d.found (cwd pid calls) c.execPath
  · obtain ⟨made, hserve, hmade⟩ := hw.serve_found h hparse hfiles hlast (by rwa [hcwd])
    rw [if_pos hfound]
    intro loop
    rw [hforked]
    simp only [World.runChild, hserve, List.drop_left, stdinTable_replay hmade]
    rw [leftBy, World.input, hw.programs]
  · obtain ⟨made, hserve, hopen, hchdir, hne⟩ :=
      hw.serve_notFound h hparse hfiles hlast (by rwa [hcwd])
    rw [if_neg hfound]
    refine ⟨calls ++ made, fun n hn => ?_, ?_, fun loop => ?_⟩
    · rw [hlast, Option.some_inj] at hn
      rw [← hn, List.length_append]
      exact Nat.lt_add_of_pos_right (List.length_pos_iff.mpr hne)
    · rw [hw.cwd_append hchdir, hcwd]
    · rw [hforked]
      simp only [World.runChild, hserve, List.drop_left, stdinTable_replay hopen, World.input,
        leftBy, Option.map_id']

/-- The child of a line does what the machine does. -/
theorem Orderly.childLeaves_move (hw : Orderly w d cwd)
    (hfiles : ∀ c, Command.parse line = .ok c → NoFiles c)
    (hparent : pid.getLast? ≠ some calls.length) (stdin : List UInt8) :
    ChildLeaves w cwd pid calls line stdin (d.move (cwd pid calls) line) := by
  unfold Directories.move
  cases h : handlerOf line with
  | exec =>
      cases hparse : Command.parse line with
      | ok c => exact hw.childLeaves_command h hparse (hfiles c hparse) hparent stdin
      | error e =>
          have hnone := fun loop =>
            afterChild_none (forkedCommand_of_error hparse (w.kernel pid) calls) loop stdin
          cases e <;> exact hnone
  | cd | help | exit =>
      have hne : handlerOf line ≠ .exec := by simp [h]
      exact fun loop => afterChild_none (forkedCommand_of_handler hne _ _) loop stdin
  | shutdown | reboot =>
      have hne : handlerOf line ≠ .exec := by simp [h]
      have hnone := fun loop =>
        afterChild_none (forkedCommand_of_handler hne (w.kernel pid) calls) loop stdin
      show ChildLeaves w cwd pid calls line stdin (d.device _ _)
      unfold Directories.device
      split <;> exact hnone

end Shell

end ParchTestbench
