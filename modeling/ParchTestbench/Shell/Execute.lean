import ParchTestbench.Shell.Parse
import ParchTestbench.UsrLib.Process

/-!
# The shell: executing a command

`Command::execute` and `serve_exec`.  The child of the fork passes an error of `close`,
`open` or `exec` up with `?`, like its parent would, and so comes back from `execute`.

Main results:

- Theorem `execute_parent`: the parent always comes back.
- Theorem `childEnds_iff`: the child does not exactly when none of its calls fails
  before it is replaced or panics.
-/

namespace ParchTestbench

namespace Shell

open ProcM (fail panic todo)

namespace Command

/-- What `execute` panics with when a descriptor is not the one that was closed. -/
def reopenMessage (target fd : Nat) : List Char :=
  "Failed to re-open fd ".toList ++ (toString target).toList ++
    " to redirect input, re-opened fd is FileDecstiptor(".toList ++ (toString fd).toList ++
    ").".toList

/-- Close `target` and open `path`, which has to get the same descriptor. -/
def reopen (target : Nat) (path : List Char) (mode : Nat) : ProcM Unit := do
  let _ ← close target
  let fd ← openPath path mode
  if fd ≠ target then panic (reopenMessage target fd) else pure ()

/-- The child's redirection of its input. -/
def redirectInput (c : Command) : ProcM Unit :=
  match c.input with
  | .File path => reopen STDIN path READ
  | .Cmd _ => todo
  | .Default => pure ()

/-- The child's redirection of its output; the second case looks at the input again. -/
def redirectOutput (c : Command) : ProcM Unit :=
  match c.output with
  | .File path => reopen STDOUT path (WRITE ||| CREATE)
  | _ =>
      match c.input with
      | .Cmd _ => todo
      | _ => pure ()

/-- The branch of `execute` in which `fork` returned 0. -/
def executeChild (c : Command) : ProcM Int := do
  redirectInput c
  redirectOutput c
  let _ ← exec c.execPath c.args
  fail .ENOSYS

/-- `Command::execute`. -/
def execute (c : Command) : ProcM Int := do
  let forkRes ← fork
  if forkRes = 0 then
    executeChild c
  else
    waitpid forkRes

end Command

/-- `serve_exec`. -/
def serveExec (cmd : List Char) : ProcM Unit :=
  match Command.parse cmd with
  | .error .parseErr => fail .ENOEXEC
  | .error .panic => panic "called `Option::unwrap()` on a `None` value".toList
  | .error .diverged => fail .ENOEXEC  -- excluded by `parse_ne_diverged`
  | .ok c => do
      let ret ← Command.execute c
      printPieces ("Program exited with code ".toList :: isizePieces ret ++ [".\r\n".toList])

namespace Command

/-! ## What the child calls -/

variable {c : Command} {k : Kernel} {calls : List Syscall}

/-- The calls of the child in their order, each with the descriptor it has to return. -/
def childPlan (c : Command) : List (Syscall × Option Nat) :=
  (match c.input with
    | .File path => [(.close STDIN, none), (.openPath path READ, some STDIN)]
    | _ => []) ++
  (match c.output with
    | .File path => [(.close STDOUT, none), (.openPath path (WRITE ||| CREATE), some STDOUT)]
    | _ => []) ++
  [(.exec c.execPath c.args, none)]

/-- None of the planned calls fails, up to the first that returns another descriptor than
it has to. -/
def Unfailing (k : Kernel) : List Syscall → List (Syscall × Option Nat) → Prop
  | _, [] => True
  | calls, (call, expected) :: plan =>
      match k.answer (calls ++ [call]) with
      | .error _ => False
      | .ok ret => (∃ fd, expected = some fd ∧ ret ≠ fd) ∨ Unfailing k (calls ++ [call]) plan

/-- A process ends inside a function. -/
def Ends {α : Type} (p : ProcM α) (k : Kernel) (calls : List Syscall) : Prop :=
  ∃ how, (p k calls).1 = .error (.ended how)

theorem not_unfailing {call : Syscall} {expected : Option Nat} {plan : List (Syscall × Option Nat)}
    {num : ErrorNum} (h : k.answer (calls ++ [call]) = .error num) :
    ¬ Unfailing k calls ((call, expected) :: plan) := by
  rw [Unfailing, h]
  exact id

theorem unfailing_cons {call : Syscall} {expected : Option Nat}
    {plan : List (Syscall × Option Nat)} {ret : Nat} (h : k.answer (calls ++ [call]) = .ok ret) :
    Unfailing k calls ((call, expected) :: plan) ↔
      (∃ fd, expected = some fd ∧ ret ≠ fd) ∨ Unfailing k (calls ++ [call]) plan := by
  rw [Unfailing, h]

theorem not_ends {α : Type} {p : ProcM α} {num : ErrorNum} {calls' : List Syscall}
    (h : p k calls = (.error (.error num), calls')) : ¬ Ends p k calls := by
  rintro ⟨how, hhow⟩
  rw [h] at hhow
  cases hhow

theorem ends_of_ended {α : Type} {p : ProcM α} {how : Ending} {calls' : List Syscall}
    (h : p k calls = (.error (.ended how), calls')) : Ends p k calls := ⟨how, by rw [h]⟩

/-- A failed redirection comes back, a misplaced one ends the process, and otherwise the
rest goes on after the two calls. -/
theorem ends_reopen_bind {α : Type} {target mode : Nat} {path : List Char} {rest : ProcM α}
    {plan : List (Syscall × Option Nat)}
    (hrest : ∀ calls, Ends rest k calls ↔ Unfailing k calls plan) (calls : List Syscall) :
    Ends (reopen target path mode >>= fun _ => rest) k calls ↔
      Unfailing k calls
        ((.close target, none) :: (.openPath path mode, some target) :: plan) := by
  rcases hclose : k.answer (calls ++ [.close target]) with num | ret
  · have hstop := ProcM.bind_error (f := fun _ => openPath path mode >>= fun fd =>
      if fd ≠ target then panic (reopenMessage target fd) else pure ()) (doSyscall_error hclose)
    exact iff_of_false (not_ends (ProcM.bind_error hstop)) (not_unfailing hclose)
  have hnext := ProcM.bind_ok (f := fun _ => openPath path mode >>= fun fd =>
    if fd ≠ target then panic (reopenMessage target fd) else pure ()) (doSyscall_ok hclose)
  rw [unfailing_cons hclose]
  rcases hopen : k.answer (calls ++ [.close target] ++ [.openPath path mode]) with num | fd
  · have hstop := hnext.trans (ProcM.bind_error (doSyscall_error hopen))
    refine iff_of_false (not_ends (ProcM.bind_error hstop)) ?_
    rintro (⟨fd, hfd, -⟩ | hplan)
    · cases hfd
    · exact not_unfailing hopen hplan
  have hopened := hnext.trans (ProcM.bind_ok (doSyscall_ok hopen))
  rw [unfailing_cons hopen]
  by_cases hfd : fd = target
  · rw [if_neg (not_not_intro hfd)] at hopened
    have hends : Ends (reopen target path mode >>= fun _ => rest) k calls ↔
        Ends rest k (calls ++ [.close target] ++ [.openPath path mode]) := by
      unfold Ends
      rw [show (reopen target path mode >>= fun _ => rest) k calls = _ from ProcM.bind_ok hopened]
    rw [hends, hrest]
    constructor
    · exact fun hplan => Or.inr (Or.inr hplan)
    · rintro (⟨other, hother, -⟩ | ⟨other, hother, hne⟩ | hplan)
      · cases hother
      · cases hother
        exact absurd hfd hne
      · exact hplan
  · rw [if_pos hfd] at hopened
    exact iff_of_true (ends_of_ended (ProcM.bind_error hopened))
      (Or.inr (Or.inl ⟨target, rfl, hfd⟩))

/-- The last call of the child: it is replaced or comes back. -/
theorem ends_exec (calls : List Syscall) :
    Ends (exec c.execPath c.args >>= fun _ => (fail .ENOSYS : ProcM Int)) k calls ↔
      Unfailing k calls [(.exec c.execPath c.args, none)] := by
  rcases hexec : k.answer (calls ++ [.exec c.execPath c.args]) with num | ret
  · have hstop : exec c.execPath c.args k calls =
        (.error (.error num), calls ++ [.exec c.execPath c.args]) := by
      rw [exec, doSyscall_error hexec]
    exact iff_of_false (not_ends (ProcM.bind_error hstop)) (not_unfailing hexec)
  · have hstop : exec c.execPath c.args k calls =
        (.error (.ended .replaced), calls ++ [.exec c.execPath c.args]) := by
      rw [exec, doSyscall_ok hexec]
    exact iff_of_true (ends_of_ended (ProcM.bind_error hstop))
      ((unfailing_cons hexec).mpr (Or.inr trivial))

/-! ## The child and the parent -/

/-- The input of the command is another command; `parse` never makes one. -/
def InputIsCmd (c : Command) : Prop := ∃ d, c.input = .Cmd d

/-- Behind an input that is no command, an output that is no file is passed over. -/
theorem redirectOutput_skip (hinput : ¬ InputIsCmd c) (houtput : ∀ path, c.output ≠ .File path) :
    redirectOutput c = pure () := by
  unfold redirectOutput
  rcases ho : c.output with _ | path | d <;> rcases hi : c.input with _ | path' | d'
  all_goals first
    | rfl
    | exact absurd ho (houtput _)
    | exact absurd ⟨_, hi⟩ hinput

/-- The output of a child whose input is no command, and the call after it. -/
theorem ends_output (hinput : ¬ InputIsCmd c) (calls : List Syscall) :
    Ends (redirectOutput c >>= fun _ => exec c.execPath c.args >>= fun _ =>
        (fail .ENOSYS : ProcM Int)) k calls ↔
      Unfailing k calls ((match c.output with
        | .File path => [(.close STDOUT, none), (.openPath path (WRITE ||| CREATE), some STDOUT)]
        | _ => []) ++ [(.exec c.execPath c.args, none)]) := by
  rcases ho : c.output with _ | path | d
  · rw [redirectOutput_skip hinput (fun path h => by rw [ho] at h; cases h)]
    exact ends_exec calls
  · have hfile : redirectOutput c = reopen STDOUT path (WRITE ||| CREATE) := by
      unfold redirectOutput
      rw [ho]
    rw [hfile]
    exact ends_reopen_bind ends_exec calls
  · rw [redirectOutput_skip hinput (fun path h => by rw [ho] at h; cases h)]
    exact ends_exec calls

/-- The child ends where its input is a command, and else where no call of it fails. -/
theorem ends_executeChild (calls : List Syscall) :
    Ends (executeChild c) k calls ↔ InputIsCmd c ∨ Unfailing k calls (childPlan c) := by
  have hrun : executeChild c = (redirectInput c >>= fun _ => redirectOutput c >>= fun _ =>
      exec c.execPath c.args >>= fun _ => fail .ENOSYS) := rfl
  rw [hrun]
  unfold childPlan
  rcases hi : c.input with _ | path | d
  · have hno : ¬ InputIsCmd c := fun ⟨d, hd⟩ => by rw [hi] at hd; cases hd
    have hskip : redirectInput c = pure () := by
      unfold redirectInput
      rw [hi]
    rw [hskip]
    exact (ends_output hno calls).trans (or_iff_right hno).symm
  · have hno : ¬ InputIsCmd c := fun ⟨d, hd⟩ => by rw [hi] at hd; cases hd
    have hfile : redirectInput c = reopen STDIN path READ := by
      unfold redirectInput
      rw [hi]
    rw [hfile]
    exact (ends_reopen_bind (ends_output hno) calls).trans (or_iff_right hno).symm
  · have htodo : redirectInput c = todo := by
      unfold redirectInput
      rw [hi]
    rw [htodo]
    exact iff_of_true (ends_of_ended (ProcM.bind_error rfl)) (Or.inl ⟨d, hi⟩)

/-- Each process takes its branch. -/
theorem execute_forked {pid : Nat} (hfork : k.answer (calls ++ [.fork]) = .ok pid) :
    execute c k calls =
      (if pid = 0 then executeChild c else waitpid pid) k (calls ++ [.fork]) :=
  ProcM.bind_ok (f := fun forkRes => if forkRes = 0 then executeChild c else waitpid forkRes)
    (doSyscall_ok hfork)

/-- The parent comes back, with the exit code or an error of `waitpid`. -/
theorem execute_parent {pid : Nat} (hfork : k.answer (calls ++ [.fork]) = .ok pid)
    (hpid : pid ≠ 0) : ¬ Ends (execute c) k calls := by
  have hrun := execute_forked (c := c) hfork
  rw [if_neg hpid] at hrun
  rintro ⟨how, hhow⟩
  rw [hrun] at hhow
  rcases hwait : k.answer (calls ++ [.fork] ++ [.waitpid pid]) with num | ret
  · rw [waitpid, doSyscall_error hwait] at hhow
    cases hhow
  · rw [waitpid, doSyscall_ok hwait] at hhow
    cases hhow

/-- The child never returns `Ok`. -/
theorem executeChild_ne_ok (calls : List Syscall) (code : Int) :
    (executeChild c k calls).1 ≠ .ok code := by
  intro h
  rcases hin : redirectInput c k calls with ⟨e | u, calls₁⟩
  · rw [executeChild, ProcM.bind_error hin] at h
    cases h
  rw [executeChild, ProcM.bind_ok hin] at h
  rcases hout : redirectOutput c k calls₁ with ⟨e | u, calls₂⟩
  · rw [ProcM.bind_error hout] at h
    cases h
  rw [ProcM.bind_ok hout] at h
  rcases hexec : exec c.execPath c.args k calls₂ with ⟨e | r, calls₃⟩
  · rw [ProcM.bind_error hexec] at h
    cases h
  · rw [ProcM.bind_ok hexec] at h
    cases h

/-- `serve_exec` passes on what the child of its command comes back with. -/
theorem ends_serveExec {line : List Char} (hparse : parse line = .ok c)
    (hfork : k.answer (calls ++ [.fork]) = .ok 0) :
    Ends (serveExec line) k calls ↔ Ends (execute c) k calls := by
  have hrun := execute_forked (c := c) hfork
  rw [if_pos rfl] at hrun
  rcases hchild : executeChild c k (calls ++ [.fork]) with ⟨e | code, calls'⟩
  · rw [hchild] at hrun
    have hserve : serveExec line k calls = (.error e, calls') := by
      unfold serveExec
      rw [hparse]
      exact ProcM.bind_error hrun
    unfold Ends
    rw [hserve, hrun]
    refine exists_congr fun how => ?_
    constructor <;> exact fun h => by injection h with h; rw [h]
  · exact absurd (congrArg Prod.fst hchild) (executeChild_ne_ok _ code)

/-- The child ends, and so does not come back to `serve_exec` and the read loop, exactly
when its input is a command or none of its calls fails. -/
theorem childEnds_iff (c : Command) (k : Kernel) (calls : List Syscall)
    (hfork : k.answer (calls ++ [.fork]) = .ok 0) :
    (Ends (execute c) k calls ↔
        InputIsCmd c ∨ Unfailing k (calls ++ [.fork]) (childPlan c)) ∧
      ∀ line, parse line = .ok c →
        (Ends (serveExec line) k calls ↔
          InputIsCmd c ∨ Unfailing k (calls ++ [.fork]) (childPlan c)) := by
  have hends : Ends (execute c) k calls ↔
      InputIsCmd c ∨ Unfailing k (calls ++ [.fork]) (childPlan c) := by
    rw [← ends_executeChild]
    unfold Ends
    rw [execute_forked hfork, if_pos rfl]
  exact ⟨hends, fun line hparse => (ends_serveExec hparse hfork).trans hends⟩

/-- A kernel in whose child no program is found. -/
def notFound : Kernel where
  answer calls :=
    match calls.getLast? with
    | some (.exec _ _) => .error .ENOENT
    | _ => .ok 0
  exitCode _ := 0

/-- The line `nofile`. -/
def nofile : Command := mk "nofile".toList [] .Default .Default

theorem childEnds_iff_sample :
    Ends (execute nofile) notFound [] ↔
      InputIsCmd nofile ∨ Unfailing notFound [.fork] (childPlan nofile) :=
  (childEnds_iff nofile notFound [] rfl).1

/-- The child of a program that is not found comes back to the read loop. -/
theorem not_childEnds : parse "nofile".toList = .ok nofile ∧
    notFound.answer [.fork] = .ok 0 ∧
    (serveExec "nofile".toList notFound []).1 = .error (.error .ENOENT) ∧
    ¬ Ends (execute nofile) notFound [] := by
  refine ⟨rfl, rfl, rfl, ?_⟩
  rintro ⟨how, hhow⟩
  have hback : (execute nofile notFound []).1 = .error (.error .ENOENT) := rfl
  rw [hback] at hhow
  cases hhow

end Command

end Shell

end ParchTestbench
