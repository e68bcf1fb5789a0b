import ParchTestbench.UsrLib.FmtIo

/-!
# The user library: processes and their system calls

A process runs against a kernel that may answer each of its calls in any way, depending
on the calls made before it.  A call that does not come back, a panic and a call of
`exit` end the process.  The code of a failed call is taken to be the number of an error:
`DoSyscall` has what becomes of any other.
-/

namespace ParchTestbench

/-- A system call, with what the kernel sees of its arguments. -/
inductive Syscall
  | write (fd : Nat) (text : List Char)
  | close (fd : Nat)
  | openPath (path : List Char) (mode : Nat)
  | fork
  | exec (path : List Char) (argv : List (List Char))
  | waitpid (pid : Nat)
  | chdir (path : List Char)
  | ioctl (fd op : Nat)
  | exit (code : Int)
deriving DecidableEq

/-- What the kernel answers to the last call of a list, and the exit code that it stores
if that is a `waitpid`. -/
structure Kernel where
  answer : List Syscall → Except ErrorNum Nat
  exitCode : List Syscall → Int

/-- How a process ends: another program takes its place, it exits, or it panics. -/
inductive Ending
  | replaced
  | exited (code : Int)
  | panicked (message : List Char)
deriving DecidableEq

/-- Why a call does not return `Ok`: it returns an error, or the process ends in it. -/
inductive Stop
  | error (num : ErrorNum)
  | ended (how : Ending)
deriving DecidableEq

/-- A function that returns a `Result`, run by a process that has made some calls. -/
def ProcM (α : Type) := Kernel → List Syscall → Except Stop α × List Syscall

namespace ProcM

variable {α β : Type}

/-- `Ok(a)`. -/
def ret (a : α) : ProcM α := fun _ calls => (.ok a, calls)

/-- The `?` operator: an error ends the caller. -/
def andThen (p : ProcM α) (f : α → ProcM β) : ProcM β := fun k calls =>
  match p k calls with
  | (.ok a, calls') => f a k calls'
  | (.error e, calls') => (.error e, calls')

instance : Monad ProcM where
  pure := ret
  bind := andThen

/-- Return `Err(num)`. -/
def fail (num : ErrorNum) : ProcM α := fun _ calls => (.error (.error num), calls)

/-- `panic!`; the panic handler prints the message and exits. -/
def panic (message : List Char) : ProcM α := fun _ calls =>
  (.error (.ended (.panicked message)), calls)

/-- `Result::unwrap`; the panic message goes on with the error. -/
def unwrap (p : ProcM α) : ProcM α := fun k calls =>
  match p k calls with
  | (.error (.error _), calls') =>
      panic "called `Result::unwrap()` on an `Err` value: ".toList k calls'
  | result => result

/-- `todo!()`. -/
def todo : ProcM α := panic "not yet implemented".toList

variable {p : ProcM α} {f : α → ProcM β} {k : Kernel} {calls calls' : List Syscall} {a : α}
  {e : Stop}

theorem bind_ok (h : p k calls = (.ok a, calls')) : (p >>= f) k calls = f a k calls' := by
  show andThen p f k calls = f a k calls'
  rw [andThen, h]

theorem bind_error (h : p k calls = (.error e, calls')) :
    (p >>= f) k calls = (.error e, calls') := by
  show andThen p f k calls = _
  rw [andThen, h]

end ProcM

open ProcM (fail panic)

/-- `do_syscall`: the answer of the kernel as a `Result`. -/
def doSyscall (call : Syscall) : ProcM Nat := fun k calls =>
  match k.answer (calls ++ [call]) with
  | .ok ret => (.ok ret, calls ++ [call])
  | .error num => (.error (.error num), calls ++ [call])

def fork : ProcM Nat := doSyscall .fork

def close (fd : Nat) : ProcM Nat := doSyscall (.close fd)

/-- `open`. -/
def openPath (path : List Char) (mode : Nat) : ProcM Nat := doSyscall (.openPath path mode)

/-- `waitpid`, with the exit code that it stores. -/
def waitpid (pid : Nat) : ProcM Int := fun k calls =>
  match doSyscall (.waitpid pid) k calls with
  | (.ok _, calls') => (.ok (k.exitCode calls'), calls')
  | (.error e, calls') => (.error e, calls')

def chdir (path : List Char) : ProcM Nat := doSyscall (.chdir path)

/-- `ioctl` without a parameter and a result. -/
def ioctl (fd op : Nat) : ProcM Nat := doSyscall (.ioctl fd op)

/-- `exec`; where it succeeds the program does not go on. -/
def exec (path : List Char) (argv : List (List Char)) : ProcM Nat := fun k calls =>
  match doSyscall (.exec path argv) k calls with
  | (.ok _, calls') => (.error (.ended .replaced), calls')
  | (.error e, calls') => (.error e, calls')

/-- `exit`. -/
def exit {α : Type} (code : Int) : ProcM α := fun _ calls =>
  (.error (.ended (.exited code)), calls ++ [.exit code])

/-- `STDIN` and `STDOUT`. -/
def STDIN : Nat := 0

def STDOUT : Nat := 1

/-- `OpenMode::READ`, `OpenMode::WRITE` and `OpenMode::CREATE`. -/
def READ : Nat := 1 <<< 0

def WRITE : Nat := 1 <<< 1

def CREATE : Nat := 1 <<< 2

/-- `print!` of a text in pieces, one `write` for each. -/
def printPieces : List (List Char) → ProcM Unit
  | [] => pure ()
  | piece :: rest => fun k calls =>
      match doSyscall (.write STDOUT piece) k calls with
      | (.ok _, calls') => printPieces rest k calls'
      | (.error _, calls') =>
          panic "called `Result::unwrap()` on an `Err` value: Error".toList k calls'

/-- What `{}` prints for an `isize`: the sign is a piece of its own. -/
def isizePieces (n : Int) : List (List Char) :=
  (if n < 0 then ["-".toList] else []) ++ [(toString n.natAbs).toList]

/-- `println!` of one piece. -/
def println (text : List Char) : ProcM Unit := printPieces [text ++ "\r\n".toList]

/-! ## One call -/

variable {call : Syscall} {k : Kernel} {calls : List Syscall} {ret : Nat} {num : ErrorNum}

theorem doSyscall_ok (h : k.answer (calls ++ [call]) = .ok ret) :
    doSyscall call k calls = (.ok ret, calls ++ [call]) := by
  rw [doSyscall, h]

theorem doSyscall_error (h : k.answer (calls ++ [call]) = .error num) :
    doSyscall call k calls = (.error (.error num), calls ++ [call]) := by
  rw [doSyscall, h]

end ParchTestbench
