import ParchTestbench.Shell.Descriptors
import ParchTestbench.Shell.Dispatch
import ParchTestbench.UsrLib.Lines

/-!
# The shell: its main loop

One pass prints a header, reads a line and serves it.  The child of a command that cannot be
executed comes back from `execute` and goes on with passes of its own, while its parent waits
for it.  The model of a session runs such a child before its parent goes on, and leaves open
what happens where the parent cannot wait.
-/

namespace ParchTestbench

/-- The answers of the calls that only read: the bytes that `getcwd` stores, and those that a
`read` of eight bytes from a descriptor stores. -/
structure Reads where
  getcwd : List Syscall → Except ErrorNum (List UInt8)
  read : List Syscall → Nat → Except ErrorNum (List UInt8)

/-- `String::from_utf8`. -/
def fromUtf8 (bytes : List UInt8) : Option (List Char) :=
  bytes.toByteArray.utf8Decode?.map Array.toList

theorem fromUtf8_encode (cs : List Char) : fromUtf8 (Utf8.encode cs) = some cs := by
  have hbytes : (Utf8.encode cs).toByteArray = cs.utf8Encode := rfl
  rw [fromUtf8, hbytes, List.utf8Decode?_utf8Encode]
  rfl

/-- A buffer of zeros after a call that has stored these bytes in it. -/
def buffer (size : Nat) (bytes : List UInt8) : List UInt8 :=
  bytes.take size ++ List.replicate (size - bytes.length) 0

theorem encode_replicate_nul (n : Nat) :
    Utf8.encode (List.replicate n '\x00') = List.replicate n 0 := by
  induction n with
  | zero => rfl
  | succ n ih =>
      rw [List.replicate_succ, Utf8.encode_cons, ih, List.replicate_succ]
      rfl

/-- A buffer with a text in it, whose end is filled with NULs. -/
theorem fromUtf8_buffer (size : Nat) (cs : List Char) (h : (Utf8.encode cs).length ≤ size) :
    fromUtf8 (buffer size (Utf8.encode cs)) =
      some (cs ++ List.replicate (size - (Utf8.encode cs).length) '\x00') := by
  rw [buffer, List.take_of_length_le h, ← encode_replicate_nul, ← Utf8.encode_append,
    fromUtf8_encode]

/-- `usize::from_le_bytes`. -/
def fromLeBytes (bytes : List UInt8) : Nat := bytes.foldr (fun b acc => b.toNat + 256 * acc) 0

/-- `getcwd`; the text is that of the whole buffer. -/
def getcwd (r : Reads) : ProcM (List Char) := fun k calls =>
  match r.getcwd calls with
  | .error num => ProcM.fail num k calls
  | .ok bytes =>
      match fromUtf8 (buffer 1024 bytes) with
      | none => ProcM.fail .EBADCODEX k calls
      | some text => (.ok text, calls)

theorem getcwd_ok {r : Reads} {k : Kernel} {calls : List Syscall} {bytes : List UInt8}
    {text : List Char} (hread : r.getcwd calls = .ok bytes)
    (htext : fromUtf8 (buffer 1024 bytes) = some text) :
    getcwd r k calls = (.ok text, calls) := by
  simp only [getcwd, hread, htext]

/-- `read` into a buffer of eight bytes: the count, and the buffer. -/
def readWord (r : Reads) (fd : Nat) : ProcM (Nat × List UInt8) := fun k calls =>
  match r.read calls fd with
  | .error num => ProcM.fail num k calls
  | .ok bytes => (.ok (bytes.length, buffer 8 bytes), calls)

namespace Shell

open ProcM (fail panic unwrap)
open FmtIo (getLine)
open GlobalAllocator (Heap)

/-- What `unwrap` passes on. -/
theorem unwrap_ok {α : Type} {p : ProcM α} {k : Kernel} {a : α} {calls' : List Syscall}
    (h : p k calls = (.ok a, calls')) : unwrap p k calls = (.ok a, calls') := by
  rw [unwrap, h]

/-! ## A pass of the loop -/

/-- What the `time` crate makes of the nanoseconds of the clock, and the names that `{:?}`
prints for the errors. -/
structure Texts where
  time : Nat → List Char
  error : ErrorNum → List Char

/-- The clock in the header, once its device is open. -/
def printTime (texts : Texts) (r : Reads) (fd : Nat) : ProcM Unit := do
  let (count, buf) ← unwrap (readWord r fd)
  if count ≠ 8 then
    panic ("assertion failed: read(fd, &mut buf).unwrap() == ".toList ++
      "core::mem::size_of::<usize>()".toList)
  else do
    let _ ← unwrap (close fd)
    printPieces [" ".toList, texts.time (fromLeBytes buf), " $ ".toList]

/-- The end of the header, with the clock when its device opens. -/
def printClock (texts : Texts) (r : Reads) : ProcM Unit := fun k calls =>
  match openPath "/dev/rtc@101000".toList READ k calls with
  | (.ok fd, calls') => printTime texts r fd k calls'
  | (.error _, calls') => printPieces [" $ ".toList] k calls'

/-- `print_header`. -/
def printHeader (texts : Texts) (r : Reads) : ProcM Unit := do
  let cwd ← unwrap (getcwd r)
  printPieces ["[ ".toList, cwd, " ]".toList]
  printClock texts r

/-- Serve a line, and report an error of it. -/
def serveLine (texts : Texts) (line : List Char) : ProcM Unit := fun k calls =>
  match serveCommand line k calls with
  | (.error (.error num), calls') =>
      printPieces ["Command failed with ".toList, texts.error num, ".\r\n".toList] k calls'
  | result => result

/-- `main` in front of its loop; with an argument it reads that file instead of the console. -/
def mainStart (argv : List (List UInt8)) : ProcM Unit := do
  println "[shell] hello world!".toList
  match argv[1]? with
  | none => pure ()
  | some arg => do
      let _ ← unwrap (close STDIN)
      match fromUtf8 arg with
      | none => panic "called `Result::unwrap()` on an `Err` value: ".toList
      | some path => do
          let fd ← unwrap (openPath path READ)
          if fd ≠ STDIN then
            panic ("failed to redirect stdin. new fd = FileDecstiptor(".toList ++
              (toString fd).toList ++ ")".toList)
          else
            pure ()

/-! ## Descriptor tables -/

variable {calls made : List Syscall}

/-- The calls neither open nor close a descriptor. -/
def NoOpen (made : List Syscall) : Prop :=
  ∀ call ∈ made, (∀ fd, call ≠ .close fd) ∧ ∀ path mode, call ≠ .openPath path mode

/-- Such calls leave a descriptor table as it is. -/
theorem replay_of_noOpen {φ : Type} {k : Kernel} (h : NoOpen made) (t : FdTable φ) :
    t.replay k calls made = t := by
  induction made generalizing calls with
  | nil => rfl
  | cons call made ih =>
      have hsame : t.after call (k.answer (calls ++ [call])) = t := by
        obtain ⟨hclose, hopen⟩ := h call List.mem_cons_self
        cases call with
        | close fd => exact absurd rfl (hclose fd)
        | openPath path mode => exact absurd rfl (hopen path mode)
        | _ => rfl
      rw [FdTable.replay, hsame]
      exact ih fun call' hmem => h call' (List.mem_cons_of_mem _ hmem)

/-! ## Sessions -/

/-- A process, as the forks that lead to it: how many calls its ancestors had made. -/
abbrev Pid := List Nat

/-- What the processes of a session run in: a kernel for each, which also sees the calls that
the process has from its parent; the allocator of each, as `get_line` finds it after some calls;
the bytes that a file delivers; and what a program leaves of the bytes on its standard input. -/
structure World where
  kernel : Pid → Kernel
  heap : Pid → List Syscall → Heap
  reads : Pid → Reads
  file : List Char → List UInt8
  program : Command → List UInt8 → List UInt8
  texts : Texts

/-- The descriptor table of a process as far as its standard input, which will still deliver
`stdin`. -/
def stdinTable (stdin : List UInt8) : FdTable (List UInt8) := fun fd =>
  if fd = STDIN then some (.inherited stdin) else none

/-- What the standard input delivers by its entry in the table; a closed one fails, like one at
its end. -/
def World.input (w : World) : Option (OpenFile (List UInt8)) → List UInt8
  | none => []
  | some (.inherited bytes) => bytes
  | some (.opened path _) => w.file path

/-- What the parent finds on its standard input when the child has left these bytes of its
own: the same, when the two still share it. -/
def leftBy (stdin left : List UInt8) : Option (OpenFile (List UInt8)) → List UInt8
  | some (.inherited _) => left
  | _ => stdin

/-- The command for which serving a line forks, if it does, and the number of the child. -/
def forkedCommand (k : Kernel) (calls : List Syscall) (line : List Char) :
    Option (Command × Nat) :=
  if handlerOf line = .exec then
    match Command.parse line, k.answer (calls ++ [.fork]) with
    | .ok c, .ok pid => if pid = 0 then none else some (c, pid)
    | _, _ => none
  else
    none

/-- The parent's `waitpid` comes back with the exit code of the child, which has ended then. -/
def awaited (k : Kernel) (calls : List Syscall) (pid : Nat) : Bool :=
  (k.answer (calls ++ [.fork] ++ [.waitpid pid])).isOk

/-- What the child that serves the command leaves of the standard input when it has ended; a
child that comes back goes on with `loop`. -/
def World.runChild (w : World) (loop : Pid → List Syscall → List UInt8 → Option (List UInt8))
    (child : Pid) (calls : List Syscall) (line : List Char) (c : Command)
    (stdin : List UInt8) : Option (List UInt8) :=
  let served := serveLine w.texts line (w.kernel child) calls
  let slot := (stdinTable stdin).replay (w.kernel child) calls
    (served.2.drop calls.length) STDIN
  match served.1 with
  | .ok () => (loop child served.2 (w.input slot)).map fun left => leftBy stdin left slot
  | .error (.ended .replaced) => some (leftBy stdin (w.program c (w.input slot)) slot)
  | .error _ => some stdin

/-- What is left of the standard input when the child that the line forks has ended, if it forks
one.  A parent whose `waitpid` fails goes on beside its child: what the two leave is open. -/
def World.afterChild (w : World)
    (loop : Pid → List Syscall → List UInt8 → Option (List UInt8)) (pid : Pid)
    (calls : List Syscall) (line : List Char) (stdin : List UInt8) : Option (List UInt8) :=
  match forkedCommand (w.kernel pid) calls line with
  | none => some stdin
  | some (c, child) =>
      if awaited (w.kernel pid) calls child then
        w.runChild loop (pid ++ [calls.length]) calls line c stdin
      else
        none

/-- The end of a pass, with what a child has left: the process ends in serving the line, or goes
round the loop. -/
def afterLine (loop : Pid → List Syscall → List UInt8 → Option (List UInt8)) (pid : Pid) :
    Option (List UInt8) → Except Stop Unit × List Syscall → Option (List UInt8)
  | none, _ => none
  | some left, (.ok (), calls) => loop pid calls left
  | some left, (.error _, _) => some left

/-- The loop of `main` in a process that has made some calls, on a standard input that will
still deliver `stdin`: the bytes that are left when the process has ended.  What the process
itself opens in a pass is taken to get other descriptors than the standard input has. -/
def World.loop (w : World) : Nat → Pid → List Syscall → List UInt8 → Option (List UInt8)
  | 0, _, _, _ => none
  | fuel + 1, pid, calls, stdin =>
      match printHeader w.texts (w.reads pid) (w.kernel pid) calls with
      | (.error _, _) => some stdin
      | (.ok (), calls) =>
          match getLine (w.heap pid calls) ⟨stdin, []⟩ with
          | (.error _, console) => some console.stdin
          | (.ok line, console) =>
              afterLine (w.loop fuel) pid
                (w.afterChild (w.loop fuel) pid calls line console.stdin)
                (serveLine w.texts line (w.kernel pid) calls)

/-- The input that `main` reads, where its file opens: the console, or the file that it is
given. -/
def World.source (w : World) (argv : List (List UInt8)) (stdin : List UInt8) : List UInt8 :=
  match argv[1]? with
  | none => stdin
  | some arg => ((fromUtf8 arg).map w.file).getD []

/-- `main`: the bytes that are left of the input that it reads. -/
def World.main (w : World) (fuel : Nat) (argv : List (List UInt8)) (stdin : List UInt8) :
    Option (List UInt8) :=
  match mainStart argv (w.kernel []) [] with
  | (.error _, _) => some stdin
  | (.ok (), calls) =>
      w.loop fuel [] calls (w.input ((stdinTable stdin).replay (w.kernel []) [] calls STDIN))

end Shell

end ParchTestbench
