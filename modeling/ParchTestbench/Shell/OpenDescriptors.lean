import Mathlib.Data.Finset.Card
import ParchTestbench.Shell.MainLoop

/-!
# The shell: the descriptors that it opens

The header closes the clock again, and the parent of a command opens nothing.  The devices for
`shutdown` and `reboot` are never closed.

Main results:

- Theorem `Adds.trans`: entries that are added to a descriptor table add up.
- Theorem `passes_adds`: over any lines a shell gains one open descriptor for each `shutdown` and
  `reboot`.
-/

namespace ParchTestbench

namespace Shell

open ProcM (fail panic unwrap)

variable {φ : Type} {k : Kernel} {t t' t'' : FdTable φ} {calls calls' made made' : List Syscall}
  {texts : Texts} {r : Reads} {line : List Char} {n m fd : Nat}

/-! ## Tables -/

/-- The table `t'` is `t` with `n` more descriptors open. -/
def Adds (n : Nat) (t t' : FdTable φ) : Prop :=
  ∃ new : Finset Nat, new.card = n ∧ (∀ fd ∈ new, t fd = none ∧ t' fd ≠ none) ∧
    ∀ fd, fd ∉ new → t' fd = t fd

theorem Adds.refl (t : FdTable φ) : Adds 0 t t :=
  ⟨∅, rfl, by simp, fun _ _ => rfl⟩

/-- What is added adds up. -/
theorem Adds.trans (h : Adds n t t') (h' : Adds m t' t'') : Adds (n + m) t t'' := by
  obtain ⟨new, hcard, hnew, hold⟩ := h
  obtain ⟨new', hcard', hnew', hold'⟩ := h'
  have hdisjoint : Disjoint new new' := by
    rw [Finset.disjoint_left]
    exact fun fd hmem hmem' => (hnew fd hmem).2 (hnew' fd hmem').1
  refine ⟨new ∪ new', by rw [Finset.card_union_of_disjoint hdisjoint, hcard, hcard'], ?_, ?_⟩
  · intro fd hmem
    rcases Finset.mem_union.mp hmem with hmem | hmem
    · have hkept : fd ∉ new' := Finset.disjoint_left.mp hdisjoint hmem
      exact ⟨(hnew fd hmem).1, by rw [hold' fd hkept]; exact (hnew fd hmem).2⟩
    · have hkept : fd ∉ new := Finset.disjoint_right.mp hdisjoint hmem
      exact ⟨by rw [← hold fd hkept]; exact (hnew' fd hmem).1, (hnew' fd hmem).2⟩
  · intro fd hmem
    rw [Finset.notMem_union] at hmem
    rw [hold' fd hmem.2, hold fd hmem.1]

/-- An entry where there was none. -/
theorem adds_update (h : t fd = none) (file : OpenFile φ) :
    Adds 1 t (Function.update t fd (some file)) := by
  refine ⟨{fd}, rfl, ?_, ?_⟩
  · intro fd' hmem
    rw [Finset.mem_singleton.mp hmem, Function.update_self]
    exact ⟨h, by simp⟩
  · intro fd' hmem
    exact Function.update_of_ne (fun heq => hmem (Finset.mem_singleton.mpr heq)) _ _

/-! ## Calls -/

/-- From these calls on, `open` returns a free number of the table. -/
def OpensFree (k : Kernel) (t : FdTable φ) (calls : List Syscall) : Prop :=
  ∀ made path mode fd, k.answer (calls ++ made ++ [.openPath path mode]) = .ok fd →
    t.replay k calls made fd = none

theorem FdTable.OpensLowest.opensFree (h : t.OpensLowest k calls) : OpensFree k t calls :=
  fun made path mode fd hopen => (h made path mode fd hopen).1

/-- What holds from some calls on holds from later ones on. -/
theorem OpensFree.append (h : OpensFree k t calls) (made : List Syscall) :
    OpensFree k (t.replay k calls made) (calls ++ made) := by
  intro made' path mode fd hopen
  rw [← FdTable.replay_append]
  exact h (made ++ made') path mode fd (by rwa [← List.append_assoc])

/-- Between these calls of a process `n` more descriptors are opened. -/
def Gains (k : Kernel) (n : Nat) (calls calls' : List Syscall) : Prop :=
  ∃ made, calls' = calls ++ made ∧
    ∀ {φ : Type} (t : FdTable φ), OpensFree k t calls → Adds n t (t.replay k calls made)

theorem gains_of_noOpen (h : NoOpen made) : Gains k 0 calls (calls ++ made) :=
  ⟨made, rfl, fun t _ => by rw [replay_of_noOpen h]; exact Adds.refl t⟩

theorem gains_refl : Gains k 0 calls calls :=
  ⟨[], (List.append_nil calls).symm, fun t _ => Adds.refl t⟩

theorem Gains.trans {calls'' : List Syscall} (h : Gains k n calls calls')
    (h' : Gains k m calls' calls'') : Gains k (n + m) calls calls'' := by
  obtain ⟨made, rfl, hmade⟩ := h
  obtain ⟨made', rfl, hmade'⟩ := h'
  refine ⟨made ++ made', List.append_assoc _ _ _, fun t hfree => ?_⟩
  rw [FdTable.replay_append]
  exact (hmade t hfree).trans (hmade' _ (hfree.append made))

theorem gains_open {path : List Char} {mode : Nat}
    (h : k.answer (calls ++ [.openPath path mode]) = .ok fd) :
    Gains k 1 calls (calls ++ [.openPath path mode]) := by
  refine ⟨_, rfl, fun t hfree => ?_⟩
  have hnone : t fd = none := hfree [] path mode fd (by rwa [List.append_nil])
  simp only [FdTable.replay, FdTable.after, h]
  exact adds_update hnone _

/-- A file that is opened and closed again. -/
theorem gains_open_close {path : List Char} {mode ret : Nat}
    (hopen : k.answer (calls ++ [.openPath path mode]) = .ok fd)
    (hclose : k.answer (calls ++ [.openPath path mode] ++ [.close fd]) = .ok ret) :
    Gains k 0 calls (calls ++ [.openPath path mode] ++ [.close fd]) := by
  refine ⟨[.openPath path mode] ++ [.close fd], List.append_assoc _ _ _, fun t hfree => ?_⟩
  have hnone : t fd = none := hfree [] path mode fd (by rwa [List.append_nil])
  have hsame : t.replay k calls ([.openPath path mode] ++ [.close fd]) = t := by
    rw [FdTable.replay_append]
    simp only [FdTable.replay, FdTable.after, hopen, hclose, Function.update_idem, ← hnone,
      Function.update_eq_self]
  rw [hsame]
  exact Adds.refl t

/-! ## Functions -/

/-- From these calls on, the process is the parent of those that it forks. -/
def Forks (k : Kernel) (calls : List Syscall) : Prop :=
  ∀ made, k.answer (calls ++ made ++ [.fork]) ≠ .ok 0

theorem Forks.append (h : Forks k calls) (made : List Syscall) : Forks k (calls ++ made) := by
  intro made'
  rw [List.append_assoc calls]
  exact h (made ++ made')

/-- Where the process comes back from the function, it has opened `n` more descriptors. -/
def Leaks {α : Type} (k : Kernel) (n : Nat) (p : ProcM α) : Prop :=
  ∀ calls result calls', Forks k calls → p k calls = (result, calls') →
    (∀ how, result ≠ .error (.ended how)) → Gains k n calls calls'

variable {α β : Type} {p : ProcM α} {f : α → ProcM β} {call : Syscall}

theorem Gains.forks (h : Gains k n calls calls') (hforks : Forks k calls) : Forks k calls' := by
  obtain ⟨made, rfl, -⟩ := h
  exact hforks.append made

theorem leaks_pure (a : α) : Leaks k 0 (pure a : ProcM α) := by
  intro calls result calls' _ hrun _
  cases hrun
  exact gains_refl

theorem leaks_fail (num : ErrorNum) : Leaks k 0 (fail num : ProcM α) := by
  intro calls result calls' _ hrun _
  cases hrun
  exact gains_refl

/-- A function that ends the process. -/
theorem leaks_panic (message : List Char) : Leaks k n (panic message : ProcM α) := by
  intro calls result calls' _ hrun hback
  cases hrun
  exact absurd rfl (hback _)

theorem leaks_doSyscall (h : NoOpen [call]) : Leaks k 0 (doSyscall call) := by
  intro calls result calls' _ hrun _
  cases hanswer : k.answer (calls ++ [call]) with
  | ok ret =>
      rw [doSyscall_ok hanswer] at hrun
      cases hrun
      exact gains_of_noOpen h
  | error num =>
      rw [doSyscall_error hanswer] at hrun
      cases hrun
      exact gains_of_noOpen h

/-- What follows opens nothing. -/
theorem Leaks.bind (h : Leaks k n p) (hf : ∀ a, Leaks k 0 (f a)) : Leaks k n (p >>= f) := by
  intro calls result calls' hforks hrun hback
  rcases hp : p k calls with ⟨e | a, mid⟩
  · rw [ProcM.bind_error hp] at hrun
    cases hrun
    refine h calls _ _ hforks hp fun how heq => hback how ?_
    rw [Except.error.inj heq]
  · rw [ProcM.bind_ok hp] at hrun
    have hgains := h calls _ _ hforks hp fun how heq => by cases heq
    exact hgains.trans (hf a mid result calls' (hgains.forks hforks) hrun hback)

theorem leaks_unwrap (h : Leaks k n p) : Leaks k n (unwrap p) := by
  intro calls result calls' hforks hrun hback
  rcases hp : p k calls with ⟨e | a, mid⟩
  · cases e with
    | error num =>
        simp only [unwrap, hp, ProcM.panic] at hrun
        cases hrun
        exact absurd rfl (hback _)
    | ended how =>
        simp only [unwrap, hp] at hrun
        cases hrun
        exact absurd rfl (hback _)
  · simp only [unwrap, hp] at hrun
    cases hrun
    exact h calls _ _ hforks hp fun how heq => by cases heq

theorem leaks_printPieces (pieces : List (List Char)) : Leaks k 0 (printPieces pieces) := by
  induction pieces with
  | nil => exact leaks_pure ()
  | cons piece pieces ih =>
      intro calls result calls' hforks hrun hback
      rw [printPieces] at hrun
      cases hanswer : k.answer (calls ++ [.write STDOUT piece]) with
      | ok ret =>
          simp only [doSyscall_ok hanswer] at hrun
          have hwrite : Gains k 0 calls (calls ++ [.write STDOUT piece]) :=
            gains_of_noOpen (by simp [NoOpen])
          exact hwrite.trans (ih _ _ _ (hwrite.forks hforks) hrun hback)
      | error num =>
          simp only [doSyscall_error hanswer, ProcM.panic] at hrun
          cases hrun
          exact absurd rfl (hback _)

/-! ## The header -/

theorem leaks_getcwd (r : Reads) : Leaks k 0 (getcwd r) := by
  intro calls result calls' _ hrun _
  have hsame : calls' = calls := by
    unfold getcwd at hrun
    repeat' split at hrun
    all_goals
      simp only [fail, Prod.mk.injEq] at hrun
      exact hrun.2.symm
  exact hsame ▸ gains_refl

/-- A file that does not open. -/
theorem gains_open_error {path : List Char} {mode : Nat} {num : ErrorNum}
    (h : k.answer (calls ++ [.openPath path mode]) = .error num) :
    Gains k 0 calls (calls ++ [.openPath path mode]) := by
  refine ⟨_, rfl, fun t _ => ?_⟩
  simp only [FdTable.replay, FdTable.after, h]
  exact Adds.refl t

/-- The clock is printed only when its device has been closed. -/
theorem exists_of_printTime {result : Except Stop Unit}
    (hrun : printTime texts r fd k calls = (result, calls'))
    (hback : ∀ how, result ≠ .error (.ended how)) :
    ∃ ret pieces, k.answer (calls ++ [.close fd]) = .ok ret ∧
      printPieces pieces k (calls ++ [.close fd]) = (result, calls') := by
  unfold printTime at hrun
  cases hread : r.read calls fd with
  | error num =>
      have hpanic : unwrap (readWord r fd) k calls =
          panic "called `Result::unwrap()` on an `Err` value: ".toList k calls := by
        simp only [unwrap, readWord, hread, fail]
      rw [ProcM.bind_error hpanic] at hrun
      cases hrun
      exact absurd rfl (hback _)
  | ok bytes =>
      have hword : unwrap (readWord r fd) k calls =
          (.ok (bytes.length, buffer 8 bytes), calls) := by
        simp only [unwrap, readWord, hread]
      rw [ProcM.bind_ok hword] at hrun
      by_cases hlength : bytes.length = 8
      · simp only [if_neg (not_not_intro hlength)] at hrun
        cases hclose : k.answer (calls ++ [.close fd]) with
        | error num =>
            have hpanic : unwrap (close fd) k calls =
                panic "called `Result::unwrap()` on an `Err` value: ".toList k
                  (calls ++ [.close fd]) := by
              simp only [unwrap, close, doSyscall_error hclose]
            rw [ProcM.bind_error hpanic] at hrun
            cases hrun
            exact absurd rfl (hback _)
        | ok ret =>
            have hclosed : unwrap (close fd) k calls = (.ok ret, calls ++ [.close fd]) := by
              simp only [unwrap, close, doSyscall_ok hclose]
            rw [ProcM.bind_ok hclosed] at hrun
            exact ⟨ret, _, rfl, hrun⟩
      · simp only [if_pos hlength] at hrun
        cases hrun
        exact absurd rfl (hback _)

/-- The clock is closed again. -/
theorem leaks_printClock (texts : Texts) (r : Reads) : Leaks k 0 (printClock texts r) := by
  intro calls result calls' hforks hrun hback
  unfold printClock at hrun
  cases hopen : k.answer (calls ++ [.openPath "/dev/rtc@101000".toList READ]) with
  | error num =>
      simp only [openPath, doSyscall_error hopen] at hrun
      have hgains := gains_open_error hopen
      exact hgains.trans (leaks_printPieces _ _ _ _ (hgains.forks hforks) hrun hback)
  | ok fd =>
      simp only [openPath, doSyscall_ok hopen] at hrun
      obtain ⟨ret, pieces, hclose, hprint⟩ := exists_of_printTime hrun hback
      have hgains := gains_open_close hopen hclose
      exact hgains.trans (leaks_printPieces pieces _ _ _ (hgains.forks hforks) hprint hback)

theorem leaks_printHeader (texts : Texts) (r : Reads) : Leaks k 0 (printHeader texts r) :=
  (leaks_unwrap (leaks_getcwd r)).bind fun _ =>
    (leaks_printPieces _).bind fun _ => leaks_printClock texts r

/-! ## Serving lines -/

/-- A device stays open. -/
theorem leaks_pokeDevice (path : List Char) : Leaks k 1 (pokeDevice path) := by
  have hopen : Leaks k 1 (unwrap (openPath path READ)) := by
    intro calls result calls' _ hrun hback
    cases hanswer : k.answer (calls ++ [.openPath path READ]) with
    | ok fd =>
        simp only [unwrap, openPath, doSyscall_ok hanswer] at hrun
        cases hrun
        exact gains_open hanswer
    | error num =>
        simp only [unwrap, openPath, doSyscall_error hanswer, ProcM.panic] at hrun
        cases hrun
        exact absurd rfl (hback _)
  exact hopen.bind fun fd => (leaks_doSyscall (by simp [NoOpen])).bind fun _ => leaks_pure ()

/-- The parent of a command opens nothing. -/
theorem leaks_execute (c : Command) : Leaks k 0 (Command.execute c) := by
  intro calls result calls' hforks hrun hback
  have hfork := hforks []
  rw [List.append_nil] at hfork
  cases hanswer : k.answer (calls ++ [.fork]) with
  | error num =>
      have hstop : Command.execute c k calls = (.error (.error num), calls ++ [.fork]) :=
        ProcM.bind_error (doSyscall_error hanswer)
      rw [hstop] at hrun
      cases hrun
      exact gains_of_noOpen (by simp [NoOpen])
  | ok pid =>
      have hpid : pid ≠ 0 := fun heq => hfork (by rw [hanswer, heq])
      rw [Command.execute_forked hanswer, if_neg hpid, waitpid] at hrun
      have hcalls : Gains k 0 calls (calls ++ [.fork] ++ [.waitpid pid]) := by
        rw [List.append_assoc]
        exact gains_of_noOpen (by simp [NoOpen])
      cases hwait : k.answer (calls ++ [.fork] ++ [.waitpid pid]) with
      | ok ret =>
          simp only [doSyscall_ok hwait] at hrun
          cases hrun
          exact hcalls
      | error num =>
          simp only [doSyscall_error hwait] at hrun
          cases hrun
          exact hcalls

theorem leaks_serveExec (line : List Char) : Leaks k 0 (serveExec line) := by
  unfold serveExec
  split
  · exact leaks_fail _
  · exact leaks_panic _
  · exact leaks_fail _
  · exact (leaks_execute _).bind fun _ => leaks_printPieces _

/-- The lines that open a device. -/
def opensDevice (line : List Char) : Bool :=
  handlerOf line = .shutdown || handlerOf line = .reboot

theorem leaks_serveHelp (line : List Char) : Leaks k 0 (serveHelp line) := by
  unfold serveHelp println
  refine (leaks_printPieces _).bind fun _ => ?_
  refine (leaks_printPieces _).bind fun _ => ?_
  refine (leaks_printPieces _).bind fun _ => ?_
  refine (leaks_printPieces _).bind fun _ => ?_
  refine (leaks_printPieces _).bind fun _ => ?_
  exact (leaks_printPieces _).bind fun _ => leaks_printPieces _

theorem leaks_exit (code : Int) : Leaks k 0 (exit code : ProcM α) := by
  intro calls result calls' _ hrun hback
  cases hrun
  exact absurd rfl (hback _)

theorem leaks_serveCd (line : List Char) : Leaks k 0 (serveCd line) := by
  unfold serveCd
  split
  · exact leaks_panic _
  · exact (leaks_doSyscall (by simp [NoOpen])).bind fun _ => leaks_pure ()

/-- What a line leaves open. -/
theorem leaks_serveCommand (line : List Char) :
    Leaks k (if opensDevice line then 1 else 0) (serveCommand line) := by
  unfold serveCommand opensDevice
  cases handlerOf line with
  | cd => exact leaks_serveCd line
  | help => exact leaks_serveHelp line
  | exit => exact (leaks_printPieces _).bind fun _ => leaks_exit 0
  | shutdown => exact leaks_pokeDevice _
  | reboot => exact leaks_pokeDevice _
  | exec => exact leaks_serveExec line

theorem leaks_serveLine (texts : Texts) (line : List Char) :
    Leaks k (if opensDevice line then 1 else 0) (serveLine texts line) := by
  intro calls result calls' hforks hrun hback
  rcases hserve : serveCommand line k calls with ⟨e | ⟨⟩, mid⟩
  · cases e with
    | error num =>
        simp only [serveLine, hserve] at hrun
        have hgains := leaks_serveCommand line _ _ _ hforks hserve fun how heq => by cases heq
        exact hgains.trans (leaks_printPieces _ _ _ _ (hgains.forks hforks) hrun hback)
    | ended how =>
        simp only [serveLine, hserve] at hrun
        cases hrun
        exact absurd rfl (hback _)
  · simp only [serveLine, hserve] at hrun
    cases hrun
    exact leaks_serveCommand line _ _ _ hforks hserve fun how heq => by cases heq

/-! ## The loop -/

/-- The passes of the loop over some lines. -/
def passes (texts : Texts) (r : Reads) : List (List Char) → ProcM Unit
  | [] => pure ()
  | line :: lines => do
      printHeader texts r
      serveLine texts line
      passes texts r lines

theorem gains_passes {lines : List (List Char)} (hforks : Forks k calls)
    (hrun : passes texts r lines k calls = (.ok (), calls')) :
    Gains k (lines.countP opensDevice) calls calls' := by
  induction lines generalizing calls with
  | nil =>
      cases hrun
      exact gains_refl
  | cons line lines ih =>
      rcases hheader : printHeader texts r k calls with ⟨e | ⟨⟩, mid⟩
      · rw [passes, ProcM.bind_error hheader] at hrun
        cases hrun
      rw [passes, ProcM.bind_ok hheader] at hrun
      have hfirst := leaks_printHeader texts r _ _ _ hforks hheader fun how heq => by cases heq
      rcases hserve : serveLine texts line k mid with ⟨e | ⟨⟩, mid'⟩
      · rw [ProcM.bind_error hserve] at hrun
        cases hrun
      rw [ProcM.bind_ok hserve] at hrun
      have hsecond := leaks_serveLine texts line _ _ _ (hfirst.forks hforks) hserve
        fun how heq => by cases heq
      have hgains := (hfirst.trans hsecond).trans
        (ih (hsecond.forks (hfirst.forks hforks)) hrun)
      rw [Nat.zero_add] at hgains
      rwa [List.countP_cons, Nat.add_comm]

/-- Over any lines that a shell survives, its table keeps what it has, and gains one descriptor
for each `shutdown` and `reboot`. -/
theorem passes_adds {lines : List (List Char)} (hlow : t.OpensLowest k calls)
    (hforks : Forks k calls) (hrun : passes texts r lines k calls = (.ok (), calls')) :
    ∃ made, calls' = calls ++ made ∧
      Adds (lines.countP opensDevice) t (t.replay k calls made) := by
  obtain ⟨made, hmade, hadds⟩ := gains_passes hforks hrun
  exact ⟨made, hmade, hadds t hlow.opensFree⟩

/-! ## A shutdown that does not take place -/

/-- A kernel with a table, in which every call succeeds and `fork` returns to the parent. -/
def parentKernel : Kernel where
  answer calls := if calls.getLast? = some .fork then .ok 2 else Command.tableKernel.answer calls
  exitCode _ := 0

theorem parentKernel_answer (h : call ≠ .fork) :
    parentKernel.answer (calls ++ [call]) = Command.tableKernel.answer (calls ++ [call]) := by
  simp [parentKernel, h]

theorem replay_parentKernel (t : FdTable φ) :
    t.replay parentKernel calls made = t.replay Command.tableKernel calls made := by
  induction made generalizing t calls with
  | nil => rfl
  | cons call made ih =>
      by_cases hfork : call = .fork
      · subst hfork
        exact ih t
      · rw [FdTable.replay, FdTable.replay, parentKernel_answer hfork, ih]

theorem opensLowest_parentKernel : Command.twoOpen.OpensLowest parentKernel [] := by
  intro made path mode fd hopen
  rw [parentKernel_answer (by simp)] at hopen
  have hlow : Command.twoOpen.OpensLowest Command.tableKernel [] :=
    Command.opensLowest_tableKernel fun fd => by
      show Command.twoOpen fd ≠ none ↔ fd ∈ [0, 1]
      unfold Command.twoOpen
      split <;> simp_all
  rw [replay_parentKernel]
  exact hlow made path mode fd hopen

theorem forks_parentKernel : Forks parentKernel [] := by
  intro made
  simp [parentKernel]

/-- The directory is `/`, and the clock shows 0. -/
def rootReads : Reads where
  getcwd _ := .ok (Utf8.encode ['/'])
  read _ _ := .ok (List.replicate 8 0)

/-- No texts. -/
def noTexts : Texts where
  time _ := []
  error _ := []

theorem passes_shutdown : ∃ calls', passes noTexts rootReads ["shutdown".toList] parentKernel [] =
    (.ok (), calls') := by
  have htext := fromUtf8_buffer 1024 ['/'] (by decide)
  have hcwd : getcwd rootReads parentKernel [] = _ := getcwd_ok rfl htext
  rw [passes, printHeader, ProcM.bind_ok (ProcM.bind_ok (unwrap_ok hcwd))]
  exact ⟨_, rfl⟩

theorem passes_adds_sample : ∃ calls' made : List Syscall, calls' = [] ++ made ∧
    Adds (["shutdown".toList].countP opensDevice) Command.twoOpen
      (Command.twoOpen.replay parentKernel [] made) := by
  obtain ⟨calls', hrun⟩ := passes_shutdown
  exact ⟨calls', passes_adds opensLowest_parentKernel forks_parentKernel hrun⟩

end Shell

end ParchTestbench
