import ParchTestbench.Shell.Execute
import Mathlib.Data.List.Perm.Subperm
import Mathlib.Data.List.Range
import Mathlib.Logic.Function.Basic

/-!
# The shell: descriptors of the executed program

The descriptor table of the child, followed through the calls that it makes.  The chain
that redirects the output looks at the input a second time, so that a command whose output
is another command is executed as if it had none.

Main results:

- Theorem `redirectInput_cases`, `redirectOutput_cases`: what the two chains do to the table.
- Theorem `redirections_iff`: the redirections are in force in the program exactly when the
  output is no command, or the child does not get past its input.
-/

namespace ParchTestbench

namespace Shell

open ProcM (fail panic)

/-! ## Descriptor tables -/

/-- What a descriptor stands for: a file that was open at the start, or one opened since. -/
inductive OpenFile (φ : Type)
  | inherited (file : φ)
  | opened (path : List Char) (mode : Nat)
deriving DecidableEq

/-- A descriptor table. -/
abbrev FdTable (φ : Type) := Nat → Option (OpenFile φ)

namespace FdTable

variable {φ : Type}

/-- The table after a call with its answer. -/
def after (t : FdTable φ) : Syscall → Except ErrorNum Nat → FdTable φ
  | .close fd, .ok _ => Function.update t fd none
  | .openPath path mode, .ok fd => Function.update t fd (some (.opened path mode))
  | _, _ => t

/-- The table after the calls `made`, which follow `calls`. -/
def replay (k : Kernel) : FdTable φ → List Syscall → List Syscall → FdTable φ
  | t, _, [] => t
  | t, calls, call :: made =>
      replay k (t.after call (k.answer (calls ++ [call]))) (calls ++ [call]) made

/-- From these calls on, `open` takes the lowest free number of the table. -/
def OpensLowest (k : Kernel) (t : FdTable φ) (calls : List Syscall) : Prop :=
  ∀ made path mode fd, k.answer (calls ++ made ++ [.openPath path mode]) = .ok fd →
    t.replay k calls made fd = none ∧ ∀ fd' < fd, t.replay k calls made fd' ≠ none

variable {k : Kernel} {t : FdTable φ} {calls l₁ l₂ : List Syscall}

theorem replay_append :
    t.replay k calls (l₁ ++ l₂) = (t.replay k calls l₁).replay k (calls ++ l₁) l₂ := by
  induction l₁ generalizing t calls with
  | nil => rw [List.nil_append, List.append_nil, replay]
  | cons call l₁ ih => rw [List.cons_append, replay, ih, replay, List.append_assoc,
      List.singleton_append]

end FdTable

namespace Command

/-! ## Redirections in force -/

/-- The output of the command is another command. -/
def OutputIsCmd (c : Command) : Prop := ∃ d, c.output = .Cmd d

/-- A descriptor is redirected as asked: left alone, or the file opened in this mode.  There
is nothing that it could be for a command. -/
def Redirected {φ : Type} : IOType → Nat → Option (OpenFile φ) → Option (OpenFile φ) → Prop
  | .Default, _, before, after => after = before
  | .File path, mode, _, after => after = some (.opened path mode)
  | .Cmd _, _, _, _ => False

/-- The table `t'` is the starting table `t` with the redirections of the command. -/
structure InForce {φ : Type} (c : Command) (t t' : FdTable φ) : Prop where
  input : Redirected c.input READ (t STDIN) (t' STDIN)
  output : Redirected c.output (WRITE ||| CREATE) (t STDOUT) (t' STDOUT)
  others : ∀ fd, fd ≠ STDIN → fd ≠ STDOUT → t' fd = t fd

/-- The child reaches `exec` after the calls `made`. -/
def ReachesExec (c : Command) (k : Kernel) (calls made : List Syscall) : Prop :=
  ∃ rest, (execute c k calls).2 =
    calls ++ [.fork] ++ made ++ .exec c.execPath c.args :: rest

/-- Where the child reaches `exec`, the redirections are in force. -/
def RedirectionsInForce {φ : Type} (c : Command) (k : Kernel) (calls : List Syscall)
    (t : FdTable φ) : Prop :=
  ∀ made, ReachesExec c k calls made → InForce c t (t.replay k (calls ++ [.fork]) made)

/-- The input is a file, and closing the old descriptor or opening the file fails. -/
def InputFails (c : Command) (k : Kernel) (calls : List Syscall) : Prop :=
  ∃ path num, c.input = .File path ∧
    (k.answer (calls ++ [.close STDIN]) = .error num ∨
      k.answer (calls ++ [.close STDIN] ++ [.openPath path READ]) = .error num)

/-! ## The calls of a redirection -/

variable {φ : Type} {c : Command} {k : Kernel} {t : FdTable φ}
  {calls made made' : List Syscall} {path : List Char} {target mode : Nat}

/-- None of the calls is `exec`. -/
def NoExec (made : List Syscall) : Prop := ∀ path argv, .exec path argv ∉ made

/-- A file that is opened where the descriptor was closed. -/
theorem reopen_ok {ret : Nat} (hclose : k.answer (calls ++ [.close target]) = .ok ret)
    (hopen : k.answer (calls ++ [.close target] ++ [.openPath path mode]) = .ok target) :
    reopen target path mode k calls =
      (.ok (), calls ++ [.close target] ++ [.openPath path mode]) := by
  have hnext := ProcM.bind_ok (f := fun _ => openPath path mode >>= fun fd =>
    if fd ≠ target then panic (reopenMessage target fd) else pure ()) (doSyscall_ok hclose)
  refine hnext.trans ((ProcM.bind_ok (doSyscall_ok hopen)).trans ?_)
  rw [if_neg (not_not_intro rfl)]
  rfl

/-- A redirection of a file fails, or it has closed the descriptor and opened the file
there. -/
theorem reopen_cases (target : Nat) (path : List Char) (mode : Nat) (k : Kernel)
    (calls : List Syscall) :
    (∃ e made, reopen target path mode k calls = (.error e, calls ++ made) ∧ NoExec made) ∨
    ∃ ret, k.answer (calls ++ [.close target]) = .ok ret ∧
      k.answer (calls ++ [.close target] ++ [.openPath path mode]) = .ok target := by
  rcases hclose : k.answer (calls ++ [.close target]) with num | ret
  · have hstop := ProcM.bind_error (f := fun _ => openPath path mode >>= fun fd =>
      if fd ≠ target then panic (reopenMessage target fd) else pure ()) (doSyscall_error hclose)
    exact Or.inl ⟨_, [.close target], hstop, by simp [NoExec]⟩
  have hnext := ProcM.bind_ok (f := fun _ => openPath path mode >>= fun fd =>
    if fd ≠ target then panic (reopenMessage target fd) else pure ()) (doSyscall_ok hclose)
  rcases hopen : k.answer (calls ++ [.close target] ++ [.openPath path mode]) with num | fd
  · have hstop := hnext.trans (ProcM.bind_error (doSyscall_error hopen))
    exact Or.inl ⟨_, [.close target, .openPath path mode],
      by rw [List.append_assoc] at hstop; exact hstop, by simp [NoExec]⟩
  by_cases hfd : fd = target
  · subst hfd
    exact Or.inr ⟨ret, hclose, hopen⟩
  · have hopened := hnext.trans (ProcM.bind_ok (doSyscall_ok hopen))
    rw [if_pos hfd, List.append_assoc] at hopened
    exact Or.inl ⟨_, [.close target, .openPath path mode], hopened, by simp [NoExec]⟩

/-- The table after a redirection of a file. -/
theorem replay_reopen {ret : Nat} (hclose : k.answer (calls ++ [.close target]) = .ok ret)
    (hopen : k.answer (calls ++ [.close target] ++ [.openPath path mode]) = .ok target) :
    t.replay k calls ([.close target] ++ [.openPath path mode]) =
      Function.update t target (some (.opened path mode)) := by
  simp only [FdTable.replay_append, FdTable.replay, FdTable.after, hclose, hopen,
    Function.update_idem]

/-- What the first chain does, if it does not fail. -/
theorem redirectInput_cases (c : Command) (k : Kernel) (calls : List Syscall) :
    (∃ e made, redirectInput c k calls = (.error e, calls ++ made) ∧ NoExec made) ∨
    ∃ made, redirectInput c k calls = (.ok (), calls ++ made) ∧ NoExec made ∧
      ¬ InputFails c k calls ∧ ∀ t : FdTable φ,
        Redirected c.input READ (t STDIN) (t.replay k calls made STDIN) ∧
          ∀ fd, fd ≠ STDIN → t.replay k calls made fd = t fd := by
  unfold redirectInput
  rcases hi : c.input with _ | path | d
  · refine Or.inr ⟨[], ?_, by simp [NoExec], ?_, fun t => ⟨rfl, fun _ _ => rfl⟩⟩
    · rw [List.append_nil]
      rfl
    · rintro ⟨path, num, hfile, -⟩
      rw [hi] at hfile
      cases hfile
  · rcases reopen_cases STDIN path READ k calls with herror | ⟨ret, hclose, hopen⟩
    · exact Or.inl herror
    · refine Or.inr ⟨[.close STDIN] ++ [.openPath path READ], ?_, by simp [NoExec], ?_,
        fun t => ?_⟩
      · rw [← List.append_assoc]
        exact reopen_ok hclose hopen
      · rintro ⟨path', num, hfile, hfail⟩
        rw [hi] at hfile
        cases hfile
        rcases hfail with hfail | hfail
        · rw [hclose] at hfail
          cases hfail
        · rw [hopen] at hfail
          cases hfail
      · rw [replay_reopen hclose hopen]
        exact ⟨Function.update_self _ _ _, fun fd hfd => Function.update_of_ne hfd _ _⟩
  · exact Or.inl ⟨_, [], by rw [List.append_nil]; rfl, by simp [NoExec]⟩

/-- What the second chain does behind an input that is no command, if it does not fail; an
output that is a command is passed over. -/
theorem redirectOutput_cases (hinput : ¬ InputIsCmd c) (k : Kernel) (calls : List Syscall) :
    (∃ e made, redirectOutput c k calls = (.error e, calls ++ made) ∧ NoExec made) ∨
    ∃ made, redirectOutput c k calls = (.ok (), calls ++ made) ∧ NoExec made ∧
      ∀ t : FdTable φ,
        (¬ OutputIsCmd c →
          Redirected c.output (WRITE ||| CREATE) (t STDOUT) (t.replay k calls made STDOUT)) ∧
          ∀ fd, fd ≠ STDOUT → t.replay k calls made fd = t fd := by
  rcases ho : c.output with _ | path | d
  · refine Or.inr ⟨[], ?_, by simp [NoExec], fun t => ⟨fun _ => rfl, fun _ _ => rfl⟩⟩
    rw [redirectOutput_skip hinput (fun path h => by rw [ho] at h; cases h), List.append_nil]
    rfl
  · have hfile : redirectOutput c = reopen STDOUT path (WRITE ||| CREATE) := by
      unfold redirectOutput
      rw [ho]
    rw [hfile]
    rcases reopen_cases STDOUT path (WRITE ||| CREATE) k calls with
      herror | ⟨ret, hclose, hopen⟩
    · exact Or.inl herror
    · refine Or.inr ⟨[.close STDOUT] ++ [.openPath path (WRITE ||| CREATE)], ?_,
        by simp [NoExec], fun t => ?_⟩
      · rw [← List.append_assoc]
        exact reopen_ok hclose hopen
      · rw [replay_reopen hclose hopen]
        exact ⟨fun _ => Function.update_self _ _ _, fun fd hfd => Function.update_of_ne hfd _ _⟩
  · refine Or.inr ⟨[], ?_, by simp [NoExec], fun t => ⟨fun hno => ?_, fun _ _ => rfl⟩⟩
    · rw [redirectOutput_skip hinput (fun path h => by rw [ho] at h; cases h), List.append_nil]
      rfl
    · exact absurd ⟨d, ho⟩ hno

/-! ## A kernel with a descriptor table -/

/-- The lowest number that is not in the list. -/
def lowestFree (fds : List Nat) : Nat :=
  ((List.range (fds.length + 1)).find? fun fd => fd ∉ fds).getD 0

/-- The open descriptors after a call. -/
def openAfter (fds : List Nat) : Syscall → List Nat
  | .close fd => fds.filter fun fd' => fd' ≠ fd
  | .openPath _ _ => lowestFree fds :: fds
  | _ => fds

/-- A kernel in which every call succeeds, and whose processes start with descriptors 0 and
1 open. -/
def tableKernel : Kernel where
  answer calls :=
    match calls.getLast? with
    | some (.openPath _ _) => .ok (lowestFree (calls.dropLast.foldl openAfter [0, 1]))
    | _ => .ok 0
  exitCode _ := 0

theorem lowestFree_spec (fds : List Nat) :
    lowestFree fds ∉ fds ∧ ∀ fd < lowestFree fds, fd ∈ fds := by
  unfold lowestFree
  rcases hfind : (List.range (fds.length + 1)).find? fun fd => fd ∉ fds with - | fd
  · have hall : List.range (fds.length + 1) ⊆ fds := by
      intro fd hfd
      simpa using List.find?_eq_none.mp hfind fd hfd
    have hlen := (List.subperm_of_subset List.nodup_range hall).length_le
    rw [List.length_range] at hlen
    omega
  · obtain ⟨hfree, -, hlow⟩ := List.find?_range_eq_some.mp hfind
    exact ⟨by simpa using hfree, fun fd' hfd' => by simpa using hlow fd' hfd'⟩

/-- The answer to a call keeps the list of open descriptors. -/
theorem after_tableKernel (h : ∀ fd, t fd ≠ none ↔ fd ∈ calls.foldl openAfter [0, 1])
    (call : Syscall) (fd : Nat) :
    t.after call (tableKernel.answer (calls ++ [call])) fd ≠ none ↔
      fd ∈ openAfter (calls.foldl openAfter [0, 1]) call := by
  cases call with
  | close fd' =>
      have hanswer : tableKernel.answer (calls ++ [.close fd']) = .ok 0 := by simp [tableKernel]
      rw [hanswer, FdTable.after, openAfter, List.mem_filter, ← h]
      by_cases hfd : fd = fd'
      · rw [hfd, Function.update_self]
        simp
      · rw [Function.update_of_ne hfd]
        simp [hfd]
  | openPath path mode =>
      have hanswer : tableKernel.answer (calls ++ [.openPath path mode]) =
          .ok (lowestFree (calls.foldl openAfter [0, 1])) := by simp [tableKernel]
      rw [hanswer, FdTable.after, openAfter, List.mem_cons, ← h]
      by_cases hfd : fd = lowestFree (calls.foldl openAfter [0, 1])
      · rw [hfd, Function.update_self]
        simp
      · rw [Function.update_of_ne hfd, or_iff_right hfd]
  | _ => exact h fd

/-- The kernel knows which descriptors of the table are open. -/
theorem replay_tableKernel (h : ∀ fd, t fd ≠ none ↔ fd ∈ calls.foldl openAfter [0, 1])
    (fd : Nat) : t.replay tableKernel calls made fd ≠ none ↔
      fd ∈ (calls ++ made).foldl openAfter [0, 1] := by
  induction made generalizing t calls with
  | nil => rw [List.append_nil, FdTable.replay, h]
  | cons call made ih =>
      have hstep := @ih (t.after call (tableKernel.answer (calls ++ [call]))) (calls ++ [call])
        fun fd' => by
          rw [List.foldl_append, List.foldl_cons, List.foldl_nil]
          exact after_tableKernel h call fd'
      rw [FdTable.replay, hstep, List.append_assoc, List.singleton_append]

theorem opensLowest_tableKernel (h : ∀ fd, t fd ≠ none ↔ fd ∈ calls.foldl openAfter [0, 1]) :
    t.OpensLowest tableKernel calls := by
  intro made path mode fd hopen
  have hanswer : tableKernel.answer (calls ++ made ++ [.openPath path mode]) =
      .ok (lowestFree ((calls ++ made).foldl openAfter [0, 1])) := by
    simp [tableKernel]
  rw [hanswer, Except.ok.injEq] at hopen
  obtain ⟨hfree, hlow⟩ := lowestFree_spec ((calls ++ made).foldl openAfter [0, 1])
  rw [hopen] at hfree hlow
  have hopened := fun fd => @replay_tableKernel _ _ _ made h fd
  exact ⟨not_not.mp fun hne => hfree ((hopened fd).mp hne),
    fun fd' hfd' => (hopened fd').mpr (hlow fd' hfd')⟩

/-- A table with descriptors 0 and 1 open. -/
def twoOpen : FdTable Unit := fun fd => if fd ∈ [0, 1] then some (.inherited ()) else none

theorem opensLowest_twoOpen : twoOpen.OpensLowest tableKernel [.fork] := by
  refine opensLowest_tableKernel fun fd => ?_
  show twoOpen fd ≠ none ↔ fd ∈ [0, 1]
  unfold twoOpen
  split <;> simp_all

/-- The line `cat <in >out`, in its parts. -/
def catInOut : Command := mk "cat".toList [] (.File "in".toList) (.File "out".toList)

/-! ## The way to `exec` -/

/-- The last call of a list, when it is not in front. -/
theorem eq_of_concat_eq {α : Type} {l m r : List α} {x : α} (h : l ++ [x] = m ++ x :: r)
    (hx : x ∉ l) : m = l := by
  rcases List.eq_nil_or_concat r with rfl | ⟨r', y, rfl⟩
  · exact (List.append_inj_left' h rfl).symm
  · rw [List.concat_eq_append, ← List.cons_append, ← List.append_assoc] at h
    have hfront := List.append_inj_left' h rfl
    exact absurd (hfront ▸ List.mem_append_right _ List.mem_cons_self) hx

/-- Whatever `exec` answers, it is the last call of the child. -/
theorem exec_run (c : Command) (k : Kernel) (calls : List Syscall) :
    ((exec c.execPath c.args >>= fun _ => (fail .ENOSYS : ProcM Int)) k calls).2 =
      calls ++ [.exec c.execPath c.args] := by
  rcases hexec : k.answer (calls ++ [.exec c.execPath c.args]) with num | ret
  · have hstop : exec c.execPath c.args k calls =
        (.error (.error num), calls ++ [.exec c.execPath c.args]) := by
      rw [exec, doSyscall_error hexec]
    rw [ProcM.bind_error hstop]
  · have hstop : exec c.execPath c.args k calls =
        (.error (.ended .replaced), calls ++ [.exec c.execPath c.args]) := by
      rw [exec, doSyscall_ok hexec]
    rw [ProcM.bind_error hstop]

/-- The calls of a child that gets through both of its chains. -/
theorem executeChild_calls {made₁ made₂ : List Syscall}
    (hin : redirectInput c k calls = (.ok (), calls ++ made₁))
    (hout : redirectOutput c k (calls ++ made₁) = (.ok (), calls ++ made₁ ++ made₂)) :
    (executeChild c k calls).2 = calls ++ (made₁ ++ made₂ ++ [.exec c.execPath c.args]) := by
  have hexec := exec_run c k (calls ++ made₁ ++ made₂)
  rw [executeChild, ProcM.bind_ok hin, ProcM.bind_ok hout, hexec]
  simp only [List.append_assoc]

/-- A child that reaches `exec` has got through both of its chains. -/
theorem exists_of_reachesExec (hfork : k.answer (calls ++ [.fork]) = .ok 0)
    (h : ReachesExec c k calls made) :
    ¬ InputIsCmd c ∧ ¬ InputFails c k (calls ++ [.fork]) ∧
      ∀ t : FdTable φ, ∃ t₁ : FdTable φ,
        (Redirected c.input READ (t STDIN) (t₁ STDIN) ∧ ∀ fd, fd ≠ STDIN → t₁ fd = t fd) ∧
        (¬ OutputIsCmd c → Redirected c.output (WRITE ||| CREATE) (t₁ STDOUT)
          (t.replay k (calls ++ [.fork]) made STDOUT)) ∧
        ∀ fd, fd ≠ STDOUT → t.replay k (calls ++ [.fork]) made fd = t₁ fd := by
  obtain ⟨rest, hrest⟩ := h
  rw [execute_forked hfork, if_pos rfl, List.append_assoc] at hrest
  generalize calls ++ [.fork] = calls at hrest ⊢
  have hstop : ∀ {made' : List Syscall}, NoExec made' →
      calls ++ made' ≠ calls ++ (made ++ .exec c.execPath c.args :: rest) := by
    intro made' hno heq
    have hmade := List.append_cancel_left heq
    exact hno c.execPath c.args (hmade ▸ List.mem_append_right _ List.mem_cons_self)
  rcases @redirectInput_cases φ c k calls with
    ⟨e, made₁, hin, hno⟩ | ⟨made₁, hin, hno, hnofail, hinput⟩
  · rw [executeChild, ProcM.bind_error hin] at hrest
    exact absurd hrest (hstop hno)
  have hnocmd : ¬ InputIsCmd c := by
    rintro ⟨d, hd⟩
    have hnone := (hinput fun _ => none).1
    rw [hd] at hnone
    exact hnone
  rcases @redirectOutput_cases φ c hnocmd k (calls ++ made₁) with
    ⟨e, made₂, hout, hno'⟩ | ⟨made₂, hout, hno', houtput⟩
  · rw [executeChild, ProcM.bind_ok hin, ProcM.bind_error hout, List.append_assoc] at hrest
    refine absurd hrest (hstop fun path argv hmem => ?_)
    exact (List.mem_append.mp hmem).elim (hno path argv) (hno' path argv)
  · rw [executeChild_calls hin hout] at hrest
    have hmade : made = made₁ ++ made₂ :=
      eq_of_concat_eq (List.append_cancel_left hrest) fun hmem =>
        (List.mem_append.mp hmem).elim (hno _ _) (hno' _ _)
    refine ⟨hnocmd, hnofail, fun t => ⟨t.replay k calls made₁, hinput t, ?_⟩⟩
    rw [hmade, FdTable.replay_append]
    exact houtput _

/-- The first chain gets through, where `open` takes the lowest free descriptor. -/
theorem exists_redirectInput_ok (hnocmd : ¬ InputIsCmd c) (hnofail : ¬ InputFails c k calls)
    (hlow : t.OpensLowest k calls) :
    ∃ made, redirectInput c k calls = (.ok (), calls ++ made) := by
  unfold redirectInput
  rcases hi : c.input with _ | path | d
  · exact ⟨[], by rw [List.append_nil]; rfl⟩
  · rcases hclose : k.answer (calls ++ [.close STDIN]) with num | ret
    · exact absurd ⟨path, num, hi, Or.inl hclose⟩ hnofail
    rcases hopen : k.answer (calls ++ [.close STDIN] ++ [.openPath path READ]) with num | fd
    · exact absurd ⟨path, num, hi, Or.inr hopen⟩ hnofail
    -- descriptor 0 is free, and nothing is lower
    have hfd : fd = STDIN := by
      have hlowest := (hlow _ _ _ _ hopen).2
      by_contra hne
      refine hlowest STDIN (Nat.pos_of_ne_zero hne) ?_
      simp only [FdTable.replay, FdTable.after, hclose, Function.update_self]
    subst hfd
    exact ⟨[.close STDIN] ++ [.openPath path READ],
      by rw [← List.append_assoc]; exact reopen_ok hclose hopen⟩
  · exact absurd ⟨d, hi⟩ hnocmd

/-- In the program that a command is replaced by, its redirections are in force, exactly when
its output is no command, or the child does not get past its input. -/
theorem redirections_iff (c : Command) (k : Kernel) (calls : List Syscall) (t : FdTable φ)
    (hfork : k.answer (calls ++ [.fork]) = .ok 0)
    (hlow : t.OpensLowest k (calls ++ [.fork])) :
    RedirectionsInForce c k calls t ↔
      (OutputIsCmd c → InputIsCmd c ∨ InputFails c k (calls ++ [.fork])) := by
  constructor
  · intro hforce houtput
    by_contra hneither
    obtain ⟨hnocmd, hnofail⟩ := not_or.mp hneither
    obtain ⟨made, hin⟩ := exists_redirectInput_ok hnocmd hnofail hlow
    obtain ⟨d, hd⟩ := houtput
    have hout : redirectOutput c k (calls ++ [.fork] ++ made) =
        (.ok (), calls ++ [.fork] ++ made ++ []) := by
      rw [redirectOutput_skip hnocmd (fun path h => by rw [hd] at h; cases h), List.append_nil]
      rfl
    have hreach : ReachesExec c k calls made := by
      refine ⟨[], ?_⟩
      rw [execute_forked hfork, if_pos rfl, executeChild_calls hin hout, List.append_nil,
        ← List.append_assoc]
    have hnone := (hforce made hreach).output
    rw [hd] at hnone
    exact hnone
  · intro hcond made hreach
    obtain ⟨hnocmd, hnofail, htable⟩ := @exists_of_reachesExec φ c k calls made hfork hreach
    have hno : ¬ OutputIsCmd c := fun h => (hcond h).elim hnocmd hnofail
    obtain ⟨t₁, ⟨hinput, hothers⟩, houtput, hothers'⟩ := htable t
    have hne : STDIN ≠ STDOUT := by decide
    refine ⟨?_, ?_, fun fd hfd hfd' => (hothers' fd hfd').trans (hothers fd hfd)⟩
    · rw [hothers' STDIN hne]
      exact hinput
    · rw [← hothers STDOUT hne.symm]
      exact houtput hno

theorem redirections_iff_sample :
    RedirectionsInForce catInOut tableKernel [] twoOpen ↔
      (OutputIsCmd catInOut → InputIsCmd catInOut ∨ InputFails catInOut tableKernel [.fork]) :=
  redirections_iff catInOut tableKernel [] twoOpen rfl opensLowest_twoOpen

/-- A command with another command as its output is executed. -/
theorem not_redirectionsInForce :
    tableKernel.answer [.fork] = .ok 0 ∧ twoOpen.OpensLowest tableKernel [.fork] ∧
      twoOpen STDIN ≠ none ∧ twoOpen STDOUT ≠ none ∧
      ¬ RedirectionsInForce (nofile.withOutput (.Cmd nofile)) tableKernel [] twoOpen := by
  refine ⟨rfl, opensLowest_twoOpen, by decide, by decide, fun hforce => ?_⟩
  exact (hforce [] ⟨[], rfl⟩).output

end Command

end Shell

end ParchTestbench
