import ParchTestbench.UsrLib.Process

/-!
# The user library: what a system call returns

`do_syscall` turns the two registers that the kernel leaves into a `Result`.  The code of a
failed call goes through `ErrorNum::try_from`, whose own error is unwrapped.

Main results:

- Theorem `reported_iff`: a failed call becomes an error value exactly when its code has one.
- Theorem `doSyscall_answered`: on codes that have one, a process sees what its kernel answers.
-/

namespace ParchTestbench

namespace DoSyscall

/-- `-ret` of an `isize`, with the overflow check of the debug build. -/
def negate (ret : Int64) : Except Failure Int64 :=
  if ret = Int64.minValue then .error (.panic "attempt to negate with overflow") else .ok (-ret)

/-- `Result::unwrap`; the panic message goes on with the error. -/
def unwrap : Except ErrorNum ErrorNum → Except Failure ErrorNum
  | .ok e => .ok e
  | .error _ => .error (.panic "called `Result::unwrap()` on an `Err` value: ")

/-- `do_syscall`; `ecall` gives the registers `a0` and `a1` that the kernel leaves. -/
def doSyscall (ecall : (Fin 6 → UInt64) → UInt64 → UInt64 × UInt64) (args : Fin 6 → UInt64)
    (syscallId : UInt64) : Except Failure (Except ErrorNum UInt64) := do
  let (ret, success) := ecall args syscallId
  if success = 0 then
    pure (.ok ret)
  else
    let code ← negate ret.toInt64
    let e ← unwrap (ErrorNum.tryFrom code.toUInt64)
    pure (.error e)

/-! ## Failed calls -/

section Calls

variable {ecall : (Fin 6 → UInt64) → UInt64 → UInt64 × UInt64} {args : Fin 6 → UInt64}
  {syscallId : UInt64} {e : ErrorNum}

theorem doSyscall_of_success (h : (ecall args syscallId).2 = 0) :
    doSyscall ecall args syscallId = .ok (.ok (ecall args syscallId).1) := by
  unfold doSyscall
  dsimp only
  rw [if_pos h]
  rfl

/-- The code of an error becomes the error. -/
theorem doSyscall_of_number (h : (ecall args syscallId).2 ≠ 0)
    (he : e.number = -(ecall args syscallId).1) :
    doSyscall ecall args syscallId = .ok (.error e) := by
  have hnumber := ErrorNum.exists_number_iff.mp ⟨e, he⟩
  have hne : (ecall args syscallId).1.toInt64 ≠ Int64.minValue := fun hmin => by
    rw [show (ecall args syscallId).1 = Int64.minValue.toUInt64 by rw [← hmin]; rfl] at hnumber
    exact absurd hnumber (by unfold ErrorNum.IsNumber; decide)
  unfold doSyscall
  dsimp only
  rw [if_neg h, negate, if_neg hne]
  show (unwrap (ErrorNum.tryFrom (-(ecall args syscallId).1)) >>= fun e =>
    (pure (.error e) : Except Failure (Except ErrorNum UInt64))) = _
  rw [ErrorNum.tryFrom_eq_ok_iff.mpr he]
  rfl

/-- Any other code panics, in the negation or in the conversion. -/
theorem doSyscall_of_unknown (h : (ecall args syscallId).2 ≠ 0)
    (hnone : ∀ e : ErrorNum, e.number ≠ -(ecall args syscallId).1) :
    ∃ message, doSyscall ecall args syscallId = .error (.panic message) := by
  unfold doSyscall
  dsimp only
  rw [if_neg h, negate]
  by_cases hmin : (ecall args syscallId).1.toInt64 = Int64.minValue
  · rw [if_pos hmin]
    exact ⟨_, rfl⟩
  · rw [if_neg hmin]
    show ∃ message, (unwrap (ErrorNum.tryFrom (-(ecall args syscallId).1)) >>= fun e =>
      (pure (.error e) : Except Failure (Except ErrorNum UInt64))) = _
    rw [ErrorNum.tryFrom_eq_error hnone]
    exact ⟨_, rfl⟩

/-- What a caller is promised: the result of a call that succeeded, and otherwise the error with
the number of its code, or `ENOSYS` where there is none. -/
structure Reported (ecall : (Fin 6 → UInt64) → UInt64 → UInt64 × UInt64)
    (args : Fin 6 → UInt64) (syscallId : UInt64) : Prop where
  success : (ecall args syscallId).2 = 0 →
    doSyscall ecall args syscallId = .ok (.ok (ecall args syscallId).1)
  known : (ecall args syscallId).2 ≠ 0 → ∀ e : ErrorNum, e.number = -(ecall args syscallId).1 →
    doSyscall ecall args syscallId = .ok (.error e)
  unknown : (ecall args syscallId).2 ≠ 0 →
    (∀ e : ErrorNum, e.number ≠ -(ecall args syscallId).1) →
    doSyscall ecall args syscallId = .ok (.error .ENOSYS)

/-- A failed call becomes an error value exactly when its code is the number of an error. -/
theorem reported_iff (ecall : (Fin 6 → UInt64) → UInt64 → UInt64 × UInt64)
    (args : Fin 6 → UInt64) (syscallId : UInt64) :
    Reported ecall args syscallId ↔
      (ecall args syscallId).2 = 0 ∨ ErrorNum.IsNumber (-(ecall args syscallId).1) := by
  rw [← ErrorNum.exists_number_iff]
  constructor
  · intro h
    by_contra hcond
    rw [not_or, not_exists] at hcond
    obtain ⟨message, hpanic⟩ := doSyscall_of_unknown hcond.1 hcond.2
    rw [h.unknown hcond.1 hcond.2] at hpanic
    cases hpanic
  · intro hcond
    refine ⟨doSyscall_of_success, fun h e he => doSyscall_of_number h he, fun h hnone => ?_⟩
    rcases hcond with hzero | ⟨e, he⟩
    · exact absurd hzero h
    · exact absurd he (hnone e)

/-- A call fails with the code of no error: 41 is in a gap. -/
theorem not_reported : ¬ ∀ (ecall : (Fin 6 → UInt64) → UInt64 → UInt64 × UInt64)
    (args : Fin 6 → UInt64) (syscallId : UInt64), Reported ecall args syscallId := by
  intro hall
  have hgap : ∀ e : ErrorNum, e.number ≠ - -41 := fun e he =>
    absurd (ErrorNum.exists_number_iff.mp ⟨e, he⟩) (by unfold ErrorNum.IsNumber; decide)
  have herr := (hall (fun _ _ => (-41, 1)) (fun _ => 0) 0).unknown (by decide) hgap
  cases herr

/-! ## The kernel of a process -/

/-- What a kernel answers to a call is what it leaves in the registers, where the code of a
failure is the number of an error. -/
inductive Answers (regs : UInt64 × UInt64) : Except ErrorNum Nat → Prop
  | ok (h : regs.2 = 0) : Answers regs (.ok regs.1.toNat)
  | error {e : ErrorNum} (h : regs.2 ≠ 0) (he : e.number = -regs.1) : Answers regs (.error e)

/-- A process gets from its kernel what `do_syscall` makes of the registers. -/
theorem doSyscall_answered {call : Syscall} {k : Kernel} {calls : List Syscall}
    (h : Answers (ecall args syscallId) (k.answer (calls ++ [call]))) :
    ∃ r, doSyscall ecall args syscallId = .ok r ∧
      (ParchTestbench.doSyscall call k calls).1 = (r.map UInt64.toNat).mapError Stop.error := by
  generalize hanswer : k.answer (calls ++ [call]) = answer at h
  cases h with
  | ok hzero =>
      refine ⟨_, doSyscall_of_success hzero, ?_⟩
      rw [doSyscall_ok hanswer]
      rfl
  | error hfailed he =>
      refine ⟨_, doSyscall_of_number hfailed he, ?_⟩
      rw [doSyscall_error hanswer]
      rfl

end Calls

end DoSyscall

end ParchTestbench
