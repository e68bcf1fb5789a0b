import ParchTestbench.TestPrograms.Generator
import ParchTestbench.Machine.ByteMemory
import ParchTestbench.Machine.Program
import Mathlib.Algebra.Group.Nat.Defs

/-!
# The random read/write benchmark: its two arms

`random_file` reads and writes a file through its descriptor, `random_mmap` through a mapping.
The kernel is a parameter: a call gets the bytes that it takes from memory and hands back those
that it stores there.

Main results:

- Theorem `copyU64_eq`: between ranges that do not overlap the word loop copies.
-/

namespace ParchTestbench

namespace RandomRw

open Program

/-! ## The kernel -/

/-- The system calls of the benchmark on kernel states `κ`, each with what it leaves in `a0`. -/
structure Kernel (κ : Type) where
  openFile (path : String) (flags : Nat) : κ → UInt64 × κ
  close (fd : UInt64) : κ → UInt64 × κ
  delete (path : String) : κ → UInt64 × κ
  seek (fd offset : UInt64) : κ → UInt64 × κ
  write (fd : UInt64) (bytes : List UInt8) : κ → UInt64 × κ
  /-- The bytes are those stored to the buffer. -/
  read (fd : UInt64) (length : UInt64) : κ → (UInt64 × List UInt8) × κ
  /-- The bytes are those of the new mapping. -/
  mmap (target length prot flag : UInt64) (fd offset : UInt64) : κ → (UInt64 × List UInt8) × κ
  /-- The bytes are those of the mapping that goes. -/
  munmap (address length : UInt64) (bytes : List UInt8) : κ → UInt64 × κ
  time : κ → UInt64 × κ

/-- What the benchmark does that can be seen: it draws a number, or accesses a range of the
file. -/
inductive Event
  | drawn (number : UInt64)
  | read (offset length : UInt64)
  | write (offset length : UInt64)
deriving DecidableEq, Repr

/-- The process and the kernel. -/
structure Bench (κ : Type) where
  mem : Mem
  state : RandState
  kernel : κ
  events : List Event

/-- `do_assert` has printed the operation and left the process. -/
structure Failure where
  operation : String
deriving DecidableEq, Repr

/-- Programs of the benchmark. -/
abbrev BenchM (κ : Type) := Program (Bench κ) Failure

variable {κ : Type}

/-- A system call that leaves memory alone. -/
def call {α : Type} (f : κ → α × κ) : BenchM κ α := fun w =>
  .ok ((f w.kernel).1, { w with kernel := (f w.kernel).2 })

/-- Something that can be seen. -/
def emit (e : Event) : BenchM κ Unit := fun w => .ok ((), { w with events := w.events ++ [e] })

/-- `do_assert`. -/
def doAssert (c : Prop) [Decidable c] (operation : String) : BenchM κ Unit :=
  if c then pure () else abort ⟨operation⟩

/-- The word is not negative as an `i64`. -/
def NonNeg (x : UInt64) : Prop := x.toNat < 2 ^ 63

instance (x : UInt64) : Decidable (NonNeg x) := inferInstanceAs (Decidable (_ < _))

/-- `TB_NON_NEG`. -/
def tbNonNeg (x : UInt64) (operation : String) : BenchM κ Unit := doAssert (NonNeg x) operation

/-- `TB_ASSERT(x == y)`. -/
def tbAssertEq (x y : UInt64) (operation : String) : BenchM κ Unit := doAssert (x = y) operation

/-! ## Memory -/

/-- `sizeof(buf)`. -/
def bufSize : Nat := 32768

/-- `copy_u64`. -/
def copyU64 (src dst : Nat) : Nat → Mem → Mem
  | 0, m => m
  | len + 1, m => copyU64 (src + 8) (dst + 8) len (m.store dst 8 (m.load src 8))

/-- `tb_msync`: nothing to do on this system. -/
def tbMsync (_address _length : UInt64) : BenchM κ Unit := pure ()

/-! ## The test program -/

/-- `TestType`. -/
inductive TestType
  | TEST_RAND_READ
  | TEST_RAND_WRITE
  | TEST_RAND_RW
deriving DecidableEq, Repr

/-- The values of the enumerators. -/
def TestType.value : TestType → UInt32
  | TEST_RAND_READ => 1
  | TEST_RAND_WRITE => 1
  | TEST_RAND_RW => 1

/-- `O_READ`, `O_WRITE` and `O_CREATE`. -/
def oRead : Nat := 1

def oWrite : Nat := 2

def oCreate : Nat := 4

/-- A call of `rand`. -/
def drawRand : BenchM κ UInt64 := fun w =>
  .ok ((rand w.state).1,
    { w with state := (rand w.state).2, events := w.events ++ [.drawn (rand w.state).1] })

/-- `offset` of a cycle: a drawn place in front of the last batch, at a multiple of eight. -/
def drawOffset (batchSize fileSize : UInt64) : BenchM κ UInt64 := do
  let offset := (← drawRand) % (fileSize - batchSize)
  pure (offset - offset % 8)

section Arms

variable (K : Kernel κ) (buf : Nat)

/-- `tb_write` from address `src`. -/
def tbWrite (fd : UInt64) (src : Nat) (length : UInt64) : BenchM κ UInt64 := fun w =>
  call (K.write fd (w.mem.bytes src length.toNat)) w

/-- `tb_read` to address `dst`. -/
def tbRead (fd : UInt64) (dst : Nat) (length : UInt64) : BenchM κ UInt64 := do
  let (result, bytes) ← call (K.read fd length)
  modify fun w => { w with mem := w.mem.copy dst bytes }
  pure result

/-- `tb_mmap`. -/
def tbMmap (target length prot flag fd offset : UInt64) : BenchM κ UInt64 := do
  let (address, bytes) ← call (K.mmap target length prot flag fd offset)
  modify fun w => { w with mem := w.mem.copy address.toNat bytes }
  pure address

/-- `tb_munmap`. -/
def tbMunmap (address length : UInt64) : BenchM κ UInt64 := fun w =>
  call (K.munmap address length (w.mem.bytes address.toNat length.toNat)) w

/-- `create_test_file`. -/
def createTestFile (fileSize : UInt64) (path : String) : BenchM κ Unit := do
  let fd ← call (K.openFile path (oRead ||| oWrite ||| oCreate))
  tbNonNeg fd "fd = tb_open(path, O_READ | O_WRITE | O_CREATE)"
  forUpTo (fileSize.toNat / bufSize) fun _ => do
    tbAssertEq (← tbWrite K fd buf (.ofNat bufSize)) (.ofNat bufSize)
      "tb_write(fd, (u8*)buf, sizeof(buf)) == sizeof(buf)"

/-! ### Through the descriptor -/

/-- `TB_ASSERT(tb_read(fd, (u8*)buf, batch_size) == batch_size)`, at the offset of the
descriptor. -/
def fileRead (fd offset batchSize : UInt64) : BenchM κ Unit := do
  emit (.read offset batchSize)
  tbAssertEq (← tbRead K fd buf batchSize) batchSize
    "tb_read(fd, (u8*)buf, batch_size) == batch_size"

/-- `TB_ASSERT(tb_write(fd, (u8*)buf, batch_size) == batch_size)`, at the offset of the
descriptor. -/
def fileWrite (fd offset batchSize : UInt64) : BenchM κ Unit := do
  emit (.write offset batchSize)
  tbAssertEq (← tbWrite K fd buf batchSize) batchSize
    "tb_write(fd, (u8*)buf, batch_size) == batch_size"

/-- The choice of a cycle between its two accesses; `t` is the value of the test type. -/
def choose (t : UInt32) (reading writing writingMixed : BenchM κ Unit) : BenchM κ Unit :=
  if t = TestType.TEST_RAND_WRITE.value then writing
  else if t = TestType.TEST_RAND_READ.value then reading
  else if t = TestType.TEST_RAND_RW.value then do
    if (← drawRand) % 2 ≠ 0 then reading else writingMixed
  else pure ()

/-- A cycle of `random_file`. -/
def fileCycle (fd batchSize fileSize : UInt64) (t : UInt32) : BenchM κ Unit := do
  let offset ← drawOffset batchSize fileSize
  tbNonNeg (← call (K.seek fd offset)) "tb_seek(fd, offset)"
  choose t (fileRead K buf fd offset batchSize) (fileWrite K buf fd offset batchSize)
    (fileWrite K buf fd offset batchSize)

/-- What `random_file` does in front of its clean-up; the result is the descriptor. -/
def fileWork (path : String) (batchSize fileSize cycleCount : UInt64) (t : UInt32) :
    BenchM κ UInt64 := do
  createTestFile K buf fileSize path
  let fd ← call (K.openFile path (oRead ||| oWrite))
  tbNonNeg fd "fd = tb_open(path, O_READ | O_WRITE)"
  forUpTo cycleCount.toNat fun _ => fileCycle K buf fd batchSize fileSize t
  pure fd

/-- The clean-up of both arms. -/
def cleanUp (path : String) (fd : UInt64) : BenchM κ Unit := do
  tbNonNeg (← call (K.close fd)) "tb_close(fd)"
  tbNonNeg (← call (K.delete path)) "tb_delete(path)"

/-- `random_file`. -/
def randomFile (path : String) (batchSize fileSize cycleCount : UInt64) (t : UInt32) :
    BenchM κ UInt64 := do
  let startTime ← call K.time
  let fd ← fileWork K buf path batchSize fileSize cycleCount t
  cleanUp K path fd
  pure ((← call K.time) - startTime)

/-! ### Through the mapping -/

/-- `copy_u64((u64*)(head_addr + offset), (u64*)buf, batch_size / sizeof(u64))`. -/
def mapRead (headAddr offset batchSize : UInt64) : BenchM κ Unit := do
  emit (.read offset batchSize)
  modify fun w =>
    { w with mem := copyU64 (headAddr + offset).toNat buf (batchSize / 8).toNat w.mem }

/-- `copy_u64((u64*)buf, (u64*)(head_addr + offset), batch_size / sizeof(u64))`. -/
def mapWrite (headAddr offset batchSize : UInt64) : BenchM κ Unit := do
  emit (.write offset batchSize)
  modify fun w =>
    { w with mem := copyU64 buf (headAddr + offset).toNat (batchSize / 8).toNat w.mem }

/-- A cycle of `random_mmap`. -/
def mapCycle (headAddr batchSize fileSize : UInt64) (t : UInt32) : BenchM κ Unit := do
  let offset ← drawOffset batchSize fileSize
  choose t (mapRead buf headAddr offset batchSize) (mapWrite buf headAddr offset batchSize) do
    mapWrite buf headAddr offset batchSize
    tbMsync (headAddr + offset) batchSize

/-- What `random_mmap` does in front of its clean-up; the result is the descriptor. -/
def mapWork (path : String) (batchSize fileSize cycleCount : UInt64) (t : UInt32) :
    BenchM κ UInt64 := do
  createTestFile K buf fileSize path
  let fd ← call (K.openFile path (oRead ||| oWrite))
  tbNonNeg fd "fd = tb_open(path, O_READ | O_WRITE)"
  let headAddr ← tbMmap K 0 fileSize 0b11 0x80 fd 0
  forUpTo cycleCount.toNat fun _ => mapCycle buf headAddr batchSize fileSize t
  tbMsync headAddr fileSize
  tbNonNeg (← tbMunmap K headAddr fileSize) "tb_munmap(head_addr, file_size)"
  pure fd

/-- `random_mmap`. -/
def randomMmap (path : String) (batchSize fileSize cycleCount : UInt64) (t : UInt32) :
    BenchM κ UInt64 := do
  let startTime ← call K.time
  let fd ← mapWork K buf path batchSize fileSize cycleCount t
  cleanUp K path fd
  pure ((← call K.time) - startTime)

end Arms

/-! ## Copying words -/

variable {m : Mem} {src dst len x : Nat}

/-- The word loop leaves everything outside of its destination. -/
theorem copyU64_of_notMem (h : x < dst ∨ dst + 8 * len ≤ x) : copyU64 src dst len m x = m x := by
  induction len generalizing m src dst with
  | zero => rfl
  | succ len ih =>
      rw [copyU64, ih (by omega)]
      exact Mem.store_of_notMem (by omega)

/-- A stored word has the bytes of the word that was loaded. -/
theorem store_load_of_mem (h : dst ≤ x) (h' : x < dst + 8) :
    m.store dst 8 (m.load src 8) x = m (src + (x - dst)) := by
  simp only [Mem.store, if_pos (show dst ≤ x ∧ x < dst + 8 from ⟨h, h'⟩)]
  have hbyte := Mem.ofNat_load_div (m := m) (a := src) (n := 8) (x := src + (x - dst)) (by omega)
    (by omega)
  rwa [Nat.add_sub_cancel_left] at hbyte

/-- Between ranges that do not overlap the word loop copies. -/
theorem copyU64_eq (h : src + 8 * len ≤ dst ∨ dst + 8 * len ≤ src) :
    copyU64 src dst len m = m.copy dst (m.bytes src (8 * len)) := by
  have hcopied : ∀ k, k < 8 * len → copyU64 src dst len m (dst + k) = m (src + k) := by
    induction len generalizing m src dst with
    | zero => exact fun k hk => absurd hk (Nat.not_lt_zero k)
    | succ len ih =>
        intro k hk
        rw [copyU64]
        rcases Nat.lt_or_ge k 8 with hfirst | hrest
        · -- the first word is behind the rest of the loop
          rw [copyU64_of_notMem (by omega), store_load_of_mem (by omega) (by omega),
            Nat.add_sub_cancel_left]
        · have hnext := @ih (m.store dst 8 (m.load src 8)) (src + 8) (dst + 8) (by omega) (k - 8)
            (by omega)
          rwa [Mem.store_of_notMem (by omega), show dst + 8 + (k - 8) = dst + k by omega,
            show src + 8 + (k - 8) = src + k by omega] at hnext
  funext x
  by_cases hx : dst ≤ x ∧ x < dst + 8 * len
  · have hbyte := hcopied (x - dst) (by omega)
    rw [Nat.add_sub_cancel' hx.1] at hbyte
    rw [hbyte, Mem.copy_bytes hx.1 hx.2]
  · rw [copyU64_of_notMem (by omega), Mem.copy_of_notMem (by rw [Mem.length_bytes]; omega)]

end RandomRw

end ParchTestbench
