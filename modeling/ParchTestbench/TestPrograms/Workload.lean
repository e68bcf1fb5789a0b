import ParchTestbench.TestPrograms.LockStep

/-!
# The random read/write benchmark: the requested workload

A test asks for reads, for writes, or for both as the drawn numbers say.  The enumerators of the
test type all have the value 1, so that the first branch of a cycle is always taken.

Main results:

- Theorem `Trace.requested_iff`: what is seen was requested exactly when writes were.
- Theorem `sameWorkload_iff`: both arms do the requested workload exactly when writes are
  requested or there is no cycle.
- Theorem `disk_serves`: a kernel with one file on a disk serves the benchmark.
-/

namespace ParchTestbench

namespace RandomRw

open Program

/-! ## Requested workloads -/

section Requests

variable {κ : Type} {K : Kernel κ} {view : κ → View} {path : String} {buf size : Nat}

/-- What is seen of a workload of the given type: a cycle draws its offset and reads, or writes;
a mixed one draws a second number and reads exactly when that is odd. -/
inductive Requested : TestType → List Event → Prop
  | nil (t : TestType) : Requested t []
  | read {n offset length : UInt64} {rest : List Event} (h : Requested .TEST_RAND_READ rest) :
      Requested .TEST_RAND_READ (.drawn n :: .read offset length :: rest)
  | write {n offset length : UInt64} {rest : List Event} (h : Requested .TEST_RAND_WRITE rest) :
      Requested .TEST_RAND_WRITE (.drawn n :: .write offset length :: rest)
  | mixedRead {n c offset length : UInt64} {rest : List Event} (hodd : c % 2 = 1)
      (h : Requested .TEST_RAND_RW rest) :
      Requested .TEST_RAND_RW (.drawn n :: .drawn c :: .read offset length :: rest)
  | mixedWrite {n c offset length : UInt64} {rest : List Event} (heven : c % 2 = 0)
      (h : Requested .TEST_RAND_RW rest) :
      Requested .TEST_RAND_RW (.drawn n :: .drawn c :: .write offset length :: rest)

theorem CycleTrace.inside {t : UInt32} {cs : List Event} (h : CycleTrace size t cs) :
    ∀ e ∈ cs, e.Inside size := by
  cases h <;> simp [Event.Inside, *]

theorem Trace.inside {t : UInt32} {n : Nat} {es : List Event} (h : Trace size t n es) :
    ∀ e ∈ es, e.Inside size := by
  induction h with
  | zero => exact fun e he => absurd he List.not_mem_nil
  | succ _ hc ih =>
      intro e he
      exact (List.mem_append.mp he).elim (ih e) (hc.inside e)

/-- The enumerators have one value, so that every cycle takes the first branch. -/
theorem CycleTrace.eq_write {t : TestType} {cs : List Event} (h : CycleTrace size t.value cs) :
    ∃ n offset length, cs = [.drawn n, .write offset length] := by
  have hvalue : t.value = TestType.TEST_RAND_WRITE.value := by cases t <;> rfl
  cases h with
  | write _ _ => exact ⟨_, _, _, rfl⟩
  | read hne _ _ => exact absurd hvalue hne
  | mixedRead hne _ _ _ => exact absurd hvalue hne
  | mixedWrite hne _ _ _ => exact absurd hvalue hne
  | none hne => exact absurd hvalue hne

theorem Requested.append {t : TestType} {es cs : List Event} (h : Requested t es)
    (hc : Requested t cs) : Requested t (es ++ cs) := by
  induction h with
  | nil => exact hc
  | read _ ih => exact .read (ih hc)
  | write _ ih => exact .write (ih hc)
  | mixedRead hodd _ ih => exact .mixedRead hodd (ih hc)
  | mixedWrite heven _ ih => exact .mixedWrite heven (ih hc)

namespace Trace

variable {t : TestType} {n : Nat} {es : List Event}

/-- Whatever type is asked for, the cycles write. -/
theorem requested_write (h : Trace size t.value n es) : Requested .TEST_RAND_WRITE es := by
  induction h with
  | zero => exact .nil _
  | succ _ hc ih =>
      obtain ⟨d, offset, length, rfl⟩ := hc.eq_write
      exact ih.append (.write (.nil _))

theorem exists_of_pos (h : Trace size t.value n es) (hpos : 0 < n) :
    ∃ d offset length rest, es = .drawn d :: .write offset length :: rest := by
  induction h with
  | zero => exact absurd hpos (Nat.lt_irrefl 0)
  | @succ n es cs h hc ih =>
      rcases Nat.eq_zero_or_pos n with rfl | hn
      · cases h
        obtain ⟨d, offset, length, rfl⟩ := hc.eq_write
        exact ⟨d, offset, length, [], rfl⟩
      · obtain ⟨d, offset, length, rest, rfl⟩ := ih hn
        exact ⟨d, offset, length, rest ++ cs, rfl⟩

/-- What is seen was requested exactly when writes were, or when there is nothing to see. -/
theorem requested_iff (h : Trace size t.value n es) :
    Requested t es ↔ t = .TEST_RAND_WRITE ∨ n = 0 := by
  constructor
  · intro hrequested
    rcases Nat.eq_zero_or_pos n with hzero | hpos
    · exact Or.inr hzero
    · obtain ⟨d, offset, length, rest, rfl⟩ := h.exists_of_pos hpos
      cases hrequested
      exact Or.inl rfl
  · rintro (rfl | rfl)
    · exact h.requested_write
    · cases h
      exact .nil _

end Trace

/-- Sizes that the benchmark is made for. -/
structure Sizes (batchSize fileSize : UInt64) : Prop where
  file_dvd : bufSize ∣ fileSize.toNat
  batch_dvd : 8 ∣ batchSize.toNat
  batch_le : batchSize.toNat ≤ bufSize
  batch_lt : batchSize.toNat < fileSize.toNat

/-- Started alike, both arms return; in front of their clean-up they have made the same
accesses, all of them inside the file and those that were requested, and the file and the buffer
are the same. -/
structure SameWorkload (K : Kernel κ) (view : κ → View) (path : String) (buf : Nat)
    (batchSize fileSize cycleCount : UInt64) (t : TestType) (w : Bench κ) : Prop where
  file_returns : ∃ r v, randomFile K buf path batchSize fileSize cycleCount t.value w = .ok (r, v)
  map_returns : ∃ r v, randomMmap K buf path batchSize fileSize cycleCount t.value w = .ok (r, v)
  work : ∃ fd fd' a b es, fileWork K buf path batchSize fileSize cycleCount t.value w =
      .ok (fd, a) ∧
    mapWork K buf path batchSize fileSize cycleCount t.value w = .ok (fd', b) ∧
    SameEnd view buf a b ∧ a.events = w.events ++ es ∧ (∀ e ∈ es, e.Inside fileSize.toNat) ∧
    Requested t es

/-- All that is left of the claim to a workload is what was requested. -/
theorem sameWorkload_iff_requested {batchSize fileSize : UInt64}
    (hserves : Serves K view path buf fileSize.toNat) (hsizes : Sizes batchSize fileSize)
    (cycleCount : UInt64) (t : TestType) (w : Bench κ) :
    ∃ es, Trace fileSize.toNat t.value cycleCount.toNat es ∧
      (SameWorkload K view path buf batchSize fileSize cycleCount t w ↔ Requested t es) := by
  have hagree := arms_agree hserves hsizes.file_dvd hsizes.batch_dvd hsizes.batch_le
    hsizes.batch_lt cycleCount t.value
  obtain ⟨fd, a, b, es, f, p, hfile, hmap, hsame, hevents, htrace, -⟩ := hagree w
  refine ⟨es, htrace, fun h => ?_, fun hrequested => ?_⟩
  · obtain ⟨fd', fd'', a', b', es', hfile', -, -, hevents', -, hrequested⟩ := h.work
    obtain ⟨-, rfl⟩ := Prod.mk.inj (Except.ok.inj (hfile.symm.trans hfile'))
    rwa [List.append_cancel_left (hevents.symm.trans hevents')]
  · -- the time is taken in front of the work
    have htime : call K.time w =
        .ok ((K.time w.kernel).1, { w with kernel := (K.time w.kernel).2 }) := rfl
    obtain ⟨fd', a', b', -, f', p', hfile', hmap', -, -, -, hf, hp, hf', hp'⟩ :=
      hagree { w with kernel := (K.time w.kernel).2 }
    obtain ⟨k₁, hclean⟩ := hserves.cleanUp hf hp
    obtain ⟨k₂, hclean'⟩ := hserves.cleanUp hf' hp'
    have hreturns : ∃ r v, randomFile K buf path batchSize fileSize cycleCount t.value w =
        .ok (r, v) :=
      ⟨_, _, (bind_eq_ok htime).trans ((bind_eq_ok hfile').trans ((bind_eq_ok hclean).trans rfl))⟩
    have hreturns' : ∃ r v, randomMmap K buf path batchSize fileSize cycleCount t.value w =
        .ok (r, v) :=
      ⟨_, _, (bind_eq_ok htime).trans ((bind_eq_ok hmap').trans ((bind_eq_ok hclean').trans rfl))⟩
    exact ⟨hreturns, hreturns', fd, fd, a, b, es, hfile, hmap, hsame, hevents, htrace.inside,
      hrequested⟩

/-- Both arms do the requested workload exactly when writes are requested or there is no
cycle. -/
theorem sameWorkload_iff {batchSize fileSize : UInt64}
    (hserves : Serves K view path buf fileSize.toNat) (hsizes : Sizes batchSize fileSize)
    (cycleCount : UInt64) (t : TestType) (w : Bench κ) :
    SameWorkload K view path buf batchSize fileSize cycleCount t w ↔
      t = .TEST_RAND_WRITE ∨ cycleCount.toNat = 0 := by
  obtain ⟨es, htrace, hiff⟩ := sameWorkload_iff_requested hserves hsizes cycleCount t w
  rw [hiff, htrace.requested_iff]

end Requests

/-! ## A kernel with one file -/

/-- The state of a kernel with one file: the number of descriptors opened so far, the last one
with its offset, and the last mapping. -/
structure Disk where
  file : Option File
  opened : Nat
  current : Option (UInt64 × Nat)
  mapping : Option (UInt64 × Nat)
  clock : UInt64

def Disk.view (d : Disk) : View := ⟨d.file, d.current, d.mapping⟩

/-- A disk with no file. -/
def Disk.empty : Disk := ⟨none, 0, none, none, 0⟩

/-- An error value: the negated number. -/
def errorValue (number : UInt64) : UInt64 := 0 - number

/-- The calls of a kernel whose only file is `test_file`; descriptors start at 3, mappings at
`0x10000000`. -/
def disk : Kernel Disk where
  openFile path flags d :=
    if path = "test_file" ∧ (d.file.isSome ∨ flags &&& oCreate ≠ 0) then
      (.ofNat (3 + d.opened % 1024), { d with
        file := some (d.file.getD .empty)
        opened := d.opened + 1
        current := some (.ofNat (3 + d.opened % 1024), 0) })
    else (errorValue 2, d)
  close fd d :=
    if d.current.map Prod.fst = some fd then (0, { d with current := none })
    else (errorValue 9, d)
  delete path d :=
    if path = "test_file" ∧ d.file.isSome then (0, { d with file := none })
    else (errorValue 2, d)
  seek fd offset d :=
    if d.current.map Prod.fst = some fd then (0, { d with current := some (fd, offset.toNat) })
    else (errorValue 9, d)
  write fd bytes d :=
    match d.file, d.current with
    | some f, some (fd', p) =>
        if fd' = fd then
          (.ofNat bytes.length, { d with
            file := some (f.write p bytes), current := some (fd, p + bytes.length) })
        else (errorValue 9, d)
    | _, _ => (errorValue 9, d)
  read fd length d :=
    match d.file, d.current with
    | some f, some (fd', p) =>
        if fd' = fd then
          let n := min length.toNat (f.size - p)
          ((.ofNat n, f.data.bytes p n), { d with current := some (fd, p + n) })
        else ((errorValue 9, []), d)
    | _, _ => ((errorValue 9, []), d)
  mmap _ length _ _ _ _ d :=
    match d.file with
    | some f => ((0x10000000, f.data.bytes 0 length.toNat),
        { d with mapping := some (0x10000000, length.toNat) })
    | none => ((errorValue 9, []), d)
  munmap address length bytes d :=
    if d.mapping = some (address, length.toNat) then
      (0, { d with file := d.file.map (·.write 0 bytes), mapping := none })
    else (errorValue 22, d)
  time d := (d.clock, { d with clock := d.clock + 1 })

variable {buf size : Nat}

theorem nonNeg_descriptor (n : Nat) : NonNeg (.ofNat (3 + n % 1024)) := by
  unfold NonNeg
  rw [UInt64.toNat_ofNat']
  omega

theorem nonNeg_zero : NonNeg 0 := by decide

/-- This kernel serves the benchmark, with a buffer in front of the mapping that has room. -/
theorem disk_serves (hbuf : buf + bufSize ≤ 0x10000000) (hsize : size ≤ 2 ^ 40) :
    Serves disk Disk.view "test_file" buf size where
  create d := ⟨_, _, if_pos ⟨rfl, Or.inr (by decide)⟩, nonNeg_descriptor _, rfl⟩
  openFile d f hf := by
    have hfile : d.file = some f := hf
    refine ⟨_, _, if_pos ⟨rfl, Or.inl (by rw [hfile]; rfl)⟩, nonNeg_descriptor _, ?_⟩
    simp only [Disk.view, hfile, Option.getD_some]
  seek d f fd p off _ hp _ := by
    have hcurrent : d.current = some (fd, p) := hp
    exact ⟨0, _, if_pos (by rw [hcurrent]; rfl), nonNeg_zero, rfl⟩
  write d f fd p bytes hf hp _ := by
    have hfile : d.file = some f := hf
    have hcurrent : d.current = some (fd, p) := hp
    refine ⟨{ d with file := some (f.write p bytes), current := some (fd, p + bytes.length) }, ?_,
      rfl⟩
    simp only [disk, hfile, hcurrent, if_true]
  read d f fd p length hf hp hle := by
    have hfile : d.file = some f := hf
    have hcurrent : d.current = some (fd, p) := hp
    refine ⟨{ d with current := some (fd, p + length.toNat) }, ?_, rfl⟩
    have hmin : min length.toNat (f.size - p) = length.toNat := by omega
    simp only [disk, hfile, hcurrent, if_true, hmin, UInt64.ofNat_toNat]
  mmap d f fd p length hf hp hlen hle := by
    have hfile : d.file = some f := hf
    refine ⟨0x10000000, { d with mapping := some (0x10000000, size) }, ?_, ?_, ?_, rfl⟩
    · simp only [disk, hfile, hlen]
    · show 0x10000000 + size ≤ 2 ^ 64
      omega
    · exact Or.inl hbuf
  munmap d f address length bytes hf hm hlen := by
    have hfile : d.file = some f := hf
    refine ⟨0, _, if_pos hm, nonNeg_zero, ?_⟩
    simp only [Disk.view, hfile, Option.map_some]
  close d fd p hp := by
    have hcurrent : d.current = some (fd, p) := hp
    exact ⟨0, _, if_pos (by rw [hcurrent]; rfl), nonNeg_zero, rfl⟩
  delete d f hf := by
    have hfile : d.file = some f := hf
    exact ⟨0, _, if_pos ⟨rfl, by rw [hfile]; rfl⟩, nonNeg_zero, rfl⟩

/-- The sizes of the smallest test: 4096 bytes of a file of a mebibyte. -/
theorem sample_sizes : Sizes 4096 1048576 := ⟨by decide, by decide, by decide, by decide⟩

/-- The process as it starts, on a disk with no file. -/
def Bench.start : Bench Disk := ⟨fun _ => 0, .start, .empty, []⟩

theorem sameWorkload_iff_sample :
    SameWorkload disk Disk.view "test_file" 0x20000 4096 1048576 25600 .TEST_RAND_WRITE .start ↔
      TestType.TEST_RAND_WRITE = .TEST_RAND_WRITE ∨ (25600 : UInt64).toNat = 0 :=
  sameWorkload_iff (disk_serves (by decide) (by decide)) sample_sizes _ _ _

/-- A test that asks for one read: the benchmark writes. -/
theorem not_sameWorkload :
    ¬ SameWorkload disk Disk.view "test_file" 0x20000 4096 1048576 1 .TEST_RAND_READ .start := by
  have hserves : Serves disk Disk.view "test_file" 0x20000 (1048576 : UInt64).toNat :=
    disk_serves (by decide) (by decide)
  obtain ⟨es, htrace, hiff⟩ :=
    sameWorkload_iff_requested hserves sample_sizes 1 .TEST_RAND_READ .start
  rw [hiff, htrace.requested_iff]
  decide

end RandomRw

end ParchTestbench
