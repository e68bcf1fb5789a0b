import ParchTestbench.TestPrograms.Benchmark

/-!
# The random read/write benchmark: the arms in step

What the arms need of the kernel is what a file, its last opened descriptor and a shared mapping
do.  Under it the loops of the two arms go in step: they draw the same numbers, access the same
ranges, and leave the same file and the same buffer.

Main results:

- Theorems `InStep.write` and `InStep.read`: an access of one arm is that of the other.
- Theorem `InStep.cycles`: so are their loops.
- Theorem `arms_agree`: the arms agree, whatever the value of the test type.
-/

namespace ParchTestbench

namespace RandomRw

open Program

/-! ## Files -/

/-- A file: its size and its bytes. -/
structure File where
  size : Nat
  data : Mem

/-- The empty file. -/
def File.empty : File := ⟨0, fun _ => 0⟩

/-- The file after a write of some bytes. -/
def File.write (f : File) (off : Nat) (bytes : List UInt8) : File :=
  ⟨max f.size (off + bytes.length), f.data.copy off bytes⟩

/-- What the benchmark knows of the kernel: the file under its path, the descriptor that was
opened last with its offset, and the mapping that was made last. -/
structure View where
  file : Option File
  current : Option (UInt64 × Nat)
  mapping : Option (UInt64 × Nat)

/-- The kernel serves the benchmark: on the file under `path` the calls do what they are for.
The mapping of `fileSize` bytes finds a place apart from the buffer at `buf`. -/
structure Serves {κ : Type} (K : Kernel κ) (view : κ → View) (path : String) (buf fileSize : Nat) :
    Prop where
  create : ∀ k, ∃ fd k', K.openFile path (oRead ||| oWrite ||| oCreate) k = (fd, k') ∧
    NonNeg fd ∧ view k' = { view k with
      file := some ((view k).file.getD .empty), current := some (fd, 0) }
  openFile : ∀ k f, (view k).file = some f →
    ∃ fd k', K.openFile path (oRead ||| oWrite) k = (fd, k') ∧
      NonNeg fd ∧ view k' = { view k with current := some (fd, 0) }
  seek : ∀ k f fd p off, (view k).file = some f → (view k).current = some (fd, p) →
    off.toNat ≤ f.size → ∃ r k', K.seek fd off k = (r, k') ∧
      NonNeg r ∧ view k' = { view k with current := some (fd, off.toNat) }
  write : ∀ k f fd p bytes, (view k).file = some f → (view k).current = some (fd, p) →
    bytes.length < 2 ^ 64 → ∃ k', K.write fd bytes k = (.ofNat bytes.length, k') ∧
      view k' = { view k with
        file := some (f.write p bytes), current := some (fd, p + bytes.length) }
  read : ∀ k f fd p length, (view k).file = some f → (view k).current = some (fd, p) →
    p + length.toNat ≤ f.size →
    ∃ k', K.read fd length k = ((length, f.data.bytes p length.toNat), k') ∧
      view k' = { view k with current := some (fd, p + length.toNat) }
  mmap : ∀ k f fd p length, (view k).file = some f → (view k).current = some (fd, p) →
    length.toNat = fileSize → fileSize ≤ f.size →
    ∃ address k', K.mmap 0 length 0b11 0x80 fd 0 k =
        ((address, f.data.bytes 0 fileSize), k') ∧
      address.toNat + fileSize ≤ 2 ^ 64 ∧
      (buf + bufSize ≤ address.toNat ∨ address.toNat + fileSize ≤ buf) ∧
      view k' = { view k with mapping := some (address, fileSize) }
  munmap : ∀ k f address length bytes, (view k).file = some f →
    (view k).mapping = some (address, length.toNat) → bytes.length = length.toNat →
    ∃ r k', K.munmap address length bytes k = (r, k') ∧
      NonNeg r ∧ view k' = { view k with file := some (f.write 0 bytes), mapping := none }
  close : ∀ k fd p, (view k).current = some (fd, p) →
    ∃ r k', K.close fd k = (r, k') ∧ NonNeg r ∧ view k' = { view k with current := none }
  delete : ∀ k f, (view k).file = some f →
    ∃ r k', K.delete path k = (r, k') ∧ NonNeg r ∧ view k' = { view k with file := none }

/-! ## What the arms have in common -/

/-- The access lies inside a file of `size` bytes. -/
def Event.Inside (size : Nat) : Event → Prop
  | drawn _ => True
  | read offset length => offset.toNat + length.toNat ≤ size
  | write offset length => offset.toNat + length.toNat ≤ size

/-- The two arms have come to `a` and `b` from one start with the same events, and left the same
file, buffer and generator. -/
structure SameEnd {κ : Type} (view : κ → View) (buf : Nat) (a b : Bench κ) : Prop where
  events_eq : a.events = b.events
  file_eq : (view a.kernel).file = (view b.kernel).file
  buffer_eq : a.mem.bytes buf bufSize = b.mem.bytes buf bufSize
  state_eq : a.state = b.state

/-! ## One call -/

variable {κ : Type} {K : Kernel κ} {view : κ → View} {path : String} {buf size : Nat}
  {w a b : Bench κ} {k' : κ} {r fd : UInt64} {operation : String}

theorem call_eq {α : Type} {f : κ → α × κ} {x : α} (hf : f w.kernel = (x, k')) :
    call f w = .ok (x, { w with kernel := k' }) := by
  unfold call
  rw [hf]

theorem tbNonNeg_eq (h : NonNeg r) : tbNonNeg r operation w = .ok ((), w) := by
  unfold tbNonNeg doAssert
  rw [if_pos h]
  rfl

theorem tbAssertEq_self : tbAssertEq r r operation w = .ok ((), w) := by
  unfold tbAssertEq doAssert
  rw [if_pos rfl]
  rfl

/-- The steps of both arms up to the descriptor that they work with: the file has at least the
requested size. -/
theorem Serves.prepare (h : Serves K view path buf size) {fileSize : UInt64}
    (hdvd : bufSize ∣ fileSize.toNat) (w : Bench κ) :
    ∃ w₁ fd k f, createTestFile K buf fileSize path w = .ok ((), w₁) ∧
      K.openFile path (oRead ||| oWrite) w₁.kernel = (fd, k) ∧ NonNeg fd ∧
      w₁ = { w with kernel := w₁.kernel } ∧ (view k).file = some f ∧
      (view k).current = some (fd, 0) ∧ fileSize.toNat ≤ f.size := by
  obtain ⟨fd, k₁, hopen, hfd, hview⟩ := h.create w.kernel
  have hloop : Outcome (forUpTo (fileSize.toNat / bufSize) fun _ => do
      tbAssertEq (← tbWrite K fd buf (.ofNat bufSize)) (.ofNat bufSize)
        "tb_write(fd, (u8*)buf, sizeof(buf)) == sizeof(buf)") { w with kernel := k₁ }
      (fun _ (v : Bench κ) => v = { w with kernel := v.kernel } ∧
        ∃ f, (view v.kernel).file = some f ∧
        (view v.kernel).current = some (fd, bufSize * (fileSize.toNat / bufSize)) ∧
        bufSize * (fileSize.toNat / bufSize) ≤ f.size) fun _ => False := by
    refine Outcome.forUpTo (I := fun n (v : Bench κ) => v = { w with kernel := v.kernel } ∧
      ∃ f, (view v.kernel).file = some f ∧ (view v.kernel).current = some (fd, bufSize * n) ∧
        bufSize * n ≤ f.size) ⟨rfl, _, by rw [hview], by rw [hview]; rfl, Nat.zero_le _⟩ ?_
    rintro n v - ⟨hv, f, hfile, hcurrent, hle⟩
    have hlen : (v.mem.bytes buf (UInt64.ofNat bufSize).toNat).length = bufSize :=
      Mem.length_bytes
    obtain ⟨k₂, hwrite, hview₂⟩ := h.write v.kernel f fd _
      (v.mem.bytes buf (UInt64.ofNat bufSize).toNat) hfile hcurrent (by rw [hlen]; decide)
    rw [hlen] at hwrite hview₂
    have hrun : tbWrite K fd buf (.ofNat bufSize) v =
        .ok (.ofNat bufSize, { v with kernel := k₂ }) := call_eq hwrite
    refine Outcome.bind_ok hrun (Outcome.of_eq_ok tbAssertEq_self ?_)
    refine ⟨by rw [hv], f.write (bufSize * n) (v.mem.bytes buf (UInt64.ofNat bufSize).toNat),
      by rw [hview₂], by rw [hview₂, Nat.mul_succ], ?_⟩
    show bufSize * (n + 1) ≤ max f.size (bufSize * n + _)
    rw [hlen, Nat.mul_succ]
    exact le_max_right _ _
  obtain ⟨_, w₁, hrun, hw₁, f, hfile, hcurrent, hle⟩ := hloop.exists_ok
  obtain ⟨fd', k', hopen', hfd', hview'⟩ := h.openFile w₁.kernel f hfile
  refine ⟨w₁, fd', k', f, ?_, hopen', hfd', hw₁, by rw [hview', hfile], by rw [hview'], ?_⟩
  · unfold createTestFile
    rw [bind_eq_ok (call_eq hopen), bind_eq_ok (tbNonNeg_eq hfd)]
    exact hrun
  · rwa [Nat.mul_div_cancel' hdvd] at hle

/-! ## The loops in step -/

/-- The mapping of the file `f₀` at `head` and the buffer lie apart in the address space. -/
structure Placed (buf size : Nat) (f₀ : File) (head : UInt64) : Prop where
  size_le : size ≤ f₀.size
  head_le : head.toNat + size ≤ 2 ^ 64
  apart : buf + bufSize ≤ head.toNat ∨ head.toNat + size ≤ buf

/-- The arms go in step: the file `f` of the one, whose descriptor is at `p`, is what the
mapping of the other holds, and all other memory is the same. -/
structure InStep (view : κ → View) (size : Nat) (f₀ : File) (fd head : UInt64) (k₀ : κ) (f : File)
    (p : Nat) (a b : Bench κ) : Prop where
  state_eq : a.state = b.state
  events_eq : a.events = b.events
  mem_eq : ∀ x, x < head.toNat ∨ head.toNat + size ≤ x → a.mem x = b.mem x
  kernel_eq : b.kernel = k₀
  file_eq : (view a.kernel).file = some f
  current_eq : (view a.kernel).current = some (fd, p)
  size_eq : f.size = f₀.size
  tail_eq : ∀ x, size ≤ x → f.data x = f₀.data x
  mapped_eq : ∀ x, x < size → b.mem (head.toNat + x) = f.data x

namespace InStep

variable {f₀ f : File} {head offset length : UInt64} {k₀ : κ} {p : Nat}

/-- What the mapping holds, written back to the file it was made of. -/
theorem write_back (h : InStep view size f₀ fd head k₀ f p a b)
    (hplaced : Placed buf size f₀ head) : f₀.write 0 (b.mem.bytes head.toNat size) = f := by
  have hlen : (b.mem.bytes head.toNat size).length = size := Mem.length_bytes
  have hle := hplaced.size_le
  have hsize : max f₀.size (0 + (b.mem.bytes head.toNat size).length) = f.size := by
    rw [hlen, h.size_eq]
    omega
  have hdata : f₀.data.copy 0 (b.mem.bytes head.toNat size) = f.data := by
    funext x
    rcases Nat.lt_or_ge x size with hlt | hge
    · rw [Mem.copy_bytes (Nat.zero_le _) (by omega), Nat.sub_zero, h.mapped_eq x hlt]
    · rw [Mem.copy_of_notMem (by omega), h.tail_eq x hge]
  unfold File.write
  rw [hsize, hdata]

/-- Both arms see the same event. -/
theorem emit (h : InStep view size f₀ fd head k₀ f p a b) (e : Event) :
    InStep view size f₀ fd head k₀ f p { a with events := a.events ++ [e] }
      { b with events := b.events ++ [e] } :=
  { h with events_eq := congrArg (· ++ [e]) h.events_eq }

/-- Both arms draw the same number. -/
theorem draw (h : InStep view size f₀ fd head k₀ f p a b) :
    ∃ n a' b', drawRand a = .ok (n, a') ∧ drawRand b = .ok (n, b') ∧
      a'.events = a.events ++ [.drawn n] ∧ InStep view size f₀ fd head k₀ f p a' b' := by
  have hstate := h.state_eq
  refine ⟨(rand a.state).1, _, { b with
    state := (rand a.state).2, events := b.events ++ [.drawn (rand a.state).1] }, rfl, ?_, rfl,
    { h.emit (.drawn (rand a.state).1) with state_eq := rfl }⟩
  unfold drawRand
  rw [hstate]

/-- The buffer is the same in both arms. -/
theorem buffer (h : InStep view size f₀ fd head k₀ f p a b) (hplaced : Placed buf size f₀ head)
    {x : Nat} (hx : buf ≤ x) (hx' : x < buf + bufSize) : a.mem x = b.mem x := by
  have hapart := hplaced.apart
  exact h.mem_eq x (by omega)

theorem buffer_bytes (h : InStep view size f₀ fd head k₀ f p a b)
    (hplaced : Placed buf size f₀ head) : a.mem.bytes buf bufSize = b.mem.bytes buf bufSize :=
  List.map_congr_left fun k hk => by
    have hlt := List.mem_range.mp hk
    exact h.buffer hplaced (by omega) (by omega)

/-- The address of an access in the mapping. -/
theorem toNat_address (hplaced : Placed buf size f₀ head)
    (hin : offset.toNat + length.toNat < size) :
    (head + offset).toNat = head.toNat + offset.toNat := by
  have hle := hplaced.head_le
  rw [UInt64.toNat_add, Nat.mod_eq_of_lt (by omega)]

/-- The words of a batch are its bytes. -/
theorem words (hdvd : 8 ∣ length.toNat) : 8 * (length / 8).toNat = length.toNat := by
  rw [UInt64.toNat_div]
  exact Nat.mul_div_cancel' hdvd

/-- Both arms write the batch to the file. -/
theorem write (h : InStep view size f₀ fd head k₀ f offset.toNat a b)
    (hserves : Serves K view path buf size) (hplaced : Placed buf size f₀ head)
    (hdvd : 8 ∣ length.toNat) (hlen : length.toNat ≤ bufSize)
    (hin : offset.toNat + length.toNat < size) :
    ∃ a' b' f' p', fileWrite K buf fd offset length a = .ok ((), a') ∧
      mapWrite buf head offset length b = .ok ((), b') ∧
      a'.events = a.events ++ [.write offset length] ∧
      InStep view size f₀ fd head k₀ f' p' a' b' := by
  have hapart := hplaced.apart
  have hsize := hplaced.size_le
  have hbytes : (a.mem.bytes buf length.toNat).length = length.toNat := Mem.length_bytes
  obtain ⟨k₁, hwrite, hview⟩ := hserves.write a.kernel f fd offset.toNat
    (a.mem.bytes buf length.toNat) h.file_eq h.current_eq (by rw [hbytes]; exact length.toNat_lt)
  rw [hbytes, UInt64.ofNat_toNat] at hwrite
  have hrun : tbWrite K fd buf length { a with events := a.events ++ [.write offset length] } =
      .ok (length, { a with events := a.events ++ [.write offset length], kernel := k₁ }) :=
    call_eq hwrite
  have hcopy : copyU64 buf (head + offset).toNat (length / 8).toNat b.mem =
      b.mem.copy (head.toNat + offset.toNat) (b.mem.bytes buf length.toNat) := by
    rw [toNat_address hplaced hin, copyU64_eq (by rw [words hdvd]; omega), words hdvd]
  have hlen' : (b.mem.bytes buf length.toNat).length = length.toNat := Mem.length_bytes
  refine ⟨{ a with events := a.events ++ [.write offset length], kernel := k₁ },
    { b with events := b.events ++ [.write offset length],
             mem := b.mem.copy (head.toNat + offset.toNat) (b.mem.bytes buf length.toNat) },
    f.write offset.toNat (a.mem.bytes buf length.toNat), _, ?_, ?_, rfl,
    ⟨h.state_eq, congrArg (· ++ [.write offset length]) h.events_eq, fun x hx => ?_,
      h.kernel_eq, by rw [hview], by rw [hview], ?_, fun x hx => ?_, fun x hx => ?_⟩⟩
  · unfold fileWrite
    exact (bind_eq_ok rfl).trans ((bind_eq_ok hrun).trans tbAssertEq_self)
  · rw [← hcopy]
    rfl
  · show a.mem x = b.mem.copy _ _ x
    rw [Mem.copy_of_notMem (by omega)]
    exact h.mem_eq x hx
  · show max f.size (offset.toNat + _) = f₀.size
    rw [hbytes, h.size_eq]
    omega
  · show f.data.copy _ _ x = f₀.data x
    rw [Mem.copy_of_notMem (by omega)]
    exact h.tail_eq x hx
  · show b.mem.copy _ _ (head.toNat + x) = f.data.copy _ _ x
    by_cases hmem : offset.toNat ≤ x ∧ x < offset.toNat + length.toNat
    · rw [Mem.copy_bytes (by omega) (by omega), Mem.copy_bytes hmem.1 hmem.2,
        show head.toNat + x - (head.toNat + offset.toNat) = x - offset.toNat by omega]
      exact (h.buffer hplaced (by omega) (by omega)).symm
    · rw [Mem.copy_of_notMem (by omega), Mem.copy_of_notMem (by omega)]
      exact h.mapped_eq x hx

/-- Both arms read the batch from the file. -/
theorem read (h : InStep view size f₀ fd head k₀ f offset.toNat a b)
    (hserves : Serves K view path buf size) (hplaced : Placed buf size f₀ head)
    (hdvd : 8 ∣ length.toNat) (hlen : length.toNat ≤ bufSize)
    (hin : offset.toNat + length.toNat < size) :
    ∃ a' b' f' p', fileRead K buf fd offset length a = .ok ((), a') ∧
      mapRead buf head offset length b = .ok ((), b') ∧
      a'.events = a.events ++ [.read offset length] ∧
      InStep view size f₀ fd head k₀ f' p' a' b' := by
  have hapart := hplaced.apart
  have hsize := hplaced.size_le
  have hsame := h.size_eq
  obtain ⟨k₁, hread, hview⟩ := hserves.read a.kernel f fd offset.toNat length h.file_eq
    h.current_eq (by omega)
  have hrun : tbRead K fd buf length { a with events := a.events ++ [.read offset length] } =
      .ok (length, { a with
        events := a.events ++ [.read offset length], kernel := k₁,
        mem := a.mem.copy buf (f.data.bytes offset.toNat length.toNat) }) := by
    have hcall : call (K.read fd length) { a with events := a.events ++ [.read offset length] } =
        .ok ((length, f.data.bytes offset.toNat length.toNat),
          { a with events := a.events ++ [.read offset length], kernel := k₁ }) := call_eq hread
    exact (bind_eq_ok hcall).trans rfl
  have hcopy : copyU64 (head + offset).toNat buf (length / 8).toNat b.mem =
      b.mem.copy buf (b.mem.bytes (head.toNat + offset.toNat) length.toNat) := by
    rw [toNat_address hplaced hin, copyU64_eq (by rw [words hdvd]; omega), words hdvd]
  have hbytes : (f.data.bytes offset.toNat length.toNat).length = length.toNat := Mem.length_bytes
  have hbytes' : (b.mem.bytes (head.toNat + offset.toNat) length.toNat).length = length.toNat :=
    Mem.length_bytes
  refine ⟨{ a with
      events := a.events ++ [.read offset length], kernel := k₁,
      mem := a.mem.copy buf (f.data.bytes offset.toNat length.toNat) },
    { b with
      events := b.events ++ [.read offset length],
      mem := b.mem.copy buf (b.mem.bytes (head.toNat + offset.toNat) length.toNat) },
    f, _, ?_, ?_, rfl,
    ⟨h.state_eq, congrArg (· ++ [.read offset length]) h.events_eq, fun x hx => ?_,
      h.kernel_eq, by rw [hview, h.file_eq], by rw [hview], hsame, h.tail_eq, fun x hx => ?_⟩⟩
  · unfold fileRead
    exact (bind_eq_ok rfl).trans ((bind_eq_ok hrun).trans tbAssertEq_self)
  · rw [← hcopy]
    rfl
  · show a.mem.copy _ _ x = b.mem.copy _ _ x
    by_cases hmem : buf ≤ x ∧ x < buf + length.toNat
    · rw [Mem.copy_bytes hmem.1 hmem.2, Mem.copy_bytes hmem.1 hmem.2,
        ← h.mapped_eq _ (by omega), Nat.add_assoc]
    · rw [Mem.copy_of_notMem (by omega), Mem.copy_of_notMem (by omega)]
      exact h.mem_eq x hx
  · show b.mem.copy _ _ (head.toNat + x) = f.data x
    rw [Mem.copy_of_notMem (by omega)]
    exact h.mapped_eq x hx

end InStep

/-- What is seen of one cycle, by the value of the test type. -/
inductive CycleTrace (size : Nat) (t : UInt32) : List Event → Prop
  | write {n offset length : UInt64} (ht : t = TestType.TEST_RAND_WRITE.value)
      (hin : offset.toNat + length.toNat ≤ size) :
      CycleTrace size t [.drawn n, .write offset length]
  | read {n offset length : UInt64} (hwrite : t ≠ TestType.TEST_RAND_WRITE.value)
      (ht : t = TestType.TEST_RAND_READ.value) (hin : offset.toNat + length.toNat ≤ size) :
      CycleTrace size t [.drawn n, .read offset length]
  | mixedRead {n c offset length : UInt64} (hwrite : t ≠ TestType.TEST_RAND_WRITE.value)
      (ht : t = TestType.TEST_RAND_RW.value) (hodd : c % 2 ≠ 0)
      (hin : offset.toNat + length.toNat ≤ size) :
      CycleTrace size t [.drawn n, .drawn c, .read offset length]
  | mixedWrite {n c offset length : UInt64} (hwrite : t ≠ TestType.TEST_RAND_WRITE.value)
      (ht : t = TestType.TEST_RAND_RW.value) (heven : ¬ c % 2 ≠ 0)
      (hin : offset.toNat + length.toNat ≤ size) :
      CycleTrace size t [.drawn n, .drawn c, .write offset length]
  | none {n : UInt64} (hwrite : t ≠ TestType.TEST_RAND_WRITE.value) :
      CycleTrace size t [.drawn n]

/-- What is seen of some cycles. -/
inductive Trace (size : Nat) (t : UInt32) : Nat → List Event → Prop
  | zero : Trace size t 0 []
  | succ {n : Nat} {es cs : List Event} (h : Trace size t n es) (hc : CycleTrace size t cs) :
      Trace size t (n + 1) (es ++ cs)

namespace InStep

variable {f₀ f : File} {head offset batch : UInt64} {k₀ : κ} {p : Nat} {t : UInt32}

/-- The drawn offset leaves room for the batch. -/
theorem offset_lt {fileSize n : UInt64} (hlt : batch.toNat < fileSize.toNat) :
    (n % (fileSize - batch) - n % (fileSize - batch) % 8).toNat + batch.toNat <
      fileSize.toNat := by
  have hsub : (fileSize - batch).toNat = fileSize.toNat - batch.toNat :=
    UInt64.toNat_sub_of_le _ _ (UInt64.le_iff_toNat_le.mpr hlt.le)
  have hmod : (n % (fileSize - batch)).toNat < fileSize.toNat - batch.toNat := by
    rw [UInt64.toNat_mod, hsub]
    exact Nat.mod_lt _ (by omega)
  have hround : (n % (fileSize - batch) % 8).toNat ≤ (n % (fileSize - batch)).toNat := by
    rw [UInt64.toNat_mod (n % (fileSize - batch))]
    exact Nat.mod_le _ _
  rw [UInt64.toNat_sub_of_le _ _ (UInt64.le_iff_toNat_le.mpr hround)]
  omega

/-- Both arms draw the same offset. -/
theorem drawOffset {fileSize : UInt64} (h : InStep view size f₀ fd head k₀ f p a b)
    (hlt : batch.toNat < fileSize.toNat) :
    ∃ n offset a' b', RandomRw.drawOffset batch fileSize a = .ok (offset, a') ∧
      RandomRw.drawOffset batch fileSize b = .ok (offset, b') ∧
      a'.events = a.events ++ [.drawn n] ∧ offset.toNat + batch.toNat < fileSize.toNat ∧
      InStep view size f₀ fd head k₀ f p a' b' := by
  obtain ⟨n, a', b', ha, hb, hevents, hstep⟩ := h.draw
  exact ⟨n, _, a', b', bind_eq_ok ha, bind_eq_ok hb, hevents, offset_lt hlt, hstep⟩

/-- The access of a cycle. -/
theorem choose (h : InStep view size f₀ fd head k₀ f offset.toNat a b)
    (hserves : Serves K view path buf size) (hplaced : Placed buf size f₀ head)
    (hdvd : 8 ∣ batch.toNat) (hlen : batch.toNat ≤ bufSize)
    (hin : offset.toNat + batch.toNat < size) (t : UInt32) :
    ∃ a' b' f' p' cs,
      RandomRw.choose t (fileRead K buf fd offset batch) (fileWrite K buf fd offset batch)
        (fileWrite K buf fd offset batch) a = .ok ((), a') ∧
      RandomRw.choose t (mapRead buf head offset batch) (mapWrite buf head offset batch) (do
        mapWrite buf head offset batch
        tbMsync (head + offset) batch) b = .ok ((), b') ∧
      a'.events = a.events ++ cs ∧ (∀ n, CycleTrace size t (.drawn n :: cs)) ∧
      InStep view size f₀ fd head k₀ f' p' a' b' := by
  unfold RandomRw.choose
  split
  · rename_i hwrite
    obtain ⟨a', b', f', p', ha, hb, hevents, hstep⟩ := h.write hserves hplaced hdvd hlen hin
    exact ⟨a', b', f', p', _, ha, hb, hevents, fun n => .write hwrite hin.le, hstep⟩
  split
  · rename_i hwrite hread
    obtain ⟨a', b', f', p', ha, hb, hevents, hstep⟩ := h.read hserves hplaced hdvd hlen hin
    exact ⟨a', b', f', p', _, ha, hb, hevents, fun n => .read hwrite hread hin.le, hstep⟩
  split
  · rename_i hwrite _ hmixed
    obtain ⟨c, a₁, b₁, ha₁, hb₁, hdrawn, h₁⟩ := h.draw
    rw [bind_eq_ok ha₁, bind_eq_ok hb₁]
    split
    · rename_i hodd
      obtain ⟨a', b', f', p', ha, hb, hevents, hstep⟩ := h₁.read hserves hplaced hdvd hlen hin
      refine ⟨a', b', f', p', [.drawn c, .read offset batch], ha, hb, ?_,
        fun n => .mixedRead hwrite hmixed hodd hin.le, hstep⟩
      rw [hevents, hdrawn, List.append_assoc]
      rfl
    · rename_i heven
      obtain ⟨a', b', f', p', ha, hb, hevents, hstep⟩ := h₁.write hserves hplaced hdvd hlen hin
      refine ⟨a', b', f', p', [.drawn c, .write offset batch], ha, (bind_eq_ok hb).trans rfl, ?_,
        fun n => .mixedWrite hwrite hmixed heven hin.le, hstep⟩
      rw [hevents, hdrawn, List.append_assoc]
      rfl
  · rename_i hwrite _ _
    exact ⟨a, b, f, _, [], rfl, rfl, (List.append_nil _).symm, fun n => .none hwrite, h⟩

/-- A cycle of both arms. -/
theorem cycle {fileSize : UInt64} (h : InStep view fileSize.toNat f₀ fd head k₀ f p a b)
    (hserves : Serves K view path buf fileSize.toNat)
    (hplaced : Placed buf fileSize.toNat f₀ head) (hdvd : 8 ∣ batch.toNat)
    (hlen : batch.toNat ≤ bufSize) (hlt : batch.toNat < fileSize.toNat) (t : UInt32) :
    ∃ a' b' f' p' cs, fileCycle K buf fd batch fileSize t a = .ok ((), a') ∧
      mapCycle buf head batch fileSize t b = .ok ((), b') ∧ a'.events = a.events ++ cs ∧
      CycleTrace fileSize.toNat t cs ∧ InStep view fileSize.toNat f₀ fd head k₀ f' p' a' b' := by
  obtain ⟨n, offset, a₁, b₁, ha, hb, hdrawn, hin, h₁⟩ := h.drawOffset hlt
  have hsize := h₁.size_eq
  have hle := hplaced.size_le
  obtain ⟨r, k₂, hseek, hr, hview⟩ := hserves.seek a₁.kernel f fd p offset h₁.file_eq
    h₁.current_eq (by omega)
  have h₂ : InStep view fileSize.toNat f₀ fd head k₀ f offset.toNat { a₁ with kernel := k₂ } b₁ :=
    { h₁ with
      file_eq := by rw [hview, h₁.file_eq]
      current_eq := by rw [hview] }
  obtain ⟨a', b', f', p', cs, ha', hb', hevents, htrace, hstep⟩ :=
    h₂.choose hserves hplaced hdvd hlen hin t
  refine ⟨a', b', f', p', .drawn n :: cs, ?_, ?_, ?_, htrace n, hstep⟩
  · unfold fileCycle
    rw [bind_eq_ok ha, bind_eq_ok (call_eq hseek), bind_eq_ok (tbNonNeg_eq hr)]
    exact ha'
  · unfold mapCycle
    rw [bind_eq_ok hb]
    exact hb'
  · rw [hevents, hdrawn, List.append_assoc]
    rfl

/-- The loops of both arms. -/
theorem cycles {fileSize : UInt64} (h : InStep view fileSize.toNat f₀ fd head k₀ f p a b)
    (hserves : Serves K view path buf fileSize.toNat)
    (hplaced : Placed buf fileSize.toNat f₀ head) (hdvd : 8 ∣ batch.toNat)
    (hlen : batch.toNat ≤ bufSize) (hlt : batch.toNat < fileSize.toNat) (t : UInt32) (n : Nat) :
    ∃ a' b' f' p' es, forUpTo n (fun _ => fileCycle K buf fd batch fileSize t) a = .ok ((), a') ∧
      forUpTo n (fun _ => mapCycle buf head batch fileSize t) b = .ok ((), b') ∧
      a'.events = a.events ++ es ∧ Trace fileSize.toNat t n es ∧
      InStep view fileSize.toNat f₀ fd head k₀ f' p' a' b' := by
  have hloop : ∃ a' b', forUpTo n (fun _ => fileCycle K buf fd batch fileSize t) a = .ok ((), a') ∧
      forUpTo n (fun _ => mapCycle buf head batch fileSize t) b = .ok ((), b') ∧
      ∃ f' p' es, a'.events = a.events ++ es ∧ Trace fileSize.toNat t n es ∧
        InStep view fileSize.toNat f₀ fd head k₀ f' p' a' b' :=
    forUpTo_inStep (R := fun n a' b' => ∃ f' p' es, a'.events = a.events ++ es ∧
      Trace fileSize.toNat t n es ∧ InStep view fileSize.toNat f₀ fd head k₀ f' p' a' b')
    ⟨f, p, [], (List.append_nil _).symm, .zero, h⟩ fun n u v _ hR => by
      obtain ⟨f', p', es, hevents, htrace, hstep⟩ := hR
      obtain ⟨u', v', f'', p'', cs, hu, hv, hevents', htrace', hstep'⟩ :=
        hstep.cycle hserves hplaced hdvd hlen hlt t
      exact ⟨u', v', hu, hv, f'', p'', es ++ cs,
        by rw [hevents', hevents, List.append_assoc], htrace.succ htrace', hstep'⟩
  obtain ⟨a', b', ha, hb, f', p', es, hevents, htrace, hstep⟩ := hloop
  exact ⟨a', b', f', p', es, ha, hb, hevents, htrace, hstep⟩

end InStep

/-! ## Both arms -/

/-- The arms agree, whatever the value of the test type: they make the same accesses inside the
file, and leave the same file, buffer and generator. -/
theorem arms_agree {fileSize batch : UInt64} (hserves : Serves K view path buf fileSize.toNat)
    (hfile : bufSize ∣ fileSize.toNat) (hdvd : 8 ∣ batch.toNat) (hlen : batch.toNat ≤ bufSize)
    (hlt : batch.toNat < fileSize.toNat) (count : UInt64) (t : UInt32) (w : Bench κ) :
    ∃ fd a b es f p, fileWork K buf path batch fileSize count t w = .ok (fd, a) ∧
      mapWork K buf path batch fileSize count t w = .ok (fd, b) ∧ SameEnd view buf a b ∧
      a.events = w.events ++ es ∧ Trace fileSize.toNat t count.toNat es ∧
      (view a.kernel).file = some f ∧ (view a.kernel).current = some (fd, p) ∧
      (view b.kernel).file = some f ∧ (view b.kernel).current = some (fd, 0) := by
  obtain ⟨w₁, fd, k, f₀, hcreate, hopen, hfd, hw₁, hfile₀, hcurrent₀, hle⟩ :=
    hserves.prepare hfile w
  obtain ⟨head, k₁, hmap, hhead, hapart, hview₁⟩ :=
    hserves.mmap k f₀ fd 0 fileSize hfile₀ hcurrent₀ rfl hle
  have hplaced : Placed buf fileSize.toNat f₀ head := ⟨hle, hhead, hapart⟩
  have hbytes : (f₀.data.bytes 0 fileSize.toNat).length = fileSize.toNat := Mem.length_bytes
  have hstart : InStep view fileSize.toNat f₀ fd head k₁ f₀ 0 { w₁ with kernel := k }
      { w₁ with kernel := k₁, mem := w₁.mem.copy head.toNat (f₀.data.bytes 0 fileSize.toNat) } :=
    { state_eq := rfl
      events_eq := rfl
      mem_eq := fun x hx => (Mem.copy_of_notMem (by rw [hbytes]; exact hx)).symm
      kernel_eq := rfl
      file_eq := hfile₀
      current_eq := hcurrent₀
      size_eq := rfl
      tail_eq := fun _ _ => rfl
      mapped_eq := fun x hx => by
        show w₁.mem.copy _ _ (head.toNat + x) = f₀.data x
        rw [Mem.copy_bytes (by omega) (by omega), Nat.zero_add, Nat.add_sub_cancel_left] }
  obtain ⟨a, b, f, p, es, ha, hb, hevents, htrace, hend⟩ :=
    hstart.cycles hserves hplaced hdvd hlen hlt t count.toNat
  have hkernel := hend.kernel_eq
  have hheld : (b.mem.bytes head.toNat fileSize.toNat).length = fileSize.toNat := Mem.length_bytes
  obtain ⟨r, k₂, hunmap, hr, hview₂⟩ := hserves.munmap b.kernel f₀ head fileSize
    (b.mem.bytes head.toNat fileSize.toNat) (by rw [hkernel, hview₁, hfile₀])
    (by rw [hkernel, hview₁]) hheld
  have hback := hend.write_back hplaced
  refine ⟨fd, a, { b with kernel := k₂ }, es, f, p, ?_, ?_, ⟨hend.events_eq, ?_, ?_,
    hend.state_eq⟩, ?_, htrace, hend.file_eq, hend.current_eq, ?_, ?_⟩
  · unfold fileWork
    rw [bind_eq_ok hcreate, bind_eq_ok (call_eq hopen), bind_eq_ok (tbNonNeg_eq hfd),
      bind_eq_ok ha]
    rfl
  · have hmapped : tbMmap K 0 fileSize 0b11 0x80 fd 0 { w₁ with kernel := k } = .ok (head,
        { w₁ with kernel := k₁, mem := w₁.mem.copy head.toNat (f₀.data.bytes 0 fileSize.toNat) }) :=
      (bind_eq_ok (call_eq hmap)).trans rfl
    have hunmapped : tbMunmap K head fileSize b = .ok (r, { b with kernel := k₂ }) :=
      call_eq hunmap
    unfold mapWork
    rw [bind_eq_ok hcreate, bind_eq_ok (call_eq hopen), bind_eq_ok (tbNonNeg_eq hfd),
      bind_eq_ok hmapped, bind_eq_ok hb, bind_eq_ok rfl, bind_eq_ok hunmapped,
      bind_eq_ok (tbNonNeg_eq hr)]
    rfl
  · rw [hend.file_eq, hview₂, hback]
  · exact hend.buffer_bytes hplaced
  · rw [hevents, hw₁]
  · rw [hview₂, hback]
  · rw [hview₂, hkernel, hview₁, hcurrent₀]

/-- The clean-up returns. -/
theorem Serves.cleanUp (h : Serves K view path buf size) {f : File} {p : Nat}
    (hfile : (view w.kernel).file = some f) (hcurrent : (view w.kernel).current = some (fd, p)) :
    ∃ k', RandomRw.cleanUp K path fd w = .ok ((), { w with kernel := k' }) := by
  obtain ⟨r, k₁, hclose, hr, hview⟩ := h.close w.kernel fd p hcurrent
  obtain ⟨r', k₂, hdelete, hr', -⟩ := h.delete k₁ f (by rw [hview, hfile])
  refine ⟨k₂, ?_⟩
  have hdeleted : call (K.delete path) { w with kernel := k₁ } =
      .ok (r', { w with kernel := k₂ }) := call_eq hdelete
  unfold RandomRw.cleanUp
  rw [bind_eq_ok (call_eq hclose), bind_eq_ok (tbNonNeg_eq hr), bind_eq_ok hdeleted]
  exact tbNonNeg_eq hr'

end RandomRw

end ParchTestbench
