import ParchTestbench.ParchFS.Constructor

/-!
# ParchFS: which layouts are safe

`alloc_blk` hands out any block whose bit is clear.  This file determines for which
symbol files the new volume has no clear block that overlaps the kernel or the
metadata.

Main results:

- Theorem `Initial.clearBlocksUnused_iff`: the exact condition on the symbols.
- Theorem `newVolume_safe_iff`: the same for a run of the constructor.
-/

namespace ParchTestbench

open ParchFS Program

variable {s t u : ParchFS} {env : Env}

/-- Block `b` and the `n` bytes of the mapping from `a` on have a byte in common. -/
def Overlaps (b a n : Nat) : Prop := ∃ x, 4096 * b ≤ x ∧ x < 4096 * b + 4096 ∧ a ≤ x ∧ x < a + n

theorem overlaps_iff {b a n : Nat} :
    Overlaps b a n ↔ 0 < n ∧ 4096 * b < a + n ∧ a < 4096 * b + 4096 := by
  constructor
  · rintro ⟨x, h1, h2, h3, h4⟩
    omega
  · rintro ⟨h1, h2, h3⟩
    exact ⟨max (4096 * b) a, by omega, by omega, by omega, by omega⟩

/-- Address and length of the five metadata structures. -/
def metadataRegions : List (Nat × Nat) :=
  [(inodeList, 512 * 4096), (inodeBitmap, 4096), (mmBlockBitmap, 16 * 4096),
    (fsBlockBitmap, 16 * 4096), (superblock, 4096)]

theorem overlaps_metadata_iff {b : Nat} (hb : b < 524288) :
    (∃ p ∈ metadataRegions, Overlaps b p.1 p.2) ↔ 0x7FDDE ≤ b := by
  simp only [metadataRegions, List.mem_cons, List.not_mem_nil, or_false, exists_eq_or_imp,
    exists_eq_left, overlaps_iff, inodeList, inodeBitmap, mmBlockBitmap, fsBlockBitmap, superblock]
  omega

/-- No block that `alloc_blk` may hand out overlaps the kernel image or the metadata. -/
structure ClearBlocksUnused (u : ParchFS) : Prop where
  kernel : ∀ b, b < 524288 → fsBit u.mem b = false → ¬ Overlaps b 0 (u.eKernel - u.sKernel)
  metadata : ∀ b, b < 524288 → fsBit u.mem b = false → ¬ ∃ p ∈ metadataRegions, Overlaps b p.1 p.2

/-- The symbols for which the new volume is safe: the root's block holds no bits of the
file system, and either the root took the only block, or the kernel is no longer than
its block numbers can count and the reserve is marked from below the metadata on. -/
def SafeLayout (s : ParchFS) : Prop :=
  (rootBlkNo s < 0x7FFEF ∨ 0x7FFFE ≤ rootBlkNo s) ∧
    (min (reserveStart s) 524288 ≤ rootBlkNo s + 1 ∨
      s.eKernel - s.sKernel < 2 ^ 44 ∧ reserveStart s ≤ 0x7FDDE)

/-! ## The bits of a new volume -/

/-- The length of an accepted kernel image against its last block. -/
theorem Accepted.kernel_length (h : Accepted s) :
    4096 * pa2blkno s s.eKernel ≤ s.eKernel - s.sKernel ∧
      (s.eKernel - s.sKernel < 2 ^ 44 →
        s.eKernel - s.sKernel < 4096 * (pa2blkno s s.eKernel + 1)) := by
  have hlt : pa2blkno s s.eKernel + 1 < 524288 := h.lt
  have hbase := h.checked.sKernel_eq
  have hblk : pa2blkno s s.eKernel =
      (s.eKernel + 2 ^ 64 - 0x80000000) % 2 ^ 64 / 4096 % 2 ^ 32 := by
    rw [← hbase]
    rfl
  omega

/-- The root's entries lie in its block; elsewhere the file system's bitmap is that of
the allocation. -/
theorem fsBit_rootMem {m : Mem} {B q : Nat} (hB : B < 524288) (hout : B < 0x7FFEF ∨ 0x7FFFE < B)
    (hq : q < 524288) : fsBit (rootMem m B) q = (decide (q = B) || fsBit m q) := by
  have hlen := (dotEntry rootInode).length_bytes
  have hlen' := (dotDotEntry rootInode).length_bytes
  rw [← fsBit_allocMem hB hout hq]
  refine fsBit_congr hq fun x hx hx' => ?_
  unfold rootMem
  rw [Mem.copy_of_notMem (by omega), Mem.copy_of_notMem (by omega)]
  exact Mem.store_of_notMem (by simp only [rootSlot, INode.directBlkNo_eq, rootInode]; omega)

/-- The bytes of the root's block behind the entries are zero. -/
theorem rootMem_block {m : Mem} {B x : Nat} (hB : B ≠ 0x7FDDE) (hx : 4096 * B + 256 ≤ x)
    (hx' : x < 4096 * B + 4096) : rootMem m B x = 0 := by
  have hlen := (dotEntry rootInode).length_bytes
  have hlen' := (dotDotEntry rootInode).length_bytes
  unfold rootMem
  rw [Mem.copy_of_notMem (by omega), Mem.copy_of_notMem (by omega)]
  exact allocIntoMem_of_mem (by omega) hx'
    (by simp only [rootSlot, INode.directBlkNo_eq, rootInode]; omega)

namespace Initial

/-- The marked blocks of a new volume whose root's block holds no bits. -/
theorem fsBit_eq (h : Initial s u) (hout : rootBlkNo s < 0x7FFEF ∨ 0x7FFFE < rootBlkNo s) {q : Nat}
    (hq : q < 524288) :
    fsBit u.mem q = decide (q ≤ rootBlkNo s ∨ reserveStart s ≤ q) := by
  obtain ⟨t, v, ht, hv, hu⟩ := h.memory
  have hbits : fsBit v.mem q = fsBit t.mem q := fsBit_congr hq fun x hx hx' =>
    hv.frame x (by simp only [INode.addr_eq, rootInode]; omega) (by omega) (by omega)
  rw [hu, mem_withMem, fsBit_rootMem h.accepted.lt hout hq, hbits, ht.fs q hq, ← Bool.decide_or]
  unfold rootBlkNo
  exact decide_eq_decide.mpr (by omega)

theorem symbols (h : Initial s u) : u = s.withMem u.mem := by
  obtain ⟨t, v, ht, hv, hu⟩ := h.memory
  rw [hu, hv.state, ht.state]
  rfl

/-- A root block that holds bits of the file system leaves a block of the kernel
clear. -/
theorem exists_clear_kernel (h : Initial s u) (hlo : 0x7FFEF ≤ rootBlkNo s)
    (hhi : rootBlkNo s < 0x7FFFE) :
    ∃ b, b < 524288 ∧ fsBit u.mem b = false ∧ b < pa2blkno s s.eKernel := by
  obtain ⟨t, v, ht, hv, hu⟩ := h.memory
  have hroot : rootBlkNo s = pa2blkno s s.eKernel + 1 := rfl
  refine ⟨32768 * (rootBlkNo s - 0x7FFEF) + 2048, by omega, ?_, by omega⟩
  rw [hu, mem_withMem]
  exact Mem.bit_eq_false (rootMem_block (by omega) (by simp only [fsBlockBitmap]; omega)
    (by simp only [fsBlockBitmap]; omega))

/-- The new volume is safe exactly for the safe layouts. -/
theorem clearBlocksUnused_iff (h : Initial s u) : ClearBlocksUnused u ↔ SafeLayout s := by
  have hsymbols := h.symbols
  have hkernel : u.eKernel - u.sKernel = s.eKernel - s.sKernel := by rw [hsymbols]; rfl
  have hroot : rootBlkNo s = pa2blkno s s.eKernel + 1 := rfl
  have hlt := h.accepted.lt
  obtain ⟨hge, hshort⟩ := h.accepted.kernel_length
  constructor
  · intro hsafe
    have hout : rootBlkNo s < 0x7FFEF ∨ 0x7FFFE ≤ rootBlkNo s := by
      by_contra hin
      obtain ⟨b, hb, hclear, hbe⟩ := h.exists_clear_kernel (by omega) (by omega)
      exact hsafe.kernel b hb hclear (overlaps_iff.mpr (by rw [hkernel]; omega))
    refine ⟨hout, ?_⟩
    by_contra hnot
    have hne := h.accepted.ne_fs
    have hbits := fun q hq => h.fsBit_eq (q := q) (by omega) hq
    -- the first block behind the root's is clear, and so is the last one of the pool
    have hfirst : fsBit u.mem (rootBlkNo s + 1) = false := by
      rw [hbits _ (by omega)]
      exact decide_eq_false (by omega)
    have hlast : fsBit u.mem (min (reserveStart s) 524288 - 1) = false := by
      rw [hbits _ (by omega)]
      exact decide_eq_false (by omega)
    have hk := hsafe.kernel _ (by omega) hfirst
    have hm := hsafe.metadata _ (by omega) hlast
    rw [overlaps_metadata_iff (by omega)] at hm
    rw [overlaps_iff, hkernel] at hk
    omega
  · rintro ⟨hout, hpool⟩
    have hne := h.accepted.ne_fs
    have hclear : ∀ b, b < 524288 → fsBit u.mem b = false →
        rootBlkNo s < b ∧ b < reserveStart s := fun b hb hfs => by
      rw [h.fsBit_eq (by omega) hb, decide_eq_false_iff_not] at hfs
      omega
    refine ⟨fun b hb hfs => ?_, fun b hb hfs => ?_⟩
    · have hrange := hclear b hb hfs
      rw [overlaps_iff, hkernel]
      omega
    · have hrange := hclear b hb hfs
      rw [overlaps_metadata_iff hb]
      omega

end Initial

/-! ## Layouts of the linker script -/

/-- The symbols that the kernel's linker script promises: the kernel lies in front of the
reserve, and the reserve begins no later than the metadata. -/
structure LinkedLayout (syms : Symbols) : Prop where
  sKernel_eq : syms.sKernel = 0x80000000
  le_eKernel : 0x80000000 ≤ syms.eKernel
  lt_sReserve : syms.eKernel < syms.sReserve
  sReserve_le : syms.sReserve ≤ 0xFFDDE000
  eReserve_eq : syms.eReserve = 0x100000000

namespace LinkedLayout

variable {syms : Symbols} (bin : MMAPBinContent)

theorem checked (h : LinkedLayout syms) : Checked (ofSymbols bin syms) := by
  have h1 := h.le_eKernel
  have h2 := h.lt_sReserve
  exact ⟨h.sKernel_eq, h.eReserve_eq, show syms.eKernel ≠ 0 by omega,
    show syms.sReserve ≠ 0 by omega⟩

theorem pa2blkno_eKernel (h : LinkedLayout syms) :
    pa2blkno (ofSymbols bin syms) syms.eKernel = (syms.eKernel - 0x80000000) / 4096 := by
  have h1 := h.le_eKernel
  have h2 := h.lt_sReserve
  have h3 := h.sReserve_le
  show (syms.eKernel + 2 ^ 64 - syms.sKernel) % 2 ^ 64 / 4096 % 2 ^ 32 = _
  rw [h.sKernel_eq]
  omega

/-- From the second page on, the reserve is marked from the block in front of it. -/
theorem reserveStart_eq (h : LinkedLayout syms) (hpage : 0x80001000 ≤ syms.sReserve) :
    reserveStart (ofSymbols bin syms) = (syms.sReserve - 0x80000000) / 4096 - 1 := by
  have h3 := h.sReserve_le
  show ((syms.sReserve + 2 ^ 64 - syms.sKernel) % 2 ^ 64 / 4096 % 2 ^ 32 + (2 ^ 32 - 1)) %
    2 ^ 32 = _
  rw [h.sKernel_eq]
  omega

theorem reserveStart_le (h : LinkedLayout syms) (hpage : 0x80001000 ≤ syms.sReserve) :
    reserveStart (ofSymbols bin syms) ≤ 0x7FDDD := by
  have h3 := h.sReserve_le
  rw [h.reserveStart_eq bin hpage]
  omega

/-- A reserve in the first page makes the subtraction wrap, and nothing is marked. -/
theorem reserveStart_wrapped (h : LinkedLayout syms) (hpage : syms.sReserve < 0x80001000) :
    reserveStart (ofSymbols bin syms) = 0xFFFFFFFF ∧
      pa2blkno (ofSymbols bin syms) syms.eKernel = 0 := by
  have h1 := h.le_eKernel
  have h2 := h.lt_sReserve
  refine ⟨?_, ?_⟩
  · show ((syms.sReserve + 2 ^ 64 - syms.sKernel) % 2 ^ 64 / 4096 % 2 ^ 32 + (2 ^ 32 - 1)) %
      2 ^ 32 = _
    rw [h.sKernel_eq]
    omega
  · rw [h.pa2blkno_eKernel]
    omega

end LinkedLayout

/-! ## Sample symbol files -/

/-- An image of 2 GiB of zero bytes. -/
def blankImage : MMAPBinContent where
  size := 0x80000000
  mem := fun _ => 0

/-- Surroundings in which everything unknown is zero. -/
def blankEnv : Env where
  startTime := 0
  time := fun _ _ => 0
  uninit := fun _ _ => 0
  uninitTemp := fun _ => 0

/-- A symbol file with the given addresses of `ekernel` and `sreserve`. -/
def symbolLines (eKernel sReserve : List Char) : List (List Char) :=
  ["80000000 skernel".toList, eKernel ++ " ekernel".toList, sReserve ++ " sreserve".toList,
    "100000000 ereserve".toList]

/-- The symbols of such a file. -/
def layout (eKernel sReserve : Nat) : Symbols where
  sKernel := 0x80000000
  eKernel := eKernel
  sReserve := sReserve
  eReserve := 0x100000000

/-- A kernel of 2 MiB and a reserve that begins at the metadata. -/
def sampleLines : List (List Char) := symbolLines "80200000".toList "ffdde000".toList

theorem sample_read : Symbols.read blankEnv sampleLines = .ok (layout 0x80200000 0xffdde000) := rfl

theorem sample_linked : LinkedLayout (layout 0x80200000 0xffdde000) := by
  refine ⟨rfl, ?_, ?_, ?_, rfl⟩ <;> decide

theorem exists_sample : ∃ u, construct blankEnv blankImage sampleLines = .ok u := by
  have haccepted : Accepted (ofSymbols blankImage (layout 0x80200000 0xffdde000)) := by
    refine ⟨⟨rfl, rfl, ?_, ?_⟩, ?_, ?_, ?_, ?_, ?_, ?_⟩ <;> decide
  obtain ⟨u, hrun, -⟩ := exists_init haccepted
  exact ⟨u, construct_eq sample_read hrun⟩

/-- An empty kernel and a reserve that begins one byte behind it. -/
def wrappedLines : List (List Char) := symbolLines "80000000".toList "80000001".toList

theorem wrapped_read :
    Symbols.read blankEnv wrappedLines = .ok (layout 0x80000000 0x80000001) := rfl

theorem wrapped_linked : LinkedLayout (layout 0x80000000 0x80000001) := by
  refine ⟨rfl, ?_, ?_, ?_, rfl⟩ <;> decide

theorem exists_wrapped : ∃ u, construct blankEnv blankImage wrappedLines = .ok u ∧
    init blankEnv (ofSymbols blankImage (layout 0x80000000 0x80000001)) = .ok ((), u) := by
  have haccepted : Accepted (ofSymbols blankImage (layout 0x80000000 0x80000001)) := by
    refine ⟨⟨rfl, rfl, ?_, ?_⟩, ?_, ?_, ?_, ?_, ?_, ?_⟩ <;> decide
  obtain ⟨u, hrun, -⟩ := exists_init haccepted
  exact ⟨u, construct_eq wrapped_read hrun, hrun⟩

/-! ## Runs of the constructor -/

section Runs

variable {bin : MMAPBinContent} {lines : List (List Char)} {syms : Symbols}

/-- The symbols of a run are those of its symbol file. -/
theorem init_of_construct (hread : Symbols.read env lines = .ok syms)
    (hrun : construct env bin lines = .ok u) : init env (ofSymbols bin syms) = .ok ((), u) := by
  obtain ⟨syms', hread', hinit⟩ := construct_ok hrun
  rw [hread] at hread'
  cases hread'
  exact hinit

/-- What the constructor returns is safe exactly for the safe layouts. -/
theorem newVolume_safe_iff (hread : Symbols.read env lines = .ok syms)
    (hrun : construct env bin lines = .ok u) :
    ClearBlocksUnused u ↔ SafeLayout (ofSymbols bin syms) := by
  exact (initial_of_init (init_of_construct hread hrun)).clearBlocksUnused_iff

theorem newVolume_safe_iff_sample : ∃ u, construct blankEnv blankImage sampleLines = .ok u ∧
    (ClearBlocksUnused u ↔ SafeLayout (ofSymbols blankImage (layout 0x80200000 0xffdde000))) := by
  obtain ⟨u, hrun⟩ := exists_sample
  exact ⟨u, hrun, newVolume_safe_iff sample_read hrun⟩

/-- A reserve that begins behind the inode table is accepted, and the first page of the
inode table is then a clear block. -/
theorem newVolume_unsafe :
    ∃ u, construct blankEnv blankImage (symbolLines "80200000".toList "fffe0000".toList) = .ok u ∧
      ¬ ClearBlocksUnused u := by
  have haccepted : Accepted (ofSymbols blankImage (layout 0x80200000 0xfffe0000)) := by
    refine ⟨⟨rfl, rfl, ?_, ?_⟩, ?_, ?_, ?_, ?_, ?_, ?_⟩ <;> decide
  obtain ⟨u, hrun, hu⟩ := exists_init haccepted
  refine ⟨u, construct_eq rfl hrun, fun hsafe => ?_⟩
  obtain ⟨-, htight | ⟨-, hreserve⟩⟩ := hu.clearBlocksUnused_iff.mp hsafe
  · exact absurd htight (by decide)
  · exact absurd hreserve (by decide)

end Runs

end ParchTestbench
