import ParchTestbench.ParchFS.Allocator

/-!
# ParchFS: the effect of the allocators

Exact results of the bitmap methods and of the two allocators, over a mapping of
at least 2 GiB.  An allocation is described by the memory it leaves, so that
later files need only the bytes that it changes.

Main results:

- Theorems `Bitmap.get_eq` and `Bitmap.set_eq`: a bitmap method reads or sets
  one bit of the bit array.
- Theorems `allocBlk_eq` and `allocBlk_full`: `alloc_blk` hands out the first
  clear block, or panics when there is none.
- Theorem `allocInode_eq`: `alloc_inode` hands out the first clear inode.
-/

namespace ParchTestbench

open ParchFS Program

/-! ## Bits and bitmaps -/

theorem getBit_eq (bits pos : Nat) : getBit bits pos = bits.testBit pos := by
  have hpow : 2 ^ pos ≠ 0 := (Nat.two_pow_pos pos).ne'
  simp only [getBit, Nat.one_shiftLeft, Nat.and_two_pow]
  cases bits.testBit pos <;> simp

namespace Bitmap

variable {s : ParchFS} {base pos fuel p : Nat} {full : String}

theorem get_eq (hpos : pos < 2 ^ 31) (h : base + pos / 8 + 1 ≤ s.mapped) :
    get base pos s = .ok (s.mem.bit base pos, s) := by
  unfold get
  rw [onlyIf_bind_neg (by omega), bind_eq_ok (load_eq h)]
  simp only [Mem.load_one, getBit_eq]
  rfl

theorem set_eq (hpos : pos < 2 ^ 31) (h : base + pos / 8 + 1 ≤ s.mapped) :
    set base pos s = .ok ((), s.withMem (s.mem.setBit base pos)) := by
  unfold set update
  rw [onlyIf_bind_neg (by omega), bind_eq_ok (load_eq h),
    store_eq h]
  rfl

/-- The search stops at the first clear position. -/
theorem firstAvailableFrom_eq (hfuel : pos + fuel ≤ 2 ^ 31)
    (hmapped : ∀ q, q < pos + fuel → base + q / 8 + 1 ≤ s.mapped)
    (hle : pos ≤ p) (hlt : p < pos + fuel) (hclear : s.mem.bit base p = false)
    (hset : ∀ q, pos ≤ q → q < p → s.mem.bit base q = true) :
    firstAvailableFrom base full fuel pos s = .ok (p, s) := by
  induction fuel generalizing pos with
  | zero => omega
  | succ fuel ih =>
      unfold firstAvailableFrom
      rw [bind_eq_ok (get_eq (by omega) (hmapped pos (by omega)))]
      by_cases hp : pos = p
      · subst hp
        simp only [hclear]
        rfl
      · simp only [hset pos le_rfl (by omega)]
        exact ih (by omega) (fun q hq => hmapped q (by omega)) (by omega) (by omega)
          fun q hq hq' => hset q (by omega) hq'

/-- The search panics when every position is set. -/
theorem firstAvailableFrom_full (hfuel : pos + fuel ≤ 2 ^ 31)
    (hmapped : ∀ q, q < pos + fuel → base + q / 8 + 1 ≤ s.mapped)
    (hset : ∀ q, pos ≤ q → q < pos + fuel → s.mem.bit base q = true) :
    firstAvailableFrom base full fuel pos s = .error (.panic full) := by
  induction fuel generalizing pos with
  | zero => rfl
  | succ fuel ih =>
      unfold firstAvailableFrom
      rw [bind_eq_ok (get_eq (by omega) (hmapped pos (by omega)))]
      simp only [hset pos le_rfl (by omega)]
      exact ih (by omega) (fun q hq => hmapped q (by omega))
        fun q hq hq' => hset q (by omega) (by omega)

end Bitmap

/-! ## Reading the bitmaps of a memory -/

/-- Bit `b` of the file system's block bitmap. -/
def fsBit (m : Mem) (b : Nat) : Bool := m.bit fsBlockBitmap b

/-- Bit `b` of the memory manager's block bitmap. -/
def mmBit (m : Mem) (b : Nat) : Bool := m.bit mmBlockBitmap b

/-- Bit `no` of the inode bitmap. -/
def inodeBit (m : Mem) (no : Nat) : Bool := m.bit inodeBitmap no

section Congruence

variable {m m' : Mem} {b no : Nat}

theorem fsBit_congr (hb : b < 524288)
    (h : ∀ x, 0x7FFEF000 ≤ x → x < 0x7FFFF000 → m' x = m x) : fsBit m' b = fsBit m b :=
  Mem.bit_congr (h _ (by simp only [fsBlockBitmap]; omega) (by simp only [fsBlockBitmap]; omega))

theorem mmBit_congr (hb : b < 524288)
    (h : ∀ x, 0x7FFDF000 ≤ x → x < 0x7FFEF000 → m' x = m x) : mmBit m' b = mmBit m b :=
  Mem.bit_congr (h _ (by simp only [mmBlockBitmap]; omega) (by simp only [mmBlockBitmap]; omega))

theorem inodeBit_congr (hno : no < 32768)
    (h : ∀ x, 0x7FFDE000 ≤ x → x < 0x7FFDF000 → m' x = m x) : inodeBit m' no = inodeBit m no :=
  Mem.bit_congr (h _ (by simp only [inodeBitmap]; omega) (by simp only [inodeBitmap]; omega))

end Congruence

/-! ## Blocks -/

section Blocks

variable {s : ParchFS} {m : Mem} {b q x : Nat}

/-- The memory after block `b` has been handed out. -/
def allocMem (m : Mem) (b : Nat) : Mem :=
  (((m.setBit fsBlockBitmap b).setBit mmBlockBitmap b).store SuperBlock.freeBlock 8
    (m.load SuperBlock.freeBlock 8 + (2 ^ 64 - 1))).fill (4096 * b) 4096 0

/-- An allocation changes the block, the bitmaps and the free counter. -/
theorem allocMem_of_notMem (hb : b < 524288) (hblk : x < 4096 * b ∨ 4096 * b + 4096 ≤ x)
    (hmeta : x < 0x7FFDF000 ∨ 0x7FFFF000 ≤ x)
    (hfree : x < 0x7FFFF120 ∨ 0x7FFFF128 ≤ x) : allocMem m b x = m x := by
  unfold allocMem
  rw [Mem.fill_of_notMem (by omega),
    Mem.store_of_notMem (by simp only [SuperBlock.freeBlock_eq]; omega),
    Mem.setBit_of_ne (by simp only [mmBlockBitmap]; omega),
    Mem.setBit_of_ne (by simp only [fsBlockBitmap]; omega)]

theorem allocMem_of_mem (h : 4096 * b ≤ x) (h' : x < 4096 * b + 4096) : allocMem m b x = 0 := by
  unfold allocMem
  exact Mem.fill_of_mem h h'

/-- The bits of the file system's bitmap, for a block that holds none of them. -/
theorem fsBit_allocMem (hb : b < 524288) (hout : b < 0x7FFEF ∨ 0x7FFFE < b) (hq : q < 524288) :
    fsBit (allocMem m b) q = (decide (q = b) || fsBit m q) := by
  have hbit : fsBit (allocMem m b) q = fsBit (m.setBit fsBlockBitmap b) q := by
    refine fsBit_congr hq fun x hx hx' => ?_
    unfold allocMem
    rw [Mem.fill_of_notMem (by omega),
      Mem.store_of_notMem (by simp only [SuperBlock.freeBlock_eq]; omega),
      Mem.setBit_of_ne (by simp only [mmBlockBitmap]; omega)]
  rw [hbit]
  exact Mem.bit_setBit

/-- The bits of the memory manager's bitmap, for a block below the bitmaps. -/
theorem mmBit_allocMem (hb : b < 0x7FFDF) (hq : q < 524288) :
    mmBit (allocMem m b) q = (decide (q = b) || mmBit m q) := by
  have hbit : mmBit (allocMem m b) q =
      mmBit ((m.setBit fsBlockBitmap b).setBit mmBlockBitmap b) q := by
    refine mmBit_congr hq fun x hx hx' => ?_
    unfold allocMem
    rw [Mem.fill_of_notMem (by omega),
      Mem.store_of_notMem (by simp only [SuperBlock.freeBlock_eq]; omega)]
  have hfs : mmBit (m.setBit fsBlockBitmap b) q = mmBit m q :=
    mmBit_congr hq fun x hx hx' => Mem.setBit_of_ne (by simp only [fsBlockBitmap]; omega)
  rw [hbit, mmBit, Mem.bit_setBit, ← mmBit, hfs]

/-- The block just handed out is marked, unless zeroing it clears its own bit. -/
theorem fsBit_allocMem_self (hb : b < 524288) :
    fsBit (allocMem m b) b = decide (b ≠ 0x7FFFE) := by
  by_cases hbad : b = 0x7FFFE
  · subst hbad
    exact Mem.bit_eq_false (Mem.fill_of_mem (by simp only [fsBlockBitmap]; omega)
      (by simp only [fsBlockBitmap]; omega))
  · have hbit : fsBit (allocMem m b) b = fsBit (m.setBit fsBlockBitmap b) b := by
      refine Mem.bit_congr ?_
      unfold allocMem
      rw [Mem.fill_of_notMem (by simp only [fsBlockBitmap]; omega),
        Mem.store_of_notMem (by simp only [SuperBlock.freeBlock_eq, fsBlockBitmap]; omega),
        Mem.setBit_of_ne (by simp only [mmBlockBitmap, fsBlockBitmap]; omega)]
    rw [hbit, fsBit, Mem.bit_setBit]
    simp [hbad]

theorem mmBit_allocMem_self (hb : b < 524288) :
    mmBit (allocMem m b) b = decide (b ≠ 0x7FFEE) := by
  by_cases hbad : b = 0x7FFEE
  · subst hbad
    exact Mem.bit_eq_false (Mem.fill_of_mem (by simp only [mmBlockBitmap]; omega)
      (by simp only [mmBlockBitmap]; omega))
  · have hbit : mmBit (allocMem m b) b =
        mmBit ((m.setBit fsBlockBitmap b).setBit mmBlockBitmap b) b := by
      refine Mem.bit_congr ?_
      unfold allocMem
      rw [Mem.fill_of_notMem (by simp only [mmBlockBitmap]; omega),
        Mem.store_of_notMem (by simp only [SuperBlock.freeBlock_eq, mmBlockBitmap]; omega)]
    rw [hbit, mmBit, Mem.bit_setBit]
    simp [hbad]

theorem getBlk_eq (hmapped : 0x80000000 ≤ s.mapped) (hb : b < 524288)
    (hfs : fsBit s.mem b = true) (hmm : mmBit s.mem b = true) :
    getBlk b s = .ok (4096 * b, s) := by
  unfold getBlk BlockBitmap.get
  rw [bind_eq_ok (Bitmap.get_eq (by omega) (by simp only [fsBlockBitmap]; omega)),
    bind_eq_ok (assert_eq (by exact hfs)),
    bind_eq_ok (Bitmap.get_eq (by omega) (by simp only [mmBlockBitmap]; omega)),
    bind_eq_ok (assert_eq (by exact hmm))]
  rfl

/-- `get_blk` returns exactly when the block's bit is set in both bitmaps. -/
theorem getBlk_outcome (hmapped : 0x80000000 ≤ s.mapped) (hb : b < 524288) :
    Outcome (getBlk b) s
      (fun a t => a = 4096 * b ∧ t = s ∧ fsBit s.mem b = true ∧ mmBit s.mem b = true)
      (fun _ => fsBit s.mem b = false ∨ mmBit s.mem b = false) := by
  unfold getBlk BlockBitmap.get
  refine Outcome.bind_ok (Bitmap.get_eq (by omega) (by simp only [fsBlockBitmap]; omega)) ?_
  refine assert_outcome (fun hfs => ?_) fun hfs => Or.inl (Bool.eq_false_of_not_eq_true hfs)
  refine Outcome.bind_ok (Bitmap.get_eq (by omega) (by simp only [mmBlockBitmap]; omega)) ?_
  refine assert_outcome (fun hmm => ?_) fun hmm => Or.inr (Bool.eq_false_of_not_eq_true hmm)
  exact Outcome.pure ⟨rfl, rfl, hfs, hmm⟩

/-- `alloc_blk` hands out the first clear block. -/
theorem allocBlk_eq (hmapped : 0x80000000 ≤ s.mapped) (hb : b < 524288)
    (hclear : fsBit s.mem b = false) (hset : ∀ q, q < b → fsBit s.mem q = true) :
    allocBlk s = .ok (b, s.withMem (allocMem s.mem b)) := by
  have hfirst : BlockBitmap.firstAvailable fsBlockBitmap s = .ok (b, s) :=
    Bitmap.firstAvailableFrom_eq (by omega) (fun q hq => by simp only [fsBlockBitmap]; omega)
      (by omega) (by omega) hclear fun q _ hq => hset q hq
  have hload : ((s.mem.setBit fsBlockBitmap b).setBit mmBlockBitmap b).load
      SuperBlock.freeBlock 8 = s.mem.load SuperBlock.freeBlock 8 := by
    refine Mem.load_congr fun x hx hx' => ?_
    simp only [SuperBlock.freeBlock_eq] at hx hx'
    rw [Mem.setBit_of_ne (by simp only [mmBlockBitmap]; omega),
      Mem.setBit_of_ne (by simp only [fsBlockBitmap]; omega)]
  have hdec : decrement SuperBlock.freeBlock
      (s.withMem ((s.mem.setBit fsBlockBitmap b).setBit mmBlockBitmap b)) =
      .ok ((), s.withMem (((s.mem.setBit fsBlockBitmap b).setBit mmBlockBitmap b).store
        SuperBlock.freeBlock 8 (s.mem.load SuperBlock.freeBlock 8 + (2 ^ 64 - 1)))) := by
    have haddr : SuperBlock.freeBlock + 8 ≤
        (s.withMem ((s.mem.setBit fsBlockBitmap b).setBit mmBlockBitmap b)).mapped := by
      simp only [SuperBlock.freeBlock_eq, mapped_withMem]
      omega
    unfold decrement
    rw [bind_eq_ok (load_eq haddr), store_eq haddr]
    simp only [mem_withMem, withMem_withMem, hload]
  unfold allocBlk BlockBitmap.set
  rw [bind_eq_ok hfirst,
    bind_eq_ok (Bitmap.set_eq (by omega) (by simp only [fsBlockBitmap]; omega)),
    bind_eq_ok (Bitmap.set_eq (by omega)
      (by simp only [mmBlockBitmap, mapped_withMem]; omega))]
  simp only [mem_withMem, withMem_withMem]
  rw [bind_eq_ok hdec]
  -- both assertions of `get_blk` hold: the bits have just been set
  rw [bind_eq_ok (getBlk_eq (by simpa using hmapped) hb ?_ ?_)]
  · rw [bind_eq_ok (memset_eq (by simp only [mapped_withMem, blkSize]; omega))]
    simp only [mem_withMem, withMem_withMem, allocMem, blkSize]
    rfl
  · have hstore : fsBit (((s.mem.setBit fsBlockBitmap b).setBit mmBlockBitmap b).store
        SuperBlock.freeBlock 8 (s.mem.load SuperBlock.freeBlock 8 + (2 ^ 64 - 1))) b =
        fsBit (s.mem.setBit fsBlockBitmap b) b := by
      refine fsBit_congr hb fun x hx hx' => ?_
      rw [Mem.store_of_notMem (by simp only [SuperBlock.freeBlock_eq]; omega),
        Mem.setBit_of_ne (by simp only [mmBlockBitmap]; omega)]
    rw [mem_withMem, hstore, fsBit, Mem.bit_setBit]
    simp
  · have hstore : mmBit (((s.mem.setBit fsBlockBitmap b).setBit mmBlockBitmap b).store
        SuperBlock.freeBlock 8 (s.mem.load SuperBlock.freeBlock 8 + (2 ^ 64 - 1))) b =
        mmBit ((s.mem.setBit fsBlockBitmap b).setBit mmBlockBitmap b) b :=
      mmBit_congr hb fun x hx hx' =>
        Mem.store_of_notMem (by simp only [SuperBlock.freeBlock_eq]; omega)
    rw [mem_withMem, hstore, mmBit, Mem.bit_setBit]
    simp

/-- `alloc_blk` panics when every block is marked. -/
theorem allocBlk_full (hmapped : 0x80000000 ≤ s.mapped)
    (hset : ∀ q, q < 524288 → fsBit s.mem q = true) : allocBlk s = .error blockBitmapFull := by
  have hfirst : BlockBitmap.firstAvailable fsBlockBitmap s = .error blockBitmapFull :=
    Bitmap.firstAvailableFrom_full (by omega) (fun q hq => by simp only [fsBlockBitmap]; omega)
      fun q _ hq => hset q (by omega)
  unfold allocBlk
  rw [bind_eq_error hfirst]

end Blocks

/-! ## Inodes -/

section Inodes

variable {s : ParchFS} {m : Mem} {no x : Nat}

/-- The memory after inode `no` has been handed out. -/
def allocInodeMem (m : Mem) (no : Nat) : Mem :=
  ((m.store SuperBlock.freeInode 8 (m.load SuperBlock.freeInode 8 + (2 ^ 64 - 1))).setBit
    inodeBitmap no).fill (INode.addr no) 256 0

theorem getInode_eq (hmapped : 0x80000000 ≤ s.mapped) (hno : no < 32768)
    (hbit : inodeBit s.mem no = true) : getInode no s = .ok (no, s) := by
  unfold getInode INodeBitmap.get
  rw [bind_eq_ok (Bitmap.get_eq (by omega) (by simp only [inodeBitmap]; omega)),
    bind_eq_ok (assert_eq (by exact hbit))]
  rfl

/-- `get_inode` returns only on an inode whose bit is set. -/
theorem getInode_ok {i : Nat} {t : ParchFS} (hmapped : 0x80000000 ≤ s.mapped) (hno : no < 32768)
    (hrun : getInode no s = .ok (i, t)) : inodeBit s.mem no = true ∧ i = no ∧ t = s := by
  unfold getInode INodeBitmap.get at hrun
  rw [bind_eq_ok (Bitmap.get_eq (by omega) (by simp only [inodeBitmap]; omega))] at hrun
  by_cases hbit : s.mem.bit inodeBitmap no = true
  · rw [bind_eq_ok (assert_eq (by exact hbit))] at hrun
    cases hrun
    exact ⟨hbit, rfl, rfl⟩
  · rw [bind_eq_error (assert_eq_error hbit)] at hrun
    cases hrun

/-- `alloc_inode` hands out the first clear inode.  The number may be one past
the table: the slot it zeroes is then the start of the inode bitmap. -/
theorem allocInode_eq (hmapped : 0x80000000 ≤ s.mapped) (hno : no ≤ 8192)
    (hclear : inodeBit s.mem no = false) (hset : ∀ q, q < no → inodeBit s.mem q = true) :
    allocInode s = .ok (no, s.withMem (allocInodeMem s.mem no)) := by
  have hfirst : INodeBitmap.firstAvailable s = .ok (no, s) :=
    Bitmap.firstAvailableFrom_eq (by omega) (fun q hq => by simp only [inodeBitmap]; omega)
      (by omega) (by omega) hclear fun q _ hq => hset q hq
  have haddr : SuperBlock.freeInode + 8 ≤ s.mapped := by
    simp only [SuperBlock.freeInode_eq]
    omega
  have hdec : decrement SuperBlock.freeInode s = .ok ((), s.withMem (s.mem.store
      SuperBlock.freeInode 8 (s.mem.load SuperBlock.freeInode 8 + (2 ^ 64 - 1)))) := by
    unfold decrement
    rw [bind_eq_ok (load_eq haddr), store_eq haddr]
  unfold allocInode INodeBitmap.set
  rw [bind_eq_ok hfirst, bind_eq_ok hdec,
    bind_eq_ok (Bitmap.set_eq (by omega) (by simp only [inodeBitmap, mapped_withMem]; omega))]
  simp only [mem_withMem, withMem_withMem]
  -- the byte of the bit just set is not in the slot, so both assertions hold
  rw [bind_eq_ok (getInode_eq (by simpa using hmapped) (by omega) ?_)]
  · rw [bind_eq_ok (memset_eq (by
      simp only [mapped_withMem, INode.addr_eq, inodeSize]; omega))]
    simp only [mem_withMem, withMem_withMem]
    rw [bind_eq_ok (getInode_eq (by simpa using hmapped) (by omega) ?_)]
    · simp only [allocInodeMem, inodeSize]
      rfl
    · rw [mem_withMem, inodeBit, Mem.bit_congr (Mem.fill_of_notMem (by
        simp only [INode.addr_eq, inodeSize, inodeBitmap]; omega)), Mem.bit_setBit]
      simp
  · rw [mem_withMem, inodeBit, Mem.bit_setBit]
    simp

/-- An inode allocation changes the slot, one bitmap byte and the free counter. -/
theorem allocInodeMem_of_notMem (hno : no < 8192)
    (hslot : x < INode.addr no ∨ INode.addr no + 256 ≤ x)
    (hbit : x < 0x7FFDE000 ∨ 0x7FFDF000 ≤ x)
    (hfree : x < 0x7FFFF118 ∨ 0x7FFFF120 ≤ x) : allocInodeMem m no x = m x := by
  unfold allocInodeMem
  rw [Mem.fill_of_notMem (by omega), Mem.setBit_of_ne (by simp only [inodeBitmap]; omega),
    Mem.store_of_notMem (by simp only [SuperBlock.freeInode_eq]; omega)]

theorem allocInodeMem_of_mem (h : INode.addr no ≤ x) (h' : x < INode.addr no + 256) :
    allocInodeMem m no x = 0 := by
  unfold allocInodeMem
  exact Mem.fill_of_mem h h'

/-- The free inode counter goes down by one, modulo its 64 bits. -/
theorem freeInode_allocInodeMem (hno : no < 8192) :
    (allocInodeMem m no).load SuperBlock.freeInode 8 =
      (m.load SuperBlock.freeInode 8 + (2 ^ 64 - 1)) % 2 ^ 64 := by
  have hbit : ∀ m' : Mem, (m'.setBit inodeBitmap no).load SuperBlock.freeInode 8 =
      m'.load SuperBlock.freeInode 8 := fun m' =>
    Mem.load_congr fun x hx hx' => Mem.setBit_of_ne (by
      rw [SuperBlock.freeInode_eq] at hx
      simp only [inodeBitmap]
      omega)
  unfold allocInodeMem
  rw [Mem.load_fill_of_disjoint (by rw [SuperBlock.freeInode_eq, INode.addr_eq]; omega), hbit,
    Mem.load_store]
  norm_num

theorem inodeBit_allocInodeMem (hno : no < 8192) {q : Nat} (hq : q < 32768) :
    inodeBit (allocInodeMem m no) q = (decide (q = no) || inodeBit m q) := by
  have hbit : inodeBit (allocInodeMem m no) q = inodeBit ((m.store SuperBlock.freeInode 8
      (m.load SuperBlock.freeInode 8 + (2 ^ 64 - 1))).setBit inodeBitmap no) q := by
    refine inodeBit_congr hq fun x hx hx' => ?_
    unfold allocInodeMem
    exact Mem.fill_of_notMem (by simp only [INode.addr_eq]; omega)
  have hold : inodeBit (m.store SuperBlock.freeInode 8
      (m.load SuperBlock.freeInode 8 + (2 ^ 64 - 1))) q = inodeBit m q :=
    inodeBit_congr hq fun x hx hx' =>
      Mem.store_of_notMem (by simp only [SuperBlock.freeInode_eq]; omega)
  rw [hbit, inodeBit, Mem.bit_setBit, ← inodeBit, hold]

end Inodes

end ParchTestbench
