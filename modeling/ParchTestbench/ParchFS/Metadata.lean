import ParchTestbench.ParchFS.AllocatorEffect
import ParchTestbench.ParchFS.Volume

/-!
# ParchFS: formatting the metadata

The part of the constructor before the root directory is made: the checks of the
symbols, the clearing of the five metadata structures, the counters of the super
block, and the two loops that mark the blocks in use.

Main results:

- Theorem `checkLayout_outcome`: the checks pass only on the two fixed addresses.
- Theorem `markRange_outcome`: a marking loop inside the bitmaps sets the bits of
  its range and no others.
- Theorem `initMetadata_outcome`: the formatted metadata, when the kernel ends
  inside the bitmaps.
- Theorem `initMetadata_full`: when it does not, every block is marked.
-/

namespace ParchTestbench

open ParchFS Program

variable {s t : ParchFS} {env : Env} {a b n : Nat}

/-! ## Marking loops -/

/-- From `s` to `t` the blocks from `a` up to `a + n` have been marked. -/
structure MarkedRange (a n : Nat) (s t : ParchFS) : Prop where
  state : t = s.withMem t.mem
  frame : ∀ x, x < 0x7FFDF000 ∨ 0x7FFFF000 ≤ x → t.mem x = s.mem x
  fs : ∀ q, q < 524288 → fsBit t.mem q = (decide (a ≤ q ∧ q < a + n) || fsBit s.mem q)
  mm : ∀ q, q < 524288 → mmBit t.mem q = (decide (a ≤ q ∧ q < a + n) || mmBit s.mem q)

/-- Marking one block of the bitmaps. -/
theorem markUsed_outcome (hmapped : 0x80000000 ≤ s.mapped) (hb : b < 524288) :
    Outcome (markUsed b) s (fun _ t => MarkedRange b 1 s t) (fun _ => False) := by
  unfold markUsed BlockBitmap.set
  refine Outcome.bind_ok (Bitmap.set_eq (by omega) (by simp only [fsBlockBitmap]; omega)) ?_
  refine Outcome.of_eq_ok
    (Bitmap.set_eq (by omega) (by simp only [mmBlockBitmap, mapped_withMem]; omega)) ?_
  simp only [mem_withMem, withMem_withMem]
  have hone : ∀ q, decide (b ≤ q ∧ q < b + 1) = decide (q = b) := fun q =>
    decide_eq_decide.mpr (by omega)
  refine ⟨rfl, ?_, ?_, ?_⟩ <;> simp only [mem_withMem]
  · intro x hx
    rw [Mem.setBit_of_ne (by simp only [mmBlockBitmap]; omega),
      Mem.setBit_of_ne (by simp only [fsBlockBitmap]; omega)]
  · intro q hq
    rw [fsBit_congr hq fun x hx hx' => Mem.setBit_of_ne (by simp only [mmBlockBitmap]; omega),
      fsBit, Mem.bit_setBit, hone]
    rfl
  · intro q hq
    have hfs : mmBit (s.mem.setBit fsBlockBitmap b) q = mmBit s.mem q :=
      mmBit_congr hq fun x hx hx' => Mem.setBit_of_ne (by simp only [fsBlockBitmap]; omega)
    rw [mmBit, Mem.bit_setBit, ← mmBit, hfs, hone]

/-- A marking loop inside the bitmaps sets the bits of its range and no others. -/
theorem markRange_outcome (hmapped : 0x80000000 ≤ s.mapped) (hin : ∀ k, k < n → a + k < 524288) :
    Outcome (forUpTo n fun k => markUsed (a + k)) s (fun _ t => MarkedRange a n s t)
      (fun _ => False) := by
  refine Outcome.forUpTo (I := fun k t => MarkedRange a k s t) ⟨rfl, fun _ _ => rfl, ?_, ?_⟩ ?_
  · intro q _
    rw [decide_eq_false (by omega), Bool.false_or]
  · intro q _
    rw [decide_eq_false (by omega), Bool.false_or]
  · intro k u hk hu
    have hmapped' : 0x80000000 ≤ u.mapped := by rwa [hu.state, mapped_withMem]
    refine (markUsed_outcome hmapped' (hin k hk)).mono ?_ fun _ he => he
    intro _ v hv
    have hstep : ∀ q, (decide (a + k ≤ q ∧ q < a + k + 1) || decide (a ≤ q ∧ q < a + k)) =
        decide (a ≤ q ∧ q < a + (k + 1)) := fun q => by
      rw [← Bool.decide_or]
      exact decide_eq_decide.mpr (by omega)
    refine ⟨?_, fun x hx => (hv.frame x hx).trans (hu.frame x hx), ?_, ?_⟩
    · rw [hv.state, hu.state]
      rfl
    · intro q hq
      rw [hv.fs q hq, hu.fs q hq, ← Bool.or_assoc, hstep]
    · intro q hq
      rw [hv.mm q hq, hu.mm q hq, ← Bool.or_assoc, hstep]

/-- From `s` to `t` bits have been set above the inode bitmap, and the file system's
bits below `k` are set. -/
structure Overrun (k : Nat) (s t : ParchFS) : Prop where
  state : t = s.withMem t.mem
  frame : ∀ x, x < 0x7FFDF000 → t.mem x = s.mem x
  full : ∀ q, q < k → q < 524288 → fsBit t.mem q = true

/-- Setting a bit at or above the block bitmaps keeps the bits that are set. -/
theorem Overrun.set {k pos base : Nat} (h : Overrun k s t) (hbase : 0x7FFDF000 ≤ base) :
    Outcome (Bitmap.set base pos) t
      (fun _ u => Overrun k s u ∧ u = t.withMem (t.mem.setBit base pos)) (fun _ => True) := by
  by_cases hpos : pos < 2 ^ 31 ∧ base + pos / 8 + 1 ≤ t.mapped
  · refine Outcome.of_eq_ok (Bitmap.set_eq hpos.1 hpos.2) ⟨⟨?_, ?_, ?_⟩, rfl⟩
    · rw [h.state]
      rfl
    · intro x hx
      rw [mem_withMem, Mem.setBit_of_ne (by omega), h.frame x hx]
    · intro q hq hq'
      exact Mem.testBit_setBit_of_testBit (h.full q hq hq')
  · refine Outcome.intro (fun r u hrun => ?_) fun _ _ => trivial
    -- outside the range of positions or of the mapping the call aborts
    exfalso
    unfold Bitmap.set Bitmap.update at hrun
    by_cases hneg : 2 ^ 31 ≤ pos
    · rw [onlyIf_pos hneg] at hrun
      cases hrun
    · have hfault : load (base + pos / 8) 1 t = .error .fault := if_neg (by omega)
      rw [onlyIf_bind_neg hneg, bind_eq_error hfault] at hrun
      cases hrun

/-- A marking loop over all blocks of the bitmaps and beyond leaves none clear. -/
theorem markRange_full :
    Outcome (forUpTo n fun k => markUsed (0 + k)) s (fun _ t => Overrun n s t) (fun _ => True) := by
  refine Outcome.forUpTo (I := fun k t => Overrun k s t)
    ⟨rfl, fun _ _ => rfl, fun q hq => absurd hq (Nat.not_lt_zero q)⟩ ?_
  intro k t _ ht
  unfold markUsed BlockBitmap.set
  refine Outcome.bind ((ht.set (by simp only [fsBlockBitmap]; omega)).mono ?_ fun _ he => he)
  rintro _ u ⟨hu, hset⟩
  have hnext : Overrun (k + 1) s u := by
    refine ⟨hu.state, hu.frame, fun q hq hq' => ?_⟩
    rcases Nat.lt_succ_iff_lt_or_eq.mp hq with hlt | rfl
    · exact hu.full q hlt hq'
    · rw [hset, mem_withMem, fsBit, Mem.bit_setBit, Nat.zero_add]
      simp
  exact (hnext.set (by simp only [mmBlockBitmap]; omega)).mono (fun _ _ hv => hv.1) fun _ he => he

/-- Later marking loops keep all blocks marked. -/
theorem Overrun.markRange {k : Nat} (h : Overrun k s t) :
    Outcome (forUpTo n fun l => markUsed (a + l)) t (fun _ u => Overrun k s u) (fun _ => True) := by
  refine Outcome.forUpTo (I := fun _ u => Overrun k s u) h ?_
  intro l u _ hu
  unfold markUsed BlockBitmap.set
  refine Outcome.bind ((hu.set (by simp only [fsBlockBitmap]; omega)).mono ?_ fun _ he => he)
  rintro _ v ⟨hv, -⟩
  exact (hv.set (by simp only [mmBlockBitmap]; omega)).mono (fun _ _ hw => hw.1) fun _ he => he

/-! ## Clearing -/

/-- `SuperBlock::init` stays in its page and sets the two free counters. -/
theorem superBlockInit_outcome {managedLength now : Nat} (hmapped : 0x80000000 ≤ s.mapped)
    (hlen : managedLength < 2 ^ 64) :
    Outcome (SuperBlock.init managedLength now) s
      (fun _ t => t = s.withMem t.mem ∧ (∀ x, x < 0x7FFFF000 → t.mem x = s.mem x) ∧
        t.mem.load SuperBlock.freeInode 8 = 8192 ∧
        t.mem.load SuperBlock.freeBlock 8 = managedLength / 4096)
      (fun _ => False) := by
  have hblocks : managedLength / 4096 < 256 ^ 8 := by omega
  unfold SuperBlock.init
  simp only [SuperBlock.magic_eq, SuperBlock.xregs_eq, SuperBlock.baseKernelSatp_eq,
    SuperBlock.inodeCount_eq, SuperBlock.blockCount_eq, SuperBlock.freeInode_eq,
    SuperBlock.freeBlock_eq, SuperBlock.lastAccess_eq, SuperBlock.rootInode_eq,
    SuperBlock.reserved_eq, blkSize]
  refine Outcome.bind_ok (store_eq (by omega)) ?_
  refine Outcome.bind (Outcome.mono (Outcome.forUpTo
    (I := fun _ t => t = s.withMem t.mem ∧ ∀ x, x < 0x7FFFF000 → t.mem x = s.mem x) ?_ ?_) ?_
    fun _ he => he)
  · exact ⟨rfl, fun x hx => Mem.store_of_notMem (by omega)⟩
  · rintro k t hk ⟨hstate, hframe⟩
    refine Outcome.of_eq_ok (store_eq (by rw [hstate, mapped_withMem]; omega)) ⟨?_, ?_⟩
    · rw [hstate]
      rfl
    · intro x hx
      rw [mem_withMem, Mem.store_of_notMem (by omega), hframe x hx]
  rintro _ t ⟨hstate, hframe⟩
  have hmapped' : 0x80000000 ≤ t.mapped := by rwa [hstate, mapped_withMem]
  refine Outcome.bind_ok (store_eq (by omega)) ?_
  refine Outcome.bind_ok (store_eq (by rw [mapped_withMem]; omega)) ?_
  refine Outcome.bind_ok (store_eq (by simp only [mapped_withMem]; omega)) ?_
  refine Outcome.bind_ok (load_eq (by simp only [mapped_withMem]; omega)) ?_
  refine Outcome.bind_ok (store_eq (by simp only [mapped_withMem]; omega)) ?_
  refine Outcome.bind_ok (load_eq (by simp only [mapped_withMem]; omega)) ?_
  refine Outcome.bind_ok (store_eq (by simp only [mapped_withMem]; omega)) ?_
  refine Outcome.bind_ok (store_eq (by simp only [mapped_withMem]; omega)) ?_
  refine Outcome.bind_ok (store_eq (by simp only [mapped_withMem]; omega)) ?_
  refine Outcome.of_eq_ok (memset_eq (by simp only [mapped_withMem]; omega)) ?_
  simp only [mem_withMem, withMem_withMem]
  refine ⟨by rw [hstate]; rfl, fun x hx => ?_, ?_, ?_⟩
  · rw [Mem.fill_of_notMem (by omega)]
    iterate 7 rw [Mem.store_of_notMem (by omega)]
    exact hframe x hx
  · rw [Mem.load_fill_of_disjoint (by omega)]
    iterate 3 rw [Mem.load_store_of_disjoint (by omega)]
    -- the counter is a copy of `inode_count`
    rw [Mem.load_store, Mem.load_store_of_disjoint (by omega), Mem.load_store_of_lt (by omega)]
    rfl
  · rw [Mem.load_fill_of_disjoint (by omega)]
    iterate 2 rw [Mem.load_store_of_disjoint (by omega)]
    -- the counter is a copy of `block_count`
    rw [Mem.load_store, Mem.load_store_of_disjoint (by omega), Mem.load_store_of_lt hblocks,
      Nat.mod_eq_of_lt hblocks]

/-- The metadata before the marking loops, for a managed length `len`. -/
structure Cleared (len : Nat) (s t : ParchFS) : Prop where
  state : t = s.withMem t.mem
  low : ∀ x, x < 0x7FDDE000 → t.mem x = s.mem x
  table : ∀ x, 0x7FDDE000 ≤ x → x < 0x7FFDE000 → t.mem x = 0
  inodeBit_eq : ∀ no, no < 32768 → inodeBit t.mem no = decide (no = 0)
  fs : ∀ q, q < 524288 → fsBit t.mem q = decide (q = 0)
  mm : ∀ q, q < 524288 → mmBit t.mem q = decide (q = 0)
  freeInode_eq : t.mem.load SuperBlock.freeInode 8 = 8192
  freeBlock_eq : t.mem.load SuperBlock.freeBlock 8 = len / 4096

theorem clearMetadata_outcome {len now : Nat} (hmapped : 0x80000000 ≤ s.mapped)
    (hlen : len < 2 ^ 64) :
    Outcome (clearMetadata len now) s (fun _ t => Cleared len s t) (fun _ => False) := by
  unfold clearMetadata BlockBitmap.clearAll INodeBitmap.clearAll INodeList.clearAll BlockBitmap.set
    INodeBitmap.set
  refine Outcome.bind_ok (memset_eq (by simp only [fsBlockBitmap]; omega)) ?_
  refine Outcome.bind_ok (memset_eq (by simp only [mmBlockBitmap, mapped_withMem]; omega)) ?_
  refine Outcome.bind_ok (memset_eq (by simp only [inodeBitmap, mapped_withMem]; omega)) ?_
  refine Outcome.bind_ok (memset_eq (by simp only [inodeList, blkSize, mapped_withMem]; omega)) ?_
  simp only [mem_withMem, withMem_withMem]
  refine Outcome.bind ((superBlockInit_outcome (by rwa [mapped_withMem]) hlen).mono ?_
    fun _ he => he)
  rintro _ t ⟨hstate, hframe, hfi, hfb⟩
  rw [mem_withMem] at hframe
  have hmapped' : 0x80000000 ≤ t.mapped := by rwa [hstate, mapped_withMem, mapped_withMem]
  refine Outcome.bind_ok (Bitmap.set_eq (by decide)
    (by simp only [fsBlockBitmap, badBlock]; omega)) ?_
  refine Outcome.bind_ok (Bitmap.set_eq (by decide)
    (by simp only [mmBlockBitmap, badBlock, mapped_withMem]; omega)) ?_
  refine Outcome.of_eq_ok (Bitmap.set_eq (by decide)
    (by simp only [inodeBitmap, badInode, mapped_withMem]; omega)) ?_
  simp only [mem_withMem, withMem_withMem, badBlock, badInode]
  have hzero : ∀ x, 0x7FDDE000 ≤ x → x < 0x7FFFF000 → t.mem x = 0 := by
    intro x hx hx'
    rw [hframe x hx']
    by_cases hlist : x < 0x7FFDE000
    · exact Mem.fill_of_mem (by simp only [inodeList]; omega)
        (by simp only [inodeList, blkSize]; omega)
    rw [Mem.fill_of_notMem (by simp only [inodeList, blkSize]; omega)]
    by_cases hino : x < 0x7FFDF000
    · exact Mem.fill_of_mem (by simp only [inodeBitmap]; omega) (by simp only [inodeBitmap]; omega)
    rw [Mem.fill_of_notMem (by simp only [inodeBitmap]; omega)]
    by_cases hmm : x < 0x7FFEF000
    · exact Mem.fill_of_mem (by simp only [mmBlockBitmap]; omega)
        (by simp only [mmBlockBitmap]; omega)
    rw [Mem.fill_of_notMem (by simp only [mmBlockBitmap]; omega)]
    exact Mem.fill_of_mem (by simp only [fsBlockBitmap]; omega)
      (by simp only [fsBlockBitmap]; omega)
  -- the three bits that are set lie in three different bytes
  have hout : ∀ x, x ≠ 0x7FFDE000 → x ≠ 0x7FFDF000 → x ≠ 0x7FFEF000 →
      (((t.mem.setBit fsBlockBitmap 0).setBit mmBlockBitmap 0).setBit inodeBitmap 0) x =
        t.mem x := by
    intro x h1 h2 h3
    rw [Mem.setBit_of_ne (by simp only [inodeBitmap]; omega),
      Mem.setBit_of_ne (by simp only [mmBlockBitmap]; omega),
      Mem.setBit_of_ne (by simp only [fsBlockBitmap]; omega)]
  have hload : ∀ a, 0x7FFFF000 ≤ a →
      (((t.mem.setBit fsBlockBitmap 0).setBit mmBlockBitmap 0).setBit inodeBitmap 0).load a 8 =
        t.mem.load a 8 := fun a ha =>
    Mem.load_congr fun x hx hx' => hout x (by omega) (by omega) (by omega)
  refine ⟨by rw [hstate]; rfl, ?_, ?_, ?_, ?_, ?_, ?_, ?_⟩ <;> simp only [mem_withMem]
  · intro x hx
    rw [hout x (by omega) (by omega) (by omega), hframe x (by omega),
      Mem.fill_of_notMem (by simp only [inodeList, blkSize]; omega),
      Mem.fill_of_notMem (by simp only [inodeBitmap]; omega),
      Mem.fill_of_notMem (by simp only [mmBlockBitmap]; omega),
      Mem.fill_of_notMem (by simp only [fsBlockBitmap]; omega)]
  · intro x hx hx'
    rw [hout x (by omega) (by omega) (by omega), hzero x hx (by omega)]
  · intro no hno
    rw [inodeBit, Mem.bit_setBit, Mem.bit_eq_false, Bool.or_false]
    rw [Mem.setBit_of_ne (by simp only [inodeBitmap, mmBlockBitmap]; omega),
      Mem.setBit_of_ne (by simp only [inodeBitmap, fsBlockBitmap]; omega),
      hzero _ (by simp only [inodeBitmap]; omega) (by simp only [inodeBitmap]; omega)]
  · intro q hq
    rw [fsBit_congr hq fun x hx hx' => Mem.setBit_of_ne (by simp only [inodeBitmap]; omega),
      fsBit_congr hq fun x hx hx' => Mem.setBit_of_ne (by simp only [mmBlockBitmap]; omega),
      fsBit, Mem.bit_setBit, Mem.bit_eq_false, Bool.or_false]
    exact hzero _ (by simp only [fsBlockBitmap]; omega) (by simp only [fsBlockBitmap]; omega)
  · intro q hq
    rw [mmBit_congr hq fun x hx hx' => Mem.setBit_of_ne (by simp only [inodeBitmap]; omega),
      mmBit, Mem.bit_setBit, Mem.bit_eq_false, Bool.or_false]
    rw [Mem.setBit_of_ne (by simp only [mmBlockBitmap, fsBlockBitmap]; omega),
      hzero _ (by simp only [mmBlockBitmap]; omega) (by simp only [mmBlockBitmap]; omega)]
  · rw [hload _ (by rw [SuperBlock.freeInode_eq]; omega), hfi]
  · rw [hload _ (by rw [SuperBlock.freeBlock_eq]; omega), hfb]

/-! ## The checks of the symbols -/

/-- The symbols that the constructor lets pass. -/
structure Checked (s : ParchFS) : Prop where
  sKernel_eq : s.sKernel = 0x80000000
  eReserve_eq : s.eReserve = 0x100000000
  eKernel_ne : s.eKernel ≠ 0
  sReserve_ne : s.sReserve ≠ 0

theorem Checked.checkLayout_eq (h : Checked s) : checkLayout s = .ok ((), s) := by
  have hget : (get : ParchM ParchFS) s = .ok (s, s) := rfl
  have hsome : ¬ (s.sKernel = 0 ∨ s.eKernel = 0 ∨ s.sReserve = 0 ∨ s.eReserve = 0) := by
    have h1 := h.sKernel_eq
    have h2 := h.eReserve_eq
    have h3 := h.eKernel_ne
    have h4 := h.sReserve_ne
    omega
  unfold checkLayout
  rw [bind_eq_ok hget, onlyIf_bind_neg hsome,
    onlyIf_bind_neg (by rw [h.sKernel_eq]; simp only [baseAddress, ne_eq, not_true, not_false_iff]),
    onlyIf_bind_neg
      (by rw [h.eReserve_eq]; simp only [physEndAddress, ne_eq, not_true, not_false_iff])]
  rw [h.sKernel_eq, h.eReserve_eq]
  rw [bind_eq_ok (assert_eq (by norm_num)), bind_eq_ok (assert_eq (by norm_num)),
    bind_eq_ok (assert_eq (by norm_num)), bind_eq_ok (assert_eq (by norm_num)),
    assert_eq (by norm_num [blkSize])]

/-- The checks pass only on the two fixed addresses. -/
theorem checked_of_checkLayout (hrun : checkLayout s = .ok ((), t)) : Checked s ∧ t = s := by
  have hchecked : Checked s := by
    by_contra hnot
    have hget : (get : ParchM ParchFS) s = .ok (s, s) := rfl
    unfold checkLayout at hrun
    rw [bind_eq_ok hget] at hrun
    by_cases hsome : s.sKernel = 0 ∨ s.eKernel = 0 ∨ s.sReserve = 0 ∨ s.eReserve = 0
    · rw [onlyIf_pos hsome] at hrun
      cases hrun
    rw [onlyIf_bind_neg hsome] at hrun
    by_cases hbase : s.sKernel ≠ baseAddress
    · rw [onlyIf_pos hbase] at hrun
      cases hrun
    rw [onlyIf_bind_neg hbase] at hrun
    by_cases hend : s.eReserve ≠ physEndAddress
    · rw [onlyIf_pos hend] at hrun
      cases hrun
    simp only [baseAddress, physEndAddress] at hbase hend
    exact hnot ⟨by omega, by omega, by omega, by omega⟩
  rw [hchecked.checkLayout_eq] at hrun
  cases hrun
  exact ⟨hchecked, rfl⟩

/-! ## The formatted metadata -/

/-- The metadata when the kernel ends in block `e`, the reserve starts at block `r`
and the managed length is `len`. -/
structure Formatted (e r len : Nat) (s t : ParchFS) : Prop where
  state : t = s.withMem t.mem
  low : ∀ x, x < 0x7FDDE000 → t.mem x = s.mem x
  table : ∀ x, 0x7FDDE000 ≤ x → x < 0x7FFDE000 → t.mem x = 0
  inodeBit_eq : ∀ no, no < 32768 → inodeBit t.mem no = decide (no = 0)
  fs : ∀ q, q < 524288 → fsBit t.mem q = decide (q ≤ e ∨ r ≤ q)
  mm : ∀ q, q < 524288 → mmBit t.mem q = decide (q ≤ e ∨ r ≤ q)
  freeInode_eq : t.mem.load SuperBlock.freeInode 8 = 8192
  freeBlock_eq : t.mem.load SuperBlock.freeBlock 8 = len / 4096

/-- `block_count` of the super block is computed from this length. -/
def managedLength (s : ParchFS) : Nat := (s.sReserve + 2 ^ 64 - s.eKernel) % 2 ^ 64

theorem pa2blkno_sKernel (s : ParchFS) : pa2blkno s s.sKernel = 0 := by
  have hsub : s.sKernel + 2 ^ 64 - s.sKernel = 2 ^ 64 := by omega
  unfold pa2blkno
  rw [hsub]
  decide

theorem Checked.pa2blkno_eReserve (h : Checked s) : pa2blkno s s.eReserve = 524288 := by
  unfold pa2blkno
  rw [h.sKernel_eq, h.eReserve_eq]
  decide

/-- The formatted metadata, when the kernel ends inside the bitmaps. -/
theorem initMetadata_outcome (hmapped : 0x80000000 ≤ s.mapped) (hs : Checked s)
    (he : pa2blkno s s.eKernel < 524288) :
    Outcome (initMetadata env) s
      (fun _ t => Formatted (pa2blkno s s.eKernel) (reserveStart s) (managedLength s) s t)
      (fun _ => False) := by
  have hget : (get : ParchM ParchFS) s = .ok (s, s) := rfl
  unfold initMetadata
  refine Outcome.bind_ok hget ?_
  refine Outcome.bind ((clearMetadata_outcome hmapped (Nat.mod_lt _ (by norm_num))).mono ?_
    fun _ he => he)
  intro _ t ht
  have hmapped1 : 0x80000000 ≤ t.mapped := by rwa [ht.state, mapped_withMem]
  rw [pa2blkno_sKernel, hs.pa2blkno_eReserve]
  refine Outcome.bind ((markRange_outcome hmapped1 fun k hk => by omega).mono ?_ fun _ he => he)
  intro _ u hu
  have hmapped2 : 0x80000000 ≤ u.mapped := by rwa [hu.state, mapped_withMem]
  refine (markRange_outcome hmapped2 fun k hk => by omega).mono ?_ fun _ he => he
  intro _ v hv
  have hout : ∀ x, x < 0x7FFDF000 ∨ 0x7FFFF000 ≤ x → v.mem x = t.mem x := fun x hx =>
    (hv.frame x hx).trans (hu.frame x hx)
  have hbits : ∀ q, q < 524288 →
      (decide (reserveStart s ≤ q ∧ q < reserveStart s + (524288 - reserveStart s)) ||
        (decide (0 ≤ q ∧ q < 0 + (pa2blkno s s.eKernel + 1 - 0)) || decide (q = 0))) =
      decide (q ≤ pa2blkno s s.eKernel ∨ reserveStart s ≤ q) := fun q hq => by
    rw [← Bool.decide_or, ← Bool.decide_or]
    exact decide_eq_decide.mpr (by omega)
  refine ⟨?_, ?_, ?_, ?_, ?_, ?_, ?_, ?_⟩
  · rw [hv.state, hu.state, ht.state]
    rfl
  · intro x hx
    rw [hout x (by omega), ht.low x hx]
  · intro x hx hx'
    rw [hout x (by omega), ht.table x hx hx']
  · intro no hno
    rw [inodeBit_congr hno fun x hx hx' => hout x (by omega), ht.inodeBit_eq no hno]
  · intro q hq
    rw [hv.fs q hq, hu.fs q hq, ht.fs q hq, hbits q hq]
  · intro q hq
    rw [hv.mm q hq, hu.mm q hq, ht.mm q hq, hbits q hq]
  · rw [Mem.load_congr fun x hx hx' => hout x (by rw [SuperBlock.freeInode_eq] at hx; omega),
      ht.freeInode_eq]
  · rw [Mem.load_congr fun x hx hx' => hout x (by rw [SuperBlock.freeBlock_eq] at hx; omega),
      ht.freeBlock_eq]
    rfl

/-- The metadata of a kernel that does not end inside the bitmaps. -/
structure Overfull (s t : ParchFS) : Prop where
  state : t = s.withMem t.mem
  table : ∀ x, 0x7FDDE000 ≤ x → x < 0x7FFDE000 → t.mem x = 0
  inodeBit_eq : ∀ no, no < 32768 → inodeBit t.mem no = decide (no = 0)
  full : ∀ q, q < 524288 → fsBit t.mem q = true

/-- When the kernel does not end inside the bitmaps, every block is marked. -/
theorem initMetadata_full (hmapped : 0x80000000 ≤ s.mapped)
    (he : 524288 ≤ pa2blkno s s.eKernel) :
    Outcome (initMetadata env) s (fun _ t => Overfull s t) (fun _ => True) := by
  have hget : (get : ParchM ParchFS) s = .ok (s, s) := rfl
  unfold initMetadata
  refine Outcome.bind_ok hget ?_
  refine Outcome.bind ((clearMetadata_outcome hmapped (Nat.mod_lt _ (by norm_num))).mono ?_
    fun _ _ => trivial)
  intro _ t ht
  rw [pa2blkno_sKernel]
  refine Outcome.bind (markRange_full.mono ?_ fun _ he => he)
  intro _ u hu
  refine hu.markRange.mono ?_ fun _ he => he
  intro _ v hv
  refine ⟨?_, ?_, ?_, fun q hq => hv.full q (by omega) hq⟩
  · rw [hv.state, ht.state]
    rfl
  · intro x hx hx'
    rw [hv.frame x (by omega), ht.table x hx hx']
  · intro no hno
    rw [inodeBit_congr hno fun x hx hx' => hv.frame x hx', ht.inodeBit_eq no hno]

theorem mapped_of_memset {c : UInt8} (hrun : memset a c n s = .ok ((), t)) :
    a + n ≤ s.mapped ∧ t.mapped = s.mapped := by
  unfold memset at hrun
  split at hrun
  · rename_i hle
    cases hrun
    exact ⟨hle, rfl⟩
  · cases hrun

/-- The metadata does not fit a shorter mapping: whole pages are mapped, and the
super block is the last page. -/
theorem mapped_of_initMetadata (hrun : initMetadata env s = .ok ((), t)) :
    0x80000000 ≤ s.mapped := by
  have hpages : s.mapped = 4096 * ((s.mmapBin.size + 4095) / 4096) := rfl
  have hget : (get : ParchM ParchFS) s = .ok (s, s) := rfl
  unfold initMetadata at hrun
  rw [bind_eq_ok hget] at hrun
  obtain ⟨_, _, hclear, -⟩ := exists_of_bind_eq_ok hrun
  unfold clearMetadata BlockBitmap.clearAll INodeBitmap.clearAll INodeList.clearAll at hclear
  obtain ⟨_, s1, h1, hclear⟩ := exists_of_bind_eq_ok hclear
  obtain ⟨_, s2, h2, hclear⟩ := exists_of_bind_eq_ok hclear
  obtain ⟨_, s3, h3, hclear⟩ := exists_of_bind_eq_ok hclear
  obtain ⟨_, s4, h4, hclear⟩ := exists_of_bind_eq_ok hclear
  obtain ⟨_, s5, h5, -⟩ := exists_of_bind_eq_ok hclear
  unfold SuperBlock.init at h5
  obtain ⟨_, _, hmagic, -⟩ := exists_of_bind_eq_ok h5
  have hle : SuperBlock.magic + 8 ≤ s4.mapped := by
    by_contra hnot
    have hfault : store SuperBlock.magic 8 0xBEEFBEEFBEEFBEEF s4 = .error .fault := if_neg hnot
    rw [hfault] at hmagic
    cases hmagic
  rw [(mapped_of_memset h4).2, (mapped_of_memset h3).2, (mapped_of_memset h2).2,
    (mapped_of_memset h1).2, SuperBlock.magic_eq] at hle
  omega

end ParchTestbench
