import ParchTestbench.ParchFS.Creation
import ParchTestbench.ParchFS.Metadata

/-!
# ParchFS: the root directory on any layout

The constructor makes the root directory right after formatting the metadata.  Its
first block is the first clear one, and nothing in the checks keeps that block off
the metadata.  This file follows `make_dir` for the root whatever that block is.

Main results:

- Theorem `rootDir_outcome`: the root takes the first clear block `B`, and the call
  aborts only for three blocks that make it read its own zeroed metadata.
- Theorem `rootDir_full`: with no clear block the call aborts.
-/

namespace ParchTestbench

open ParchFS Program

variable {s t u : ParchFS} {env : Env} {off pos B : Nat} {create : Bool} {d : DEntry}

/-! ## The first block of an inode -/

section FirstBlock

variable {i : Nat}

/-- With the first block in place `get_blkno` changes nothing there. -/
theorem getBlkno_present (hmapped : 0x80000000 ≤ s.mapped) (hi : i < 8192)
    (hslot : s.mem.load (INode.directBlkNo i 0) 4 = B) (hB : B ≠ 0) (hoff : off < 4096)
    (hsize : off ≤ fileSize s.mem i) : INode.getBlkno i off create s = .ok (B, s) := by
  have hload : load (INode.fSize i) 8 s = .ok (fileSize s.mem i, s) :=
    load_eq (by simp only [INode.fSize_eq]; omega)
  have hslot' : load (INode.directBlkNo i 0) 4 s = .ok (B, s) := by
    rw [load_eq (by simp only [INode.directBlkNo_eq]; omega), hslot]
  have hkeep : INode.allocIfBad (INode.directBlkNo i 0) s = .ok ((), s) := by
    unfold INode.allocIfBad
    rw [bind_eq_ok hslot', onlyIf_neg (show ¬ B = badBlock from hB)]
    rfl
  have hone : min directBlkCount (off / blkSize + 1) = 1 := by
    simp only [directBlkCount, blkSize]
    omega
  have hloop : forUpTo 1 (fun k => INode.allocIfBad (INode.directBlkNo i k)) s = .ok ((), s) := by
    show ((pure () : ParchM Unit) >>= fun _ => INode.allocIfBad (INode.directBlkNo i 0)) s = _
    rw [bind_eq_ok (show (pure () : ParchM Unit) s = .ok ((), s) from rfl), hkeep]
  have hfill : onlyIf (create = true) (forUpTo 1 fun k =>
      INode.allocIfBad (INode.directBlkNo i k)) s = .ok ((), s) := by
    cases create with
    | false => rfl
    | true => rw [onlyIf_pos rfl, hloop]
  have hzero : off / blkSize = 0 := by
    simp only [blkSize]
    omega
  unfold INode.getBlkno
  rw [bind_eq_ok hload, onlyIf_bind_neg (by omega), bind_eq_ok hload, bind_eq_ok (assert_eq hsize),
    hone, bind_eq_ok hfill, if_pos (show off < blkSize * directBlkCount by
      simp only [blkSize, directBlkCount]; omega), hzero]
  exact hslot'

/-- Without a first block `get_blkno` allocates it. -/
theorem getBlkno_absent (hmapped : 0x80000000 ≤ s.mapped) (hi : i < 8192) (hB : B < 524288)
    (hclear : fsBit s.mem B = false) (hset : ∀ q, q < B → fsBit s.mem q = true)
    (hoff : off < 4096) (hsize : off ≤ fileSize s.mem i)
    (hslot : s.mem.load (INode.directBlkNo i 0) 4 = 0) :
    INode.getBlkno i off true s =
      .ok (B, s.withMem (allocIntoMem s.mem (INode.directBlkNo i 0) B)) := by
  have haddr : INode.directBlkNo i 0 + 4 ≤ s.mapped := by
    simp only [INode.directBlkNo_eq]
    omega
  have hload : load (INode.fSize i) 8 s = .ok (fileSize s.mem i, s) :=
    load_eq (by simp only [INode.fSize_eq]; omega)
  have hload0 : load (INode.directBlkNo i 0) 4 s = .ok (0, s) := by rw [load_eq haddr, hslot]
  have halloc : INode.allocIfBad (INode.directBlkNo i 0) s =
      .ok ((), s.withMem (allocIntoMem s.mem (INode.directBlkNo i 0) B)) := by
    unfold INode.allocIfBad INode.allocInto
    rw [bind_eq_ok hload0, onlyIf_pos (show 0 = badBlock from rfl),
      bind_eq_ok (allocBlk_eq hmapped hB hclear hset),
      store_eq (by rw [mapped_withMem]; exact haddr)]
    rfl
  have hone : min directBlkCount (off / blkSize + 1) = 1 := by
    simp only [directBlkCount, blkSize]
    omega
  have hzero : off / blkSize = 0 := by
    simp only [blkSize]
    omega
  have hresult : load (INode.directBlkNo i 0) 4
      (s.withMem (allocIntoMem s.mem (INode.directBlkNo i 0) B)) =
        .ok (B, s.withMem (allocIntoMem s.mem (INode.directBlkNo i 0) B)) := by
    rw [load_eq (by rw [mapped_withMem]; exact haddr), mem_withMem, allocIntoMem,
      Mem.load_store_of_lt (by omega)]
  have hloop : forUpTo 1 (fun k => INode.allocIfBad (INode.directBlkNo i k)) s =
      .ok ((), s.withMem (allocIntoMem s.mem (INode.directBlkNo i 0) B)) := by
    show ((pure () : ParchM Unit) >>= fun _ => INode.allocIfBad (INode.directBlkNo i 0)) s = _
    rw [bind_eq_ok (show (pure () : ParchM Unit) s = .ok ((), s) from rfl), halloc]
  unfold INode.getBlkno
  rw [bind_eq_ok hload, onlyIf_bind_neg (by omega), bind_eq_ok hload, bind_eq_ok (assert_eq hsize),
    onlyIf_pos rfl, hone, bind_eq_ok hloop, if_pos (show off < blkSize * directBlkCount by
      simp only [blkSize, directBlkCount]; omega), hzero]
  exact hresult

/-- An offset past the end is first stored as the size. -/
theorem getBlkno_grow (hmapped : 0x80000000 ≤ s.mapped) (hi : i < 8192)
    (hsize : fileSize s.mem i < off) (hoff : off < 2 ^ 64) :
    INode.getBlkno i off true s =
      INode.getBlkno i off true (s.withMem (s.mem.store (INode.fSize i) 8 off)) := by
  have haddr : INode.fSize i + 8 ≤ s.mapped := by
    rw [INode.fSize_eq]
    omega
  have hload : load (INode.fSize i) 8 s = .ok (fileSize s.mem i, s) := load_eq haddr
  have hload' : load (INode.fSize i) 8 (s.withMem (s.mem.store (INode.fSize i) 8 off)) =
      .ok (off, s.withMem (s.mem.store (INode.fSize i) 8 off)) := by
    rw [load_eq (by rw [mapped_withMem]; exact haddr), mem_withMem,
      show (s.mem.store (INode.fSize i) 8 off).load (INode.fSize i) 8 = off from
        fileSize_store hoff]
  unfold INode.getBlkno
  rw [bind_eq_ok hload, onlyIf_pos ⟨rfl, hsize⟩, bind_eq_ok (store_eq haddr), bind_eq_ok hload']
  -- the size read again is the offset, so that nothing more is stored
  rw [bind_eq_ok hload', onlyIf_bind_neg (fun hc => Nat.lt_irrefl _ hc.2), bind_eq_ok hload']

end FirstBlock

/-! ## The root with its first block -/

/-- The field that holds the number of the root's first block. -/
abbrev rootSlot : Nat := INode.directBlkNo rootInode 0

/-- The root's first block is `B` and `get_blk` accepts it. -/
structure RootBlock (B : Nat) (s : ParchFS) : Prop where
  mapped : 0x80000000 ≤ s.mapped
  lt : B < 524288
  ne_zero : B ≠ 0
  slot : s.mem.load rootSlot 4 = B
  fs : fsBit s.mem B = true
  mm : mmBit s.mem B = true
  ne_mm : B ≠ 0x7FFEE
  ne_fs : B ≠ 0x7FFFE

namespace RootBlock

/-- With its first block in place the root's `get_blkno` changes nothing there. -/
theorem getBlkno_eq (h : RootBlock B s) (hoff : off < 4096)
    (hsize : off ≤ fileSize s.mem rootInode) :
    INode.getBlkno rootInode off create s = .ok (B, s) :=
  getBlkno_present h.mapped (by decide) h.slot h.ne_zero hoff hsize

theorem getBlk_eq (h : RootBlock B s) : getBlk B s = .ok (4096 * B, s) :=
  ParchTestbench.getBlk_eq h.mapped h.lt h.fs h.mm

/-- The address of one of the first entries of the root. -/
theorem getDentry_eq (h : RootBlock B s) (hdir : fileType s.mem rootInode = FType.DIR.code)
    (hsize : fileSize s.mem rootInode = 256) (hpos : pos < 2) :
    INode.getDentry rootInode pos s = .ok (4096 * B + 128 * pos, s) := by
  have hmapped := h.mapped
  have htype : load (INode.fType rootInode) 2 s = .ok (fileType s.mem rootInode, s) :=
    load_eq (by simp only [INode.fType_eq, rootInode]; omega)
  have hentry : 4096 * B + dentrySize * (pos % dentryPerBlk) = 4096 * B + 128 * pos := by
    simp only [dentrySize, dentryPerBlk]
    omega
  unfold INode.getDentry
  rw [bind_eq_ok htype, onlyIf_bind_neg (not_not.mpr hdir), Nat.mod_eq_of_lt (by omega),
    bind_eq_ok (h.getBlkno_eq (by simp only [dentrySize]; omega)
      (by simp only [dentrySize]; omega)), onlyIf_bind_neg (by exact h.ne_zero),
    bind_eq_ok (h.getBlkno_eq (by simp only [dentrySize]; omega)
      (by simp only [dentrySize]; omega)), onlyIf_bind_neg (by exact h.ne_zero),
    bind_eq_ok h.getBlk_eq, ← hentry]
  rfl

/-- Writing entries into the block does not disturb it. -/
theorem of_frame (h : RootBlock B s) (m : Mem)
    (hframe : ∀ x, x < 4096 * B ∨ 4096 * B + 256 ≤ x → m x = s.mem x) :
    RootBlock B (s.withMem m) := by
  have hlt := h.lt
  have hfs := h.ne_fs
  have hmm := h.ne_mm
  refine ⟨by rw [mapped_withMem]; exact h.mapped, hlt, h.ne_zero, ?_, ?_, ?_, hmm, hfs⟩ <;>
    simp only [mem_withMem]
  · rw [← h.slot]
    exact Mem.load_congr fun x hx hx' => hframe x (by
      simp only [rootSlot, INode.directBlkNo_eq, rootInode] at hx hx'
      omega)
  · rw [← h.fs]
    exact Mem.bit_congr (hframe _ (by simp only [fsBlockBitmap]; omega))
  · rw [← h.mm]
    exact Mem.bit_congr (hframe _ (by simp only [mmBlockBitmap]; omega))

end RootBlock

/-- `memset(de, 0, sizeof(DEntry))` and `*de = d`. -/
theorem storeAt_eq {a : Nat} (ha : a + 128 ≤ s.mapped) :
    (do
      memset a 0 dentrySize
      memcpy a d.bytes : ParchM Unit) s = .ok ((), s.withMem (s.mem.copy a d.bytes)) := by
  have hlen := d.length_bytes
  have hcopy : (s.mem.fill a dentrySize 0).copy a d.bytes = s.mem.copy a d.bytes := by
    rw [show dentrySize = d.bytes.length from hlen.symm]
    exact Mem.copy_fill
  rw [bind_eq_ok (memset_eq (by exact ha)), memcpy_eq (by rw [mapped_withMem, hlen]; exact ha),
    mem_withMem, withMem_withMem, hcopy]

/-! ## The block of the first entry -/

section Allocated

variable {m : Mem} {x : Nat}

theorem load_rootSlot (hB : B < 524288) : (allocIntoMem m rootSlot B).load rootSlot 4 = B :=
  Mem.load_store_of_lt (by omega)

/-- The block's bit of the file system is lost when the block holds that bit. -/
theorem fsBit_root (hB : B < 524288) :
    fsBit (allocIntoMem m rootSlot B) B = decide (B ≠ 0x7FFFE) := by
  rw [← fsBit_allocMem_self (m := m) hB]
  exact fsBit_congr hB fun x hx hx' => Mem.store_of_notMem
    (by simp only [rootSlot, INode.directBlkNo_eq, rootInode]; omega)

/-- The block's bit of the memory manager is lost when the block holds that bit. -/
theorem mmBit_root (hB : B < 524288) :
    mmBit (allocIntoMem m rootSlot B) B = decide (B ≠ 0x7FFEE) := by
  rw [← mmBit_allocMem_self (m := m) hB]
  exact mmBit_congr hB fun x hx hx' => Mem.store_of_notMem
    (by simp only [rootSlot, INode.directBlkNo_eq, rootInode]; omega)

/-- The fields of the root lie off its own block, unless that is the first page of the
inode table. -/
theorem allocIntoMem_root (hB : B < 524288) (hne : B ≠ 0x7FDDE) (hx : 0x7FDDE100 ≤ x)
    (hx' : x < 0x7FDDE200) (hslot : x < 0x7FDDE114 ∨ 0x7FDDE118 ≤ x) :
    allocIntoMem m rootSlot B x = m x :=
  allocIntoMem_of_notMem hB (by omega) (by omega) (by omega)
    (by simp only [rootSlot, INode.directBlkNo_eq, rootInode]; omega)

/-- The first bytes of the block are zero. -/
theorem allocIntoMem_block (hx : 4096 * B ≤ x) (hx' : x < 4096 * B + 256) :
    allocIntoMem m rootSlot B x = 0 :=
  allocIntoMem_of_mem hx (by omega)
    (by simp only [rootSlot, INode.directBlkNo_eq, rootInode]; omega)

/-- After the allocation the root's first block is in place, unless it is one of the
two blocks that hold their own bits. -/
theorem rootBlock_of_alloc (hmapped : 0x80000000 ≤ s.mapped) (hB : B < 524288) (hB0 : B ≠ 0)
    (hmm : B ≠ 0x7FFEE) (hfs : B ≠ 0x7FFFE) :
    RootBlock B (s.withMem (allocIntoMem s.mem rootSlot B)) where
  mapped := hmapped
  lt := hB
  ne_zero := hB0
  slot := load_rootSlot hB
  fs := (fsBit_root hB).trans (decide_eq_true hfs)
  mm := (mmBit_root hB).trans (decide_eq_true hmm)
  ne_mm := hmm
  ne_fs := hfs

end Allocated

/-- The entry `.` of the root. -/
theorem addDot_outcome (hmapped : 0x80000000 ≤ s.mapped) (hB : B < 524288) (hB0 : B ≠ 0)
    (hclear : fsBit s.mem B = false) (hset : ∀ q, q < B → fsBit s.mem q = true)
    (hdir : fileType s.mem rootInode = FType.DIR.code) (hsize : fileSize s.mem rootInode = 256)
    (hslot : s.mem.load rootSlot 4 = 0) :
    Outcome (INode.addDentry rootInode d) s
      (fun _ t => (B ≠ 0x7FFEE ∧ B ≠ 0x7FFFE) ∧
        t = s.withMem ((allocIntoMem s.mem rootSlot B).copy (4096 * B) d.bytes))
      (fun _ => B = 0x7FFEE ∨ B = 0x7FFFE) := by
  have hlen := d.length_bytes
  have htype : load (INode.fType rootInode) 2 s = .ok (FType.DIR.code, s) := by
    rw [← hdir]
    exact load_eq (by simp only [INode.fType_eq, rootInode]; omega)
  have hloadSize : load (INode.fSize rootInode) 8 s = .ok (256, s) := by
    rw [← hsize]
    exact load_eq (by simp only [INode.fSize_eq, rootInode]; omega)
  have hfirst : INode.getBlkno rootInode (dentrySize * ((0 + 1) % 2 ^ 32)) true s =
      .ok (B, s.withMem (allocIntoMem s.mem rootSlot B)) :=
    getBlkno_absent hmapped (by decide) hB hclear hset (by decide) (by rw [hsize]; decide) hslot
  have hagain : INode.getBlkno rootInode (dentrySize * 0) false
      (s.withMem (allocIntoMem s.mem rootSlot B)) =
        .ok (B, s.withMem (allocIntoMem s.mem rootSlot B)) :=
    getBlkno_present hmapped (by decide) (load_rootSlot hB) hB0 (by decide) (Nat.zero_le _)
  unfold INode.addDentry
  refine Outcome.bind_ok htype ?_
  refine Outcome.onlyIf_bind_neg (not_not.mpr rfl) ?_
  have hfuel : 2 ^ 31 = (2 ^ 31 - 1) + 1 := by norm_num
  rw [hfuel, INode.addDentryFrom]
  refine Outcome.bind_ok hloadSize ?_
  rw [onlyIf_pos (Nat.zero_le _)]
  unfold INode.getDentry
  refine Outcome.bind (Outcome.bind_ok htype ?_)
  refine Outcome.onlyIf_bind_neg (not_not.mpr rfl) ?_
  refine Outcome.bind_ok hfirst ?_
  refine Outcome.onlyIf_bind_neg hB0 ?_
  refine Outcome.bind_ok hagain ?_
  refine Outcome.onlyIf_bind_neg hB0 ?_
  refine Outcome.bind ((getBlk_outcome (by rwa [mapped_withMem]) hB).mono ?_ ?_)
  swap
  · intro _ hbits
    rw [mem_withMem, fsBit_root hB, mmBit_root hB, decide_eq_false_iff_not,
      decide_eq_false_iff_not] at hbits
    omega
  rintro a _ ⟨rfl, rfl, hfs, hmm⟩
  rw [mem_withMem, fsBit_root hB, decide_eq_true_iff] at hfs
  rw [mem_withMem, mmBit_root hB, decide_eq_true_iff] at hmm
  refine Outcome.pure ?_
  have hentry : 4096 * B + dentrySize * (0 % dentryPerBlk) = 4096 * B := by
    simp only [Nat.zero_mod, Nat.mul_zero, Nat.add_zero]
  rw [hentry]
  have hempty : (s.withMem (allocIntoMem s.mem rootSlot B)).mem.load (4096 * B) 4 = 0 :=
    Mem.load_eq_zero fun x hx hx' => allocIntoMem_block hx (by omega)
  refine Outcome.bind_ok (load_eq (by rw [mapped_withMem]; omega)) ?_
  rw [hempty, if_pos (show 0 = badInode from rfl)]
  exact Outcome.of_eq_ok (storeAt_eq (by rw [mapped_withMem]; omega)) ⟨⟨hmm, hfs⟩, rfl⟩

/-! ## The second entry -/

/-- The entry `..` of the root goes behind the first one. -/
theorem addDotDot_eq (h : RootBlock B s) (hdir : fileType s.mem rootInode = FType.DIR.code)
    (hsize : fileSize s.mem rootInode = 256) (hused : s.mem.load (4096 * B) 4 ≠ 0)
    (hfree : s.mem.load (4096 * B + 128) 4 = 0) :
    INode.addDentry rootInode d s =
      .ok ((), s.withMem (s.mem.copy (4096 * B + 128) d.bytes)) := by
  have hmapped := h.mapped
  have hlt := h.lt
  have htype : load (INode.fType rootInode) 2 s = .ok (FType.DIR.code, s) := by
    rw [← hdir]
    exact load_eq (by simp only [INode.fType_eq, rootInode]; omega)
  have hloadSize : load (INode.fSize rootInode) 8 s = .ok (256, s) := by
    rw [← hsize]
    exact load_eq (by simp only [INode.fSize_eq, rootInode]; omega)
  have hfuel : 2 ^ 31 = (2 ^ 31 - 2) + 1 + 1 := by norm_num
  unfold INode.addDentry
  rw [bind_eq_ok htype, onlyIf_bind_neg (not_not.mpr rfl), hfuel, INode.addDentryFrom,
    bind_eq_ok hloadSize, onlyIf_pos (Nat.zero_le _),
    bind_eq_ok (h.getDentry_eq hdir hsize (show 0 < 2 by omega)),
    bind_eq_ok (load_eq (by omega)), if_neg (by exact hused), INode.addDentryFrom,
    bind_eq_ok hloadSize, onlyIf_pos (show 0 + 1 ≤ 256 / dentrySize by decide),
    bind_eq_ok (h.getDentry_eq hdir hsize (show 0 + 1 < 2 by omega)),
    bind_eq_ok (load_eq (by omega)), if_pos (by exact hfree)]
  exact storeAt_eq (by omega)

/-! ## The root directory -/

/-- The memory with the root's first block `B` and its two entries in place. -/
def rootMem (m : Mem) (B : Nat) : Mem :=
  ((allocIntoMem m rootSlot B).copy (4096 * B) (dotEntry rootInode).bytes).copy (4096 * B + 128)
    (dotDotEntry rootInode).bytes

/-- Off the block, the bitmaps of the blocks, their counter and the slot of the root nothing
changes. -/
theorem rootMem_of_notMem {m : Mem} {x : Nat} (hB : B < 524288)
    (hblk : x < 4096 * B ∨ 4096 * B + 4096 ≤ x) (hmeta : x < 0x7FFDF000 ∨ 0x7FFFF000 ≤ x)
    (hfree : x < 0x7FFFF120 ∨ 0x7FFFF128 ≤ x) (hslot : x < 0x7FDDE114 ∨ 0x7FDDE118 ≤ x) :
    rootMem m B x = m x := by
  have hlen := (dotEntry rootInode).length_bytes
  have hlen' := (dotDotEntry rootInode).length_bytes
  rw [rootMem, Mem.copy_of_notMem (by omega), Mem.copy_of_notMem (by omega)]
  exact allocIntoMem_of_notMem hB hblk hmeta hfree
    (by simp only [rootSlot, INode.directBlkNo_eq, rootInode]; omega)

/-- When the root's block is the first page of the inode table, zeroing it has cleared
the root's type. -/
theorem addDentry_zeroed (hu : t = s.withMem ((allocIntoMem s.mem rootSlot B).copy (4096 * B)
    (dotEntry rootInode).bytes)) (hmapped : 0x80000000 ≤ s.mapped) (hlist : B = 0x7FDDE) :
    INode.addDentry rootInode d t =
      .error (.panic "add_dentry called for non-dir inode") := by
  have hlen := (dotEntry rootInode).length_bytes
  have htype : load (INode.fType rootInode) 2 t = .ok (0, t) := by
    rw [load_eq (by rw [hu, mapped_withMem]; simp only [INode.fType_eq, rootInode]; omega), hu,
      mem_withMem, Mem.load_eq_zero fun x hx hx' => ?_]
    simp only [INode.fType_eq, rootInode] at hx hx'
    rw [Mem.copy_of_notMem (by omega)]
    exact allocIntoMem_of_mem (by omega) (by omega)
      (by simp only [rootSlot, INode.directBlkNo_eq, rootInode]; omega)
  unfold INode.addDentry
  rw [bind_eq_ok htype, onlyIf_pos (by decide)]
  rfl

/-- The call up to its first entry. -/
theorem rootDir_fresh {Q : Nat → ParchFS → Prop} {E : Abort → Prop}
    (hmapped : 0x80000000 ≤ s.mapped)
    (hinode : ∀ q, q < 32768 → inodeBit s.mem q = decide (q = 0))
    (hrest : ∀ t, Fresh rootInode .DIR 256 3 s t → 0x80000000 ≤ t.mapped →
      (∀ q, q < 524288 → fsBit t.mem q = fsBit s.mem q) → t.mem.load rootSlot 4 = 0 →
      Outcome (do
        INode.addDentry rootInode (dotEntry rootInode)
        INode.addDentry rootInode (dotDotEntry rootInode)
        pure rootInode) t Q E) :
    Outcome (makeDir env rootInode []) s Q E := by
  unfold makeDir
  refine Outcome.bind_ok (assert_eq (Nat.zero_le _)) ?_
  refine Outcome.bind_ok (assert_eq (by decide)) ?_
  have hclear : inodeBit s.mem rootInode = false := (hinode _ (by decide)).trans (by decide)
  refine fresh_outcome hmapped (by decide) hclear ?_ (by decide) (by decide) fun t ht => ?_
  · intro q hq
    have hq0 : q = 0 := by
      simp only [rootInode] at hq
      omega
    rw [hinode q (by omega), hq0]
    rfl
  -- the parent of the root is the root
  rw [if_pos rfl, onlyIf_neg (fun hc => hc rfl)]
  refine hrest t ht (by rwa [ht.state, mapped_withMem]) (fun q hq => ?_) ?_
  · exact fsBit_congr hq fun x hx hx' =>
      ht.frame x (by simp only [INode.addr_eq, rootInode]; omega) (by omega) (by omega)
  · exact Mem.load_eq_zero fun x hx hx' =>
      ht.zero x (by simp only [rootSlot, INode.directBlkNo_eq, INode.addr_eq] at hx ⊢; omega)
        (by simp only [rootSlot, INode.directBlkNo_eq, INode.addr_eq] at hx' ⊢; omega)

/-- The root takes the first clear block.  Three blocks make the call abort: the first
page of the inode table, and the pages of the bitmaps that hold their own bits. -/
theorem rootDir_outcome (hmapped : 0x80000000 ≤ s.mapped)
    (hinode : ∀ q, q < 32768 → inodeBit s.mem q = decide (q = 0)) (hB : B < 524288) (hB0 : B ≠ 0)
    (hclear : fsBit s.mem B = false) (hset : ∀ q, q < B → fsBit s.mem q = true) :
    Outcome (makeDir env rootInode []) s
      (fun no u => no = rootInode ∧ (B ≠ 0x7FDDE ∧ B ≠ 0x7FFEE ∧ B ≠ 0x7FFFE) ∧
        ∃ t, Fresh rootInode .DIR 256 3 s t ∧ u = t.withMem (rootMem t.mem B))
      (fun _ => B = 0x7FDDE ∨ B = 0x7FFEE ∨ B = 0x7FFFE) := by
  refine rootDir_fresh hmapped hinode fun t ht hmapped' hbits hslot => ?_
  refine Outcome.bind ((addDot_outcome hmapped' hB hB0 ((hbits B hB).trans hclear)
    (fun q hq => (hbits q (by omega)).trans (hset q hq)) ht.type_eq ht.size_eq hslot).mono ?_
    fun _ he => Or.inr he)
  rintro _ u ⟨⟨hmm, hfs⟩, hu⟩
  by_cases hlist : B = 0x7FDDE
  · exact Outcome.of_eq_error (bind_eq_error (addDentry_zeroed hu hmapped' hlist)) (Or.inl hlist)
  have hlen := (dotEntry rootInode).length_bytes
  have hroot := (rootBlock_of_alloc hmapped' hB hB0 hmm hfs).of_frame
    ((allocIntoMem t.mem rootSlot B).copy (4096 * B) (dotEntry rootInode).bytes)
    fun x hx => Mem.copy_of_notMem (by omega)
  rw [withMem_withMem, ← hu] at hroot
  -- the fields of the root are those of the fresh inode
  have hfield : ∀ x, 0x7FDDE100 ≤ x → x < 0x7FDDE200 → x < 0x7FDDE114 ∨ 0x7FDDE118 ≤ x →
      u.mem x = t.mem x := by
    intro x hx hx' hx''
    rw [hu, mem_withMem, Mem.copy_of_notMem (by omega), allocIntoMem_root hB hlist hx hx' hx'']
  have hdir : fileType u.mem rootInode = FType.DIR.code := by
    rw [← ht.type_eq]
    exact Mem.load_congr fun x hx hx' => by
      simp only [INode.fType_eq, rootInode] at hx hx'
      exact hfield x (by omega) (by omega) (by omega)
  have hsize : fileSize u.mem rootInode = 256 := by
    rw [← show fileSize t.mem rootInode = 256 from ht.size_eq]
    exact Mem.load_congr fun x hx hx' => by
      simp only [INode.fSize_eq, rootInode] at hx hx'
      exact hfield x (by omega) (by omega) (by omega)
  have hdot : u.mem.load (4096 * B) 4 = rootInode := by
    rw [hu, mem_withMem]
    exact load_copy_bytes (by decide)
  have hfree : u.mem.load (4096 * B + 128) 4 = 0 := by
    rw [hu, mem_withMem]
    refine Mem.load_eq_zero fun x hx hx' => ?_
    rw [Mem.copy_of_notMem (by omega), allocIntoMem_block (by omega) (by omega)]
  refine Outcome.bind_ok (addDotDot_eq hroot hdir hsize (by rw [hdot]; decide) hfree) ?_
  exact Outcome.pure ⟨rfl, ⟨hlist, hmm, hfs⟩, t, ht, by rw [hu]; rfl⟩

/-- Without a clear block the call aborts. -/
theorem rootDir_full (hmapped : 0x80000000 ≤ s.mapped)
    (hinode : ∀ q, q < 32768 → inodeBit s.mem q = decide (q = 0))
    (hfull : ∀ q, q < 524288 → fsBit s.mem q = true) :
    Outcome (makeDir env rootInode []) s (fun _ _ => False) (fun e => e = blockBitmapFull) := by
  refine rootDir_fresh hmapped hinode fun t ht hmapped' hbits hslot => ?_
  have htype : load (INode.fType rootInode) 2 t = .ok (FType.DIR.code, t) := by
    rw [← ht.type_eq]
    exact load_eq (by simp only [INode.fType_eq, rootInode]; omega)
  have hsize : load (INode.fSize rootInode) 8 t = .ok (256, t) := by
    rw [← show fileSize t.mem rootInode = 256 from ht.size_eq]
    exact load_eq (by simp only [INode.fSize_eq, rootInode]; omega)
  have halloc : allocBlk t = .error blockBitmapFull :=
    allocBlk_full hmapped' fun q hq => (hbits q hq).trans (hfull q hq)
  have hslot' : load rootSlot 4 t = .ok (0, t) := by
    rw [← hslot]
    exact load_eq (by simp only [rootSlot, INode.directBlkNo_eq, rootInode]; omega)
  have hbad : INode.allocIfBad rootSlot t = .error blockBitmapFull := by
    unfold INode.allocIfBad INode.allocInto
    rw [bind_eq_ok hslot', onlyIf_pos (show 0 = badBlock from rfl), bind_eq_error halloc]
  have hloop : forUpTo 1 (fun k => INode.allocIfBad (INode.directBlkNo rootInode k)) t =
      .error blockBitmapFull := by
    show ((pure () : ParchM Unit) >>= fun _ => INode.allocIfBad rootSlot) t = _
    rw [bind_eq_ok (show (pure () : ParchM Unit) t = .ok ((), t) from rfl), hbad]
  have hblkno : INode.getBlkno rootInode 128 true t = .error blockBitmapFull := by
    have hone : min directBlkCount (128 / blkSize + 1) = 1 := by decide
    unfold INode.getBlkno
    rw [bind_eq_ok hsize, onlyIf_bind_neg (by omega), bind_eq_ok hsize,
      bind_eq_ok (assert_eq (by omega)), onlyIf_pos rfl, hone, bind_eq_error hloop]
  have hentry : INode.getDentry rootInode 0 t = .error blockBitmapFull := by
    unfold INode.getDentry
    rw [bind_eq_ok htype, onlyIf_bind_neg (not_not.mpr rfl)]
    exact bind_eq_error hblkno
  have hadd : INode.addDentry rootInode (dotEntry rootInode) t = .error blockBitmapFull := by
    have hfuel : 2 ^ 31 = (2 ^ 31 - 1) + 1 := by norm_num
    unfold INode.addDentry
    rw [bind_eq_ok htype, onlyIf_bind_neg (not_not.mpr rfl), hfuel, INode.addDentryFrom,
      bind_eq_ok hsize, onlyIf_pos (Nat.zero_le _), bind_eq_error hentry]
  exact Outcome.of_eq_error (bind_eq_error hadd) rfl

end ParchTestbench
