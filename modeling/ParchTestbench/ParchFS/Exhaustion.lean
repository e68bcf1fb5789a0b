import ParchTestbench.ParchFS.Filling

/-!
# ParchFS: past the last block of the pool

When the marking of the reserve leaves the metadata unmarked, the pool ends in front of
a clear block that holds the first inodes.  This file fills a volume up to that block
and makes one more file.

Main results:

- Theorem `Flat.fillers`: a run that fills the pool.
- Theorem `overwrite`: the write that is then handed the first page of the inode table.
- Theorem `exhaustion`: both together, from a new volume on.
-/

namespace ParchTestbench

open ParchFS Program

variable {lo hi last k n len total spent i : Nat} {base s t u : ParchFS} {env : Env}

/-! ## Filling the pool -/

/-- The name of filler file `k`, in two lower-case letters. -/
def fillerName (k : Nat) : List UInt8 := [UInt8.ofNat (97 + k / 26), UInt8.ofNat (97 + k % 26)]

/-- `n` files of `len` zero bytes, the first one with the name of file `k`. -/
def fillers (len : Nat) : Nat → Nat → List (List UInt8 × List UInt8)
  | 0, _ => []
  | n + 1, k => (fillerName k, List.replicate len 0) :: fillers len n (k + 1)

@[simp]
theorem length_fillers : (fillers len n k).length = n := by
  induction n generalizing k with
  | zero => rfl
  | succ n ih => rw [fillers, List.length_cons, ih]

/-- The files are made while there is room for them and for their entries. -/
theorem Flat.fillers (h : Flat lo hi total base spent k s) (env : Env) (len n : Nat)
    (hlen : len < 4259840) (hk : k + n < 8190)
    (hroom : blockCost (128 * (k + n + 2)) + spent + n * blockCost len ≤ total) :
    ∃ t, FilesMade env (k + 2) (fillers len n k) s t ∧
      Flat lo hi total base (spent + n * blockCost len) (k + n) t := by
  induction n generalizing k spent s with
  | zero => exact ⟨s, .nil, by rwa [Nat.zero_mul]⟩
  | succ n ih =>
      have hmul : (n + 1) * blockCost len = n * blockCost len + blockCost len :=
        Nat.succ_mul n _
      have hentry : blockCost (128 * (k + 3)) ≤ blockCost (128 * (k + (n + 1) + 2)) :=
        blockCost_mono (by omega)
      have hone : (List.replicate len (0 : UInt8)).length = len := List.length_replicate
      obtain ⟨t, v, hmake, hget, hwrite, hflat⟩ := h.addFile env
        (show (fillerName k).length ≤ 118 from Nat.le_of_ble_eq_true rfl) (by omega)
        (by rw [hone]; exact hlen) (by rw [hone]; omega)
      rw [hone] at hflat
      obtain ⟨u, hrest, hfinal⟩ := ih hflat (by omega) (by
        rw [show k + 1 + n = k + (n + 1) by omega]
        omega)
      refine ⟨u, .cons hmake hget hwrite ?_, ?_⟩
      · rwa [show k + 2 + 1 = k + 1 + 2 by omega]
      · rwa [hmul, Nat.add_comm (n * blockCost len), ← Nat.add_assoc,
          show k + (n + 1) = k + 1 + n by omega]

/-! ## One block too many -/

/-- The memory after `buf` has been written to the empty file `i` in block `0x7FDDE`. -/
def overwriteMem (m : Mem) (i : Nat) (buf : List UInt8) : Mem :=
  (allocIntoMem (m.store (INode.fSize i) 8 buf.length) (INode.directBlkNo i 0) 0x7FDDE).copy
    0x7FDDE000 buf

/-- The copy loop on less than a block, with the block in place. -/
theorem writeLoop_present {buf : List UInt8} (hmapped : 0x80000000 ≤ s.mapped) (hi : i < 8192)
    (hlen : 0 < buf.length) (hlen' : buf.length < 4096)
    (hslot : s.mem.load (INode.directBlkNo i 0) 4 = 0x7FDDE) (hfs : fsBit s.mem 0x7FDDE = true)
    (hmm : mmBit s.mem 0x7FDDE = true) :
    INode.writeLoop i 0 buf s = .ok ((), s.withMem (s.mem.copy 0x7FDDE000 buf)) := by
  have hget : INode.getBlkno i 0 true s = .ok (0x7FDDE, s) :=
    getBlkno_present hmapped hi hslot (by omega) (by omega) (Nat.zero_le _)
  have hblk := getBlk_eq hmapped (show 0x7FDDE < 524288 by omega) hfs hmm
  have hwhole : INode.copyLen 0 buf.length = buf.length := if_neg (by unfold blkSize; omega)
  have hcopy : memcpy 0x7FDDE000 buf s = .ok ((), s.withMem (s.mem.copy 0x7FDDE000 buf)) :=
    memcpy_eq (by omega)
  rw [INode.writeLoop, dif_neg (by omega), bind_eq_ok hget, onlyIf_bind_neg (by omega),
    bind_eq_ok hblk, hwhole, List.take_length, List.drop_length]
  rw [bind_eq_ok (by exact hcopy), INode.writeLoop]
  rfl

/-- With the pool used up and the bit of block `0x7FDDE` clear, a write to an empty file is
handed that block and overwrites the first inodes. -/
theorem overwrite {buf : List UInt8} (h : Ownership lo 0x7FDDE last s)
    (hfree : freeCount 0x7FDDE s.mem = 0) (hclear : fsBit s.mem 0x7FDDE = false) (hi' : i ≤ last)
    (hvacant : Vacant i s) (hlen : 0 < buf.length) (hlen' : buf.length < 4096) :
    INode.write i 0 buf s = .ok ((), s.withMem (overwriteMem s.mem i buf)) := by
  have hmapped := h.mapped_ge
  have hlast := h.last_lt
  obtain ⟨m, hm⟩ : ∃ m, m = s.mem.store (INode.fSize i) 8 buf.length := ⟨_, rfl⟩
  obtain ⟨v, hv⟩ : ∃ v, v = s.withMem (allocIntoMem m (INode.directBlkNo i 0) 0x7FDDE) := ⟨_, rfl⟩
  have hout : ∀ x, x < INode.addr i + 96 ∨ INode.addr i + 104 ≤ x → m x = s.mem x := fun x hx => by
    rw [INode.addr_eq] at hx
    rw [hm, Mem.store_of_notMem (by rw [INode.fSize_eq]; omega)]
  have hbits : ∀ q, q < 524288 → fsBit m q = fsBit s.mem q := fun q hq =>
    fsBit_congr hq fun x hx hx' => hout x (by rw [INode.addr_eq]; omega)
  have hsize : load (INode.fSize i) 8 s = .ok (0, s) := by
    rw [load_fSize h hi', hvacant.size]
  have hstored : fileSize m i = buf.length := by
    rw [hm]
    exact fileSize_store (by omega)
  have hold : s.mem.load (INode.directBlkNo i 0) 4 = 0 :=
    hvacant.slots (.field 0) (field_valid (by omega))
  have hslot : m.load (INode.directBlkNo i 0) 4 = 0 := by
    refine (Mem.load_congr fun x hx hx' => ?_).trans hold
    rw [INode.directBlkNo_eq] at hx hx'
    exact hout x (by rw [INode.addr_eq]; omega)
  have hend : (0 + buf.length) % 2 ^ 64 = buf.length := by omega
  -- the call that enlarges the file takes the block
  have hgrow : INode.getBlkno i buf.length true s = .ok (0x7FDDE, v) := by
    rw [getBlkno_grow hmapped (by omega) (by rw [hvacant.size]; omega) (by omega), ← hm, hv]
    refine getBlkno_absent (by rwa [mapped_withMem]) (by omega) (by omega) ?_ (fun q hq => ?_)
      (by omega) (by rw [mem_withMem, hstored]) hslot
    · rw [mem_withMem, hbits _ (by omega), hclear]
    · rw [mem_withMem, hbits q (by omega), fsBit_of_freeCount_eq_zero hfree hq]
  have hvslot : v.mem.load (INode.directBlkNo i 0) 4 = 0x7FDDE := by
    rw [hv]
    exact Mem.load_store_of_lt (by omega)
  have haddr : INode.directBlkNo i 0 + 4 ≤ 0x7FFDE000 := by
    rw [INode.directBlkNo_eq]
    omega
  have hfs : fsBit v.mem 0x7FDDE = true := by
    rw [hv, mem_withMem, fsBit_allocIntoMem (by omega) haddr (by omega)]
    rfl
  have hmm : mmBit v.mem 0x7FDDE = true := by
    rw [hv, mem_withMem, mmBit_allocIntoMem (by omega) haddr (by omega)]
    rfl
  -- the copy loop finds it
  have hloop := writeLoop_present (by rwa [hv, mapped_withMem]) (show i < 8192 by omega) hlen hlen'
    hvslot hfs hmm
  have hall : overwriteMem s.mem i buf = v.mem.copy 0x7FDDE000 buf := by
    rw [hv, hm]
    rfl
  unfold INode.write
  rw [bind_eq_ok hsize, onlyIf_pos (Nat.zero_le _), hend, bind_eq_ok (bind_eq_ok hgrow), hloop,
    hall, hv]
  rfl

/-- The memory after one byte has been written to the empty file `i` in block
`0x7FDDE`. -/
def overrunMem (m : Mem) (i : Nat) : Mem :=
  (allocIntoMem (m.store (INode.fSize i) 8 1) (INode.directBlkNo i 0) 0x7FDDE).copy 0x7FDDE000 [0]

theorem overrunMem_eq (m : Mem) (i : Nat) : overrunMem m i = overwriteMem m i [0] := rfl

/-- With the pool used up and the bit of block `0x7FDDE` clear, a write is handed that
block and zeroes the first inodes. -/
theorem overrun_write (h : Ownership lo 0x7FDDE last s) (hfree : freeCount 0x7FDDE s.mem = 0)
    (hclear : fsBit s.mem 0x7FDDE = false) (hi' : i ≤ last)
    (hvacant : Vacant i s) : INode.write i 0 [0] s = .ok ((), s.withMem (overrunMem s.mem i)) :=
  overwrite h hfree hclear hi' hvacant (Nat.succ_pos 0) (by rw [List.length_singleton]; omega)

/-- The files that fill the pool of 523741 blocks: 503 of the largest size below the
double-indirect range, and one for the rest. -/
def exhaustingFiles : List (List UInt8 × List UInt8) :=
  fillers 4259839 503 0 ++ fillers 409600 1 503

theorem length_exhaustingFiles : exhaustingFiles.length = 504 := by
  rw [exhaustingFiles, List.length_append, length_fillers, length_fillers]

/-- The calls that fill the pool, and the two that run past it. -/
def exhaustingOps (env : Env) : List Op :=
  FilesMade.ops env 2 (exhaustingFiles ++ [(fillerName 504, [0])])

theorem length_of_mem_fillers {p : List UInt8 × List UInt8} (hp : p ∈ fillers len n k) :
    p.2.length = len := by
  induction n generalizing k with
  | zero => cases hp
  | succ n ih =>
      rcases List.mem_cons.mp hp with rfl | hrest
      · exact List.length_replicate
      · exact ih hrest

/-- The calls are those of a run on a new volume. -/
theorem admissible_exhaustingOps : Admissible 1 [] (exhaustingOps env) := by
  have hlen : ∀ p ∈ exhaustingFiles ++ [(fillerName 504, [0])], p.2.length < 2 ^ 64 := by
    intro p hp
    rcases List.mem_append.mp hp with hfile | hlast
    · rcases List.mem_append.mp hfile with hbig | hrest
      · rw [length_of_mem_fillers hbig]
        omega
      · rw [length_of_mem_fillers hrest]
        omega
    · rw [List.mem_singleton.mp hlast]
      decide
  have hcount : (exhaustingFiles ++ [(fillerName 504, [0])]).length = 505 := by
    rw [List.length_append, length_exhaustingFiles]
    rfl
  refine ⟨FilesMade.wellTyped_ops hlen (by rw [hcount]; omega), ?_⟩
  rw [List.nil_append, exhaustingOps, FilesMade.creations_ops, hcount]
  omega

/-- `w` is a new volume after the files that fill the pool and one more, empty file. -/
structure Brink (env : Env) (u w : ParchFS) : Prop where
  owned : Ownership 0 0x7FDDE 506 w
  state : w = u.withMem w.mem
  dir : fileType w.mem rootInode = FType.DIR.code
  slot : slotVal w.mem rootInode (.field 0) ≠ 0
  vacant : Vacant 506 w
  made : ∃ v, FilesMade env 2 exhaustingFiles u v ∧
    makeFile env rootInode (fillerName 504) v = .ok (506, w) ∧ getInode 506 w = .ok (506, w)
  overrun : INode.write 506 0 [0] w = .ok ((), w.withMem (overrunMem w.mem 506))

/-- On a layout whose pool starts behind block 0 and whose metadata is not marked, the
pool can be used up, and the next write is handed the first page of the inode table. -/
theorem exhaustion (h : Founded 0 (poolEnd base) base s t u) (hr : 0x7FDDE < reserveStart base) :
    ∃ w, Brink env u w := by
  have hpool : poolEnd base = 0x7FDDE := min_eq_right (by omega)
  have hbig : blockCost 4259839 = 1041 := rfl
  have hrest : blockCost 409600 = 102 := rfl
  have hstart := h.flat
  have hbit : fsBit u.mem 0x7FDDE = false := by
    rw [h.dotted.touches.marks _ (by rw [hpool]) (by omega), h.spawned.fsBit (by omega) (by omega),
      h.formatted.fs _ (by omega)]
    exact decide_eq_false (by omega)
  rw [hpool] at hstart
  obtain ⟨v₁, hmade₁, hflat₁⟩ := hstart.fillers env 4259839 503 (by omega) (by omega) (by decide)
  obtain ⟨v, hmade₂, hflat⟩ := hflat₁.fillers env 409600 1 (by omega) (by omega) (by decide)
  obtain ⟨w, hmake, hlast, hvacant⟩ := hflat.makeFile env
    (show (fillerName 504).length ≤ 118 from Nat.le_of_ble_eq_true rfl) (by omega) (by decide)
  have hmade : FilesMade env 2 exhaustingFiles u v := hmade₁.append (by
    rw [length_fillers]
    exact hmade₂)
  have hfree : freeCount 0x7FDDE w.mem = 0 := by
    have hbudget := hlast.budget
    have hcost : blockCost (128 * (0 + 503 + 1 + 1 + 2)) = 16 := rfl
    omega
  have hclear : fsBit w.mem 0x7FDDE = false := by rw [hlast.marks _ le_rfl (by omega), hbit]
  have hget := getInode_eq hlast.owned.mapped_ge (show 506 < 32768 by omega)
    ((hlast.owned.inodeBit_iff _ (by omega)).mpr le_rfl)
  have hslot : slotVal w.mem rootInode (.field 0) ≠ 0 :=
    hlast.filled _ (neededSlots_mono (Nat.zero_le _)
      (by rw [neededSlots_of_lt (by omega)]; exact Finset.mem_singleton_self _))
  exact ⟨w, hlast.owned, hlast.state, hlast.dir, hslot, hvacant, ⟨v, hmade, hmake, hget⟩,
    overrun_write hlast.owned hfree hclear le_rfl hvacant⟩

/-- The files up to the one that runs past the pool. -/
theorem Brink.filesMade {w : ParchFS} (h : Brink env u w) :
    FilesMade env 2 (exhaustingFiles ++ [(fillerName 504, [0])]) u
      (w.withMem (overrunMem w.mem 506)) := by
  obtain ⟨v, hmade, hmake, hget⟩ := h.made
  refine hmade.append ?_
  rw [length_exhaustingFiles]
  exact .cons hmake hget h.overrun .nil

/-! ## The memory after the overrun -/

section Overrun

variable {m : Mem} {x q : Nat} {buf : List UInt8}

/-- Below the bitmaps the memory outside of the page is as before, but for one block number
and the size of the inode. -/
theorem overwriteMem_of_notMem (hi : i < 8192) (hlen : buf.length ≤ 4096)
    (hpage : x < 0x7FDDE000 ∨ 0x7FDDF000 ≤ x) (hx : x < 0x7FFDF000)
    (hslot : x < INode.addr i + 20 ∨ INode.addr i + 24 ≤ x)
    (hsize : x < INode.addr i + 96 ∨ INode.addr i + 104 ≤ x) : overwriteMem m i buf x = m x := by
  rw [INode.addr_eq] at hslot hsize
  unfold overwriteMem
  rw [Mem.copy_of_notMem (by omega),
    allocIntoMem_of_notMem (by omega) (by omega) (by omega) (by omega)
      (by rw [INode.directBlkNo_eq]; omega)]
  exact Mem.store_of_notMem (by rw [INode.fSize_eq]; omega)

/-- The block is marked. -/
theorem fsBit_overwriteMem (hi : i < 8192) (hlen : buf.length ≤ 4096) (hq : q < 524288) :
    fsBit (overwriteMem m i buf) q = (decide (q = 0x7FDDE) || fsBit m q) := by
  have hstore : fsBit (m.store (INode.fSize i) 8 buf.length) q = fsBit m q :=
    fsBit_congr hq fun x hx hx' => Mem.store_of_notMem (by rw [INode.fSize_eq]; omega)
  rw [← hstore, ← fsBit_allocIntoMem (by omega)
    (show INode.directBlkNo i 0 + 4 ≤ 0x7FFDE000 by rw [INode.directBlkNo_eq]; omega) hq]
  exact fsBit_congr hq fun x hx hx' => Mem.copy_of_notMem (by omega)

theorem mmBit_overwriteMem (hi : i < 8192) (hlen : buf.length ≤ 4096) :
    mmBit (overwriteMem m i buf) 0x7FDDE = true := by
  have hmark := mmBit_allocIntoMem (m := m.store (INode.fSize i) 8 buf.length)
    (b := 0x7FDDE) (p := INode.directBlkNo i 0) (q := 0x7FDDE) (by omega)
    (by rw [INode.directBlkNo_eq]; omega) (by omega)
  refine (mmBit_congr (by omega) fun x hx hx' => Mem.copy_of_notMem (by omega)).trans ?_
  exact hmark.trans rfl

/-- The first sixteen inodes are zero, but for the block number that the write sets. -/
theorem overrunMem_of_mem (hx : 0x7FDDE000 ≤ x) (hx' : x < 0x7FDDF000)
    (hslot : x < INode.directBlkNo i 0 ∨ INode.directBlkNo i 0 + 4 ≤ x) :
    overrunMem m i x = 0 := by
  unfold overrunMem
  by_cases hfirst : x = 0x7FDDE000
  · rw [hfirst, Mem.copy_of_mem le_rfl (by decide)]
    rfl
  · rw [Mem.copy_of_notMem (by rw [List.length_singleton]; omega)]
    exact allocIntoMem_of_mem (by omega) (by omega) hslot

/-- The root is not a directory any more. -/
theorem fileType_overrunMem : fileType (overrunMem m 506) 1 = 0 :=
  Mem.load_eq_zero fun x hx hx' => by
    rw [INode.fType_eq] at hx hx'
    exact overrunMem_of_mem (by omega) (by omega) (by rw [INode.directBlkNo_eq]; omega)

/-- Below the bitmaps the rest of the memory is as before, but for one block number and
the size of inode 506. -/
theorem overrunMem_of_notMem (hpage : x < 0x7FDDE000 ∨ 0x7FDDF000 ≤ x) (hx : x < 0x7FFDF000)
    (hslot : x < INode.addr 506 + 20 ∨ INode.addr 506 + 24 ≤ x)
    (hsize : x < INode.addr 506 + 96 ∨ INode.addr 506 + 104 ≤ x) :
    overrunMem m 506 x = m x := by
  rw [overrunMem_eq]
  exact overwriteMem_of_notMem (by omega) (by rw [List.length_singleton]; omega) hpage hx hslot
    hsize

/-- The file holds the block. -/
theorem load_slot_overrunMem : (overrunMem m 506).load (INode.directBlkNo 506 0) 4 = 0x7FDDE := by
  unfold overrunMem allocIntoMem
  rw [Mem.load_congr fun x hx hx' => Mem.copy_of_notMem (by
    rw [INode.directBlkNo_eq] at hx
    rw [List.length_singleton]
    omega)]
  exact Mem.load_store_of_lt (by omega)

/-- The block is marked. -/
theorem fsBit_overrunMem (hq : q < 524288) :
    fsBit (overrunMem m 506) q = (decide (q = 0x7FDDE) || fsBit m q) := by
  rw [overrunMem_eq]
  exact fsBit_overwriteMem (by omega) (by rw [List.length_singleton]; omega) hq

end Overrun

end ParchTestbench
