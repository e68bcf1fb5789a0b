import ParchTestbench.ParchFS.Write

/-!
# ParchFS: the entries of a directory

A directory is a file of 128-byte entries.  `get_dentry` makes the file long
enough for one entry and gives its address; `add_dentry` stores a new entry in
the first slot whose inode number is zero.

Main results:

- Theorem `getDentry_outcome`: `get_dentry` gives the address at which the entry
  lies in the directory's contents.
- Theorem `addDentry_outcome`: `add_dentry` overlays the entry on the first free
  slot or stops with a full block bitmap.
- Theorem `addDentry_outcome_of_lt`: on a directory without holes the slot is the
  one after the last entry, and only its block is allocated.
-/

namespace ParchTestbench

open ParchFS Program

variable {lo hi last i pos n fuel : Nat} {s t u : ParchFS} {d : DEntry}

/-- The inode number in slot `j` of a directory with contents `c`. -/
def entryInode (c : Mem) (j : Nat) : Nat := c.load (128 * j) 4

/-- The inode number of an entry comes first. -/
theorem load_copy_bytes {c : Mem} {a : Nat} (hd : d.inode < 2 ^ 32) :
    (c.copy a d.bytes).load a 4 = d.inode := by
  have hload : (c.copy a ([] ++ Mem.leBytes 4 d.inode ++ (Mem.leBytes 2 d.permission ++
      (Mem.leBytes 2 d.fType.code ++ (Mem.leBytes 2 d.nameLen ++ List.ofFn d.fName))))).load
        (a + ([] : List UInt8).length) 4 = d.inode % 256 ^ 4 := Mem.load_copy_leBytes
  rw [List.nil_append, List.length_nil, Nat.add_zero, Nat.mod_eq_of_lt (by omega)] at hload
  exact hload

/-- The slot that an entry is laid over names its inode. -/
theorem entryInode_copy_self {c : Mem} {j : Nat} (hd : d.inode < 2 ^ 32) :
    entryInode (c.copy (128 * j) d.bytes) j = d.inode :=
  load_copy_bytes hd

theorem entryInode_copy_of_ne {c : Mem} {j l : Nat} (hne : l ≠ j) :
    entryInode (c.copy (128 * j) d.bytes) l = entryInode c l :=
  Mem.load_congr fun x hx hx' => Mem.copy_of_notMem (by rw [d.length_bytes]; omega)

@[simp]
theorem entryInode_zero (j : Nat) : entryInode (fun _ => 0) j = 0 :=
  Mem.load_eq_zero fun _ _ _ => rfl

/-- Where slot `pos` of directory `i` lies. -/
def entryAddr (m : Mem) (i pos : Nat) : Nat :=
  4096 * fileBlk m i (128 * pos / 4096) + 128 * pos % 4096

theorem load_fType (h : Ownership lo hi last s) (hi' : i ≤ last) :
    load (INode.fType i) 2 s = .ok (fileType s.mem i, s) := by
  have hmapped := h.mapped_ge
  have hlast := h.last_lt
  exact load_eq (by rw [INode.fType_eq]; omega)

theorem Touches.fileType (h : Touches lo hi last i s t) {j : Nat} (hj : j < 8192) :
    fileType t.mem j = fileType s.mem j := by
  refine Mem.load_congr fun x hx hx' => ?_
  rw [INode.fType_eq] at hx hx'
  refine h.table x (by omega) (by omega) ?_ ?_ <;> rw [INode.addr_eq] <;> omega

/-! ## Reading without `create` -/

theorem load_readOnly (a k : Nat) : ReadOnly (load a k) := by
  intro s v t hrun
  unfold load at hrun
  split at hrun
  · cases hrun
    rfl
  · cases hrun

theorem assert_readOnly {c : Prop} [Decidable c] (expression : String) :
    ReadOnly (assert c expression) :=
  ReadOnly.onlyIf (ReadOnly.abort _)

theorem bitmapGet_readOnly (a k : Nat) : ReadOnly (Bitmap.get a k) :=
  ReadOnly.bind (ReadOnly.onlyIf (ReadOnly.abort _)) fun _ =>
    ReadOnly.bind (load_readOnly _ _) fun _ => ReadOnly.pure _

theorem getBlk_readOnly (b : Nat) : ReadOnly (getBlk b) :=
  ReadOnly.bind (bitmapGet_readOnly _ _) fun _ => ReadOnly.bind (assert_readOnly _) fun _ =>
    ReadOnly.bind (bitmapGet_readOnly _ _) fun _ => ReadOnly.bind (assert_readOnly _) fun _ =>
      ReadOnly.pure _

/-- Without `create` a call of `get_blkno` changes nothing, whatever it returns. -/
theorem getBlkno_readOnly (i off : Nat) : ReadOnly (INode.getBlkno i off false) := by
  -- the steps under `create` are not taken
  have hskip : ∀ p : ParchM Unit, ReadOnly (onlyIf (false = true) p) := fun p => by
    rw [onlyIf_neg (by simp)]
    exact ReadOnly.pure _
  have hindex : ∀ a k, ReadOnly (do
      let blks ← getBlk (← load a 4)
      load (blks + k) 4 : ParchM Nat) := fun a k =>
    ReadOnly.bind (load_readOnly _ _) fun _ =>
      ReadOnly.bind (getBlk_readOnly _) fun _ => load_readOnly _ _
  unfold INode.getBlkno
  refine ReadOnly.bind (load_readOnly _ _) fun _ => ReadOnly.bind ?_ fun _ =>
    ReadOnly.bind (load_readOnly _ _) fun _ => ReadOnly.bind (assert_readOnly _) fun _ =>
      ReadOnly.bind (hskip _) fun _ => ?_
  · rw [onlyIf_neg (by simp)]
    exact ReadOnly.pure _
  split
  · exact load_readOnly _ _
  unfold INode.getBlknoIndirect
  refine ReadOnly.bind (hskip _) fun _ => ?_
  split
  · exact hindex _ _
  unfold INode.getBlknoIndirect2
  refine ReadOnly.bind (hskip _) fun _ => ?_
  split
  · exact ReadOnly.bind (load_readOnly _ _) fun _ => ReadOnly.bind (getBlk_readOnly _) fun _ =>
      ReadOnly.bind (load_readOnly _ _) fun _ => ReadOnly.bind (getBlk_readOnly _) fun _ =>
        load_readOnly _ _
  · exact ReadOnly.abort _

/-! ## Looking up a slot -/

/-- `get_dentry` after its first call of `get_blkno`. -/
theorem lookupEntry_eq (h : Ownership lo hi last t) (hi' : i ≤ last)
    (hsize : 128 * pos ≤ fileSize t.mem i) (hk : 128 * pos / 4096 < 1049616)
    (hv : fileBlk t.mem i (128 * pos / 4096) ≠ 0) :
    (do
      let blkNo ← INode.getBlkno i (dentrySize * pos) false
      onlyIf (blkNo = badBlock) (ParchFS.panic "bad block")
      let blkAddr ← getBlk blkNo
      pure (blkAddr + dentrySize * (pos % dentryPerBlk)) : ParchM Nat) t =
      .ok (entryAddr t.mem i pos, t) := by
  have hget : INode.getBlkno i (dentrySize * pos) false t =
      .ok (fileBlk t.mem i (128 * pos / 4096), t) := getBlkno_lookup h hi' hsize hk hv
  have haddr : 4096 * fileBlk t.mem i (128 * pos / 4096) + dentrySize * (pos % dentryPerBlk) =
      entryAddr t.mem i pos := by
    simp only [entryAddr, dentrySize, dentryPerBlk]
    omega
  have hblk : getBlk (fileBlk t.mem i (128 * pos / 4096)) t =
      .ok (4096 * fileBlk t.mem i (128 * pos / 4096), t) :=
    h.getBlk_slotVal hi' (dataSlot_valid hk) hv
  rw [bind_eq_ok hget, onlyIf_bind_neg (by exact hv), bind_eq_ok hblk, ← haddr]
  rfl

/-- `get_dentry` makes room for the entry and gives its address. -/
theorem getDentry_outcome (h : Ownership lo hi last s) (hclosed : Closed hi s.mem) (hi' : i ≤ last)
    (hdir : fileType s.mem i = FType.DIR.code) (hpos : pos + 1 < 2 ^ 32) :
    Outcome (INode.getDentry i pos) s
      (fun de t => Mapped lo hi last i (128 * (pos + 1)) s t ∧ de = entryAddr t.mem i pos)
      (fun e => e = blockBitmapFull) := by
  unfold INode.getDentry
  refine Outcome.bind_ok (load_fType h hi') ?_
  refine Outcome.onlyIf_bind_neg (not_not.mpr hdir) ?_
  rw [Nat.mod_eq_of_lt hpos]
  refine Outcome.bind ((getBlkno_outcome h hclosed hi'
    (show 128 * (pos + 1) < 2 ^ 64 by omega)).mono ?_ fun _ he => he)
  rintro b t ⟨ht, rfl⟩
  have hlt := ht.off_lt
  have hsize := ht.grown.size
  refine Outcome.onlyIf_bind_neg (ht.mapped _ le_rfl) ?_
  exact Outcome.of_eq_ok (lookupEntry_eq ht.grown.owned hi' (by omega) (by omega)
    (ht.mapped _ (by omega))) ⟨ht, rfl⟩

/-- What a call of `get_dentry` that returns has done, for any position. -/
theorem getDentry_ok {de : Nat} (h : Ownership lo hi last s) (hclosed : Closed hi s.mem)
    (hi' : i ≤ last) (hrun : INode.getDentry i pos s = .ok (de, t)) :
    fileType s.mem i = FType.DIR.code ∧ Mapped lo hi last i (128 * ((pos + 1) % 2 ^ 32)) s t := by
  unfold INode.getDentry at hrun
  rw [bind_eq_ok (load_fType h hi')] at hrun
  by_cases hdir : fileType s.mem i = FType.DIR.code
  swap
  · rw [onlyIf_pos hdir] at hrun
    cases hrun
  rw [onlyIf_bind_neg (not_not.mpr hdir)] at hrun
  have hmod := Nat.mod_lt (pos + 1) (show 0 < 2 ^ 32 by norm_num)
  obtain ⟨b, v, hgrow, hrest⟩ := exists_of_bind_eq_ok hrun
  have hmapped := ((getBlkno_outcome h hclosed hi'
    (show 128 * ((pos + 1) % 2 ^ 32) < 2 ^ 64 by omega)).of_ok hgrow).1
  -- the rest of the call only reads
  have hsame : t = v := by
    refine ReadOnly.bind (ReadOnly.onlyIf (ReadOnly.abort _)) (fun _ => ?_) _ _ _ hrest
    exact ReadOnly.bind (getBlkno_readOnly _ _) fun _ =>
      ReadOnly.bind (ReadOnly.onlyIf (ReadOnly.abort _)) fun _ =>
        ReadOnly.bind (getBlk_readOnly _) fun _ => ReadOnly.pure _
  exact ⟨hdir, hsame ▸ hmapped⟩

/-- On a covered slot `get_dentry` changes nothing. -/
theorem getDentry_covered (h : Ownership lo hi last s) (hi' : i ≤ last)
    (hdir : fileType s.mem i = FType.DIR.code) (hcov : Covered s.mem i (128 * (pos + 1))) :
    INode.getDentry i pos s = .ok (entryAddr s.mem i pos, s) := by
  have hlt := hcov.off_lt
  have hle := hcov.off_le
  have hfill := fun k hk => fileBlk_ne_zero_of_needed (k := k) hlt hcov.filled hk
  have hget : INode.getBlkno i (dentrySize * (pos + 1)) true s =
      .ok (fileBlk s.mem i (128 * (pos + 1) / 4096), s) := getBlkno_covered h hi' hcov
  unfold INode.getDentry
  rw [bind_eq_ok (load_fType h hi'), onlyIf_bind_neg (not_not.mpr hdir),
    Nat.mod_eq_of_lt (by omega), bind_eq_ok hget, onlyIf_bind_neg (by exact hfill _ le_rfl)]
  exact lookupEntry_eq h hi' (by omega) (by omega) (hfill _ (by omega))

/-- Below the double-indirect range `get_dentry` fills exactly the slots that the
end of the entry needs. -/
theorem getDentry_outcome_of_lt (h : Ownership lo hi last s) (hi' : i ≤ last)
    (hdir : fileType s.mem i = FType.DIR.code) (hpos : 128 * (pos + 1) < 4259840)
    (hroom : Room hi (emptySlots s.mem i (neededSlots (128 * (pos + 1)))) s.mem) :
    Outcome (INode.getDentry i pos) s
      (fun de t => Fills lo hi last i (max (fileSize s.mem i) (128 * (pos + 1)))
        (neededSlots (128 * (pos + 1))) s t ∧ de = entryAddr t.mem i pos)
      (Exhausted hi (emptySlots s.mem i (neededSlots (128 * (pos + 1)))) s.mem) := by
  unfold INode.getDentry
  refine Outcome.bind_ok (load_fType h hi') ?_
  refine Outcome.onlyIf_bind_neg (not_not.mpr hdir) ?_
  rw [Nat.mod_eq_of_lt (by omega)]
  refine Outcome.bind ((getBlkno_outcome_of_lt h hi' hpos hroom).mono ?_ fun _ he => he)
  rintro b t ⟨ht, rfl⟩
  have hsize := ht.size
  have hfill := fun k hk => fileBlk_ne_zero_of_needed (k := k) hpos ht.filled hk
  refine Outcome.onlyIf_bind_neg (hfill _ le_rfl) ?_
  exact Outcome.of_eq_ok (lookupEntry_eq ht.owned hi' (by omega) (by omega)
    (hfill _ (by omega))) ⟨ht, rfl⟩

/-! ## Storing an entry -/

/-- A mapped slot inside the mapping. -/
theorem entryAddr_le (h : Ownership lo hi last t) (hi' : i ≤ last)
    (hk : 128 * pos / 4096 < 1049616) (hv : fileBlk t.mem i (128 * pos / 4096) ≠ 0) :
    entryAddr t.mem i pos + 128 ≤ t.mapped := by
  have hmapped := h.mapped_ge
  have hpool := h.pool_below_metadata
  obtain ⟨-, hhi⟩ := h.in_pool i hi' _ (dataSlot_valid hk) hv
  rw [← fileBlk] at hhi
  unfold entryAddr
  omega

/-- The inode field of a mapped slot. -/
theorem load_entryAddr (h : Ownership lo hi last t) (hi' : i ≤ last)
    (hk : 128 * pos / 4096 < 1049616) (hv : fileBlk t.mem i (128 * pos / 4096) ≠ 0) :
    load (entryAddr t.mem i pos) 4 t = .ok (entryInode (content t.mem i) pos, t) := by
  have hle := entryAddr_le h hi' hk hv
  rw [entryInode, load_content hk hv (by omega)]
  exact load_eq (by omega)

/-- `memset(de, 0, sizeof(DEntry))` and `*de = d` on a mapped slot. -/
theorem storeEntry_outcome (h : Ownership lo hi last t) (hi' : i ≤ last)
    (hk : 128 * pos / 4096 < 1049616) (hv : fileBlk t.mem i (128 * pos / 4096) ≠ 0) :
    Outcome (do
        memset (entryAddr t.mem i pos) 0 dentrySize
        memcpy (entryAddr t.mem i pos) d.bytes) t
      (fun _ u => DataWrite lo hi last i (128 * pos) d.bytes t u) (fun _ => False) := by
  have hle := entryAddr_le h hi' hk hv
  have hlen := d.length_bytes
  have hcopy : (t.mem.fill (entryAddr t.mem i pos) dentrySize 0).copy (entryAddr t.mem i pos)
      d.bytes = t.mem.copy (entryAddr t.mem i pos) d.bytes := by
    rw [show dentrySize = d.bytes.length from hlen.symm]
    exact Mem.copy_fill
  refine Outcome.bind_ok (memset_eq (by exact hle)) ?_
  refine Outcome.of_eq_ok (memcpy_eq (by rw [mapped_withMem, hlen]; exact hle)) ?_
  rw [mem_withMem, withMem_withMem, hcopy]
  exact h.copyIntoBlock hi' hk hv (by omega)

/-- What storing entry `d` in the first free slot from `pos` on leaves behind. -/
structure Added (lo hi last i pos j : Nat) (d : DEntry) (s t : ParchFS) : Prop where
  owned : Ownership lo hi last t
  touches : Touches lo hi last i s t
  content_eq : content t.mem i = (content s.mem i).copy (128 * j) d.bytes
  size_eq : fileSize t.mem i = max (fileSize s.mem i) (128 * (j + 1))
  mapped : ∀ k, k ≤ 128 * (j + 1) / 4096 → fileBlk t.mem i k ≠ 0
  pos_le : pos ≤ j
  before : ∀ l, pos ≤ l → l < j → entryInode (content s.mem i) l ≠ 0
  empty : entryInode (content s.mem i) j = 0
  end_lt : 128 * (j + 1) < 2151743488

/-- The loop of `add_dentry` takes the first free slot. -/
theorem addDentryFrom_outcome (h : Ownership lo hi last s) (hclosed : Closed hi s.mem)
    (hi' : i ≤ last) (hdir : fileType s.mem i = FType.DIR.code) (hpos : 128 * pos < 2151743488)
    (hsize : 128 * pos ≤ fileSize s.mem i) (hfuel : fuel + pos = 2 ^ 31) :
    Outcome (INode.addDentryFrom i d fuel pos) s
      (fun _ t => ∃ j, Added lo hi last i pos j d s t) (fun e => e = blockBitmapFull) := by
  induction fuel generalizing s pos with
  | zero => omega
  | succ fuel ih =>
      have hlast := h.last_lt
      have hcond : pos ≤ fileSize s.mem i / dentrySize := by
        simp only [dentrySize]
        omega
      unfold INode.addDentryFrom
      refine Outcome.bind_ok (load_fSize h hi') ?_
      rw [onlyIf_pos hcond]
      refine Outcome.bind ((getDentry_outcome h hclosed hi' hdir (by omega)).mono ?_ fun _ he => he)
      rintro de t ⟨ht, rfl⟩
      have hlt := ht.off_lt
      have htsize := ht.grown.size
      have hv := ht.mapped (128 * pos / 4096) (by omega)
      refine Outcome.bind_ok (load_entryAddr ht.grown.owned hi' (by omega) hv) ?_
      rw [ht.grown.grows.own]
      split
      · rename_i hempty
        refine (storeEntry_outcome ht.grown.owned hi' (by omega) hv).mono ?_ fun _ he => he.elim
        intro _ u hu
        refine ⟨pos, hu.owned, ht.grown.grows.toTouches.trans hu.touches, ?_, ?_, ?_, le_rfl,
          fun l hl hl' => by omega, hempty, hlt⟩
        · rw [hu.content_eq, ht.grown.grows.own]
        · rw [hu.size_eq, htsize]
        · intro k hk
          rw [fileBlk, hu.slots_eq i hi' _ (dataSlot_valid (by omega))]
          exact ht.mapped k hk
      · rename_i hused
        have hdir' : fileType t.mem i = FType.DIR.code := by
          rw [ht.grown.grows.toTouches.fileType (by omega), hdir]
        refine (ih ht.grown.owned (ht.grown.grows.closed hclosed) hdir' hlt (by omega)
          (by omega)).mono ?_ fun _ he => he
        rintro _ u ⟨j, hj⟩
        have hle := hj.pos_le
        have hcontent := ht.grown.grows.own
        refine ⟨j, hj.owned, ht.grown.grows.toTouches.trans hj.touches, ?_, ?_, hj.mapped, by omega,
          ?_, ?_, hj.end_lt⟩
        · rw [hj.content_eq, hcontent]
        · rw [hj.size_eq, htsize]
          omega
        · intro l hl hl'
          rcases Nat.eq_or_lt_of_le hl with rfl | hlt'
          · exact hused
          · have hnext := hj.before l hlt' hl'
            rwa [hcontent] at hnext
        · have hempty := hj.empty
          rwa [hcontent] at hempty

/-- `add_dentry` overlays the entry on the first free slot, or stops with a full
block bitmap. -/
theorem addDentry_outcome (h : Ownership lo hi last s) (hclosed : Closed hi s.mem) (hi' : i ≤ last)
    (hdir : fileType s.mem i = FType.DIR.code) :
    Outcome (INode.addDentry i d) s (fun _ t => ∃ j, Added lo hi last i 0 j d s t)
      (fun e => e = blockBitmapFull) := by
  unfold INode.addDentry
  refine Outcome.bind_ok (load_fType h hi') ?_
  refine Outcome.onlyIf_bind_neg (not_not.mpr hdir) ?_
  exact addDentryFrom_outcome h hclosed hi' hdir (by omega) (by omega) (by omega)

/-- What a call of `add_dentry` that returns has done. -/
theorem addDentry_ok (h : Ownership lo hi last s) (hclosed : Closed hi s.mem) (hi' : i ≤ last)
    (hrun : INode.addDentry i d s = .ok ((), t)) :
    fileType s.mem i = FType.DIR.code ∧ ∃ j, Added lo hi last i 0 j d s t := by
  by_cases hdir : fileType s.mem i = FType.DIR.code
  · exact ⟨hdir, (addDentry_outcome h hclosed hi' hdir).of_ok hrun⟩
  · unfold INode.addDentry at hrun
    rw [bind_eq_ok (load_fType h hi'), onlyIf_pos hdir] at hrun
    cases hrun

/-- The same loop on a directory whose slots up to `n` are covered and in use. -/
theorem addDentryFrom_outcome_of_lt (h : Ownership lo hi last s) (hi' : i ≤ last)
    (hdir : fileType s.mem i = FType.DIR.code) (hpos : pos ≤ n)
    (hused : ∀ l, pos ≤ l → l < n → entryInode (content s.mem i) l ≠ 0)
    (hempty : entryInode (content s.mem i) n = 0) (hsize : 128 * n ≤ fileSize s.mem i)
    (hcov : 0 < n → Covered s.mem i (128 * n)) (hn : 128 * (n + 1) < 4259840)
    (hroom : Room hi (emptySlots s.mem i (neededSlots (128 * (n + 1)))) s.mem)
    (hfuel : fuel + pos = 2 ^ 31) :
    Outcome (INode.addDentryFrom i d fuel pos) s
      (fun _ u => ∃ t, Fills lo hi last i (max (fileSize s.mem i) (128 * (n + 1)))
        (neededSlots (128 * (n + 1))) s t ∧ DataWrite lo hi last i (128 * n) d.bytes t u)
      (Exhausted hi (emptySlots s.mem i (neededSlots (128 * (n + 1)))) s.mem) := by
  induction fuel generalizing pos with
  | zero => omega
  | succ fuel ih =>
      have hcond : pos ≤ fileSize s.mem i / dentrySize := by
        simp only [dentrySize]
        omega
      unfold INode.addDentryFrom
      refine Outcome.bind_ok (load_fSize h hi') ?_
      rw [onlyIf_pos hcond]
      rcases Nat.eq_or_lt_of_le hpos with rfl | hlt
      · -- the free slot
        refine Outcome.bind ((getDentry_outcome_of_lt h hi' hdir hn hroom).mono ?_ fun _ he => he)
        rintro de t ⟨ht, rfl⟩
        have hv := fileBlk_ne_zero_of_needed (k := 128 * pos / 4096) hn ht.filled (by omega)
        refine Outcome.bind_ok (load_entryAddr ht.owned hi' (by omega) hv) ?_
        rw [ht.grows.own, if_pos (by exact hempty)]
        refine (storeEntry_outcome ht.owned hi' (by omega) hv).mono ?_ fun _ he => he.elim
        exact fun _ u hu => ⟨t, ht, hu⟩
      · -- a slot in use
        have hcov' := (hcov (by omega)).mono (show 128 * (pos + 1) ≤ 128 * n by omega)
        have hv := fileBlk_ne_zero_of_needed (k := 128 * pos / 4096) hcov'.off_lt hcov'.filled
          (by omega)
        refine Outcome.bind_ok (getDentry_covered h hi' hdir hcov') ?_
        refine Outcome.bind_ok (load_entryAddr h hi' (by omega) hv) ?_
        rw [if_neg (by exact hused pos le_rfl hlt)]
        exact ih hlt (fun l hl => hused l (by omega)) (by omega)

/-- On a directory whose `n` slots are covered and in use, `add_dentry` takes slot
`n` and allocates what its end needs. -/
theorem addDentry_outcome_of_lt (h : Ownership lo hi last s) (hi' : i ≤ last)
    (hdir : fileType s.mem i = FType.DIR.code)
    (hused : ∀ l, l < n → entryInode (content s.mem i) l ≠ 0)
    (hempty : entryInode (content s.mem i) n = 0) (hsize : 128 * n ≤ fileSize s.mem i)
    (hcov : 0 < n → Covered s.mem i (128 * n)) (hn : 128 * (n + 1) < 4259840)
    (hroom : Room hi (emptySlots s.mem i (neededSlots (128 * (n + 1)))) s.mem) :
    Outcome (INode.addDentry i d) s
      (fun _ u => ∃ t, Fills lo hi last i (max (fileSize s.mem i) (128 * (n + 1)))
        (neededSlots (128 * (n + 1))) s t ∧ DataWrite lo hi last i (128 * n) d.bytes t u)
      (Exhausted hi (emptySlots s.mem i (neededSlots (128 * (n + 1)))) s.mem) := by
  unfold INode.addDentry
  refine Outcome.bind_ok (load_fType h hi') ?_
  refine Outcome.onlyIf_bind_neg (not_not.mpr hdir) ?_
  exact addDentryFrom_outcome_of_lt h hi' hdir (Nat.zero_le n) (fun l _ => hused l) hempty hsize
    hcov hn hroom (by omega)

end ParchTestbench
