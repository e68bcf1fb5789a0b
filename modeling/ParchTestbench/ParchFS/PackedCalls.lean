import ParchTestbench.ParchFS.Packing
import ParchTestbench.ParchFS.Root

/-!
# ParchFS: the calls on a packed volume

Every public call grows one file after the other through `get_blkno`, and copies bytes into
blocks that are mapped.  So each call that returns takes the blocks at the cursor, in the order
in which it comes to need them.

Main results:

- Theorem `write_takes`: the blocks that a `write` takes.
- Theorem `addDentry_takes`: the blocks that `add_dentry` takes.
- Theorem `addDots_takes`: the first two entries of a directory take one block.
-/

namespace ParchTestbench

open ParchFS Program

variable {lo hi last i p c e n off pos fuel : Nat} {s t u : ParchFS} {buf : List UInt8}
  {d : DEntry} {err : Abort}

/-! ## Writing -/

/-- The data blocks of a file of `n` blocks after the copy loop has gone over `len` bytes at
`off`: every piece comes with a call of `get_blkno`. -/
def writeGrown (n off len : Nat) : Nat :=
  if _h : len = 0 then
    n
  else
    writeGrown (grownTo n off) (off + INode.copyLen off len) (len - INode.copyLen off len)
termination_by len
decreasing_by
  have := INode.copyLen_pos off (Nat.pos_of_ne_zero _h)
  omega

theorem writeGrown_zero : writeGrown n off 0 = n := by
  rw [writeGrown]
  exact dif_pos rfl

theorem writeGrown_of_pos (n off : Nat) {len : Nat} (h : 0 < len) :
    writeGrown n off len = writeGrown (grownTo n off) (off + INode.copyLen off len)
      (len - INode.copyLen off len) := by
  rw [writeGrown]
  exact dif_neg (Nat.ne_of_gt h)

theorem le_writeGrown {len : Nat} : n ≤ writeGrown n off len := by
  induction hl : len using Nat.strong_induction_on generalizing n off len with
  | _ l ih =>
      rcases Nat.eq_zero_or_pos l with rfl | hpos
      · rw [writeGrown_zero]
      · have hcopy := INode.copyLen_pos off hpos
        rw [writeGrown_of_pos n off hpos]
        exact le_grownTo.trans (ih _ (by omega) rfl)

/-- A piece that lies in one block is copied into it, and nothing else changes. -/
theorem writeChunk_takes {Q : Unit → ParchFS → Prop} {E : Abort → Prop}
    (h : Packed lo hi last i c e t) (hi' : i ≤ last) (hk : off / 4096 < 1049616)
    (hv : fileBlk t.mem i (off / 4096) ≠ 0)
    (hrest : ∀ u, Takes lo hi last i c c e t u →
      Outcome (INode.writeLoop i (off + INode.copyLen off buf.length)
        (buf.drop (INode.copyLen off buf.length))) u Q E) :
    Outcome (do
      onlyIf (fileBlk t.mem i (off / 4096) = 0) (ParchFS.panic "bad blk no")
      let blk ← getBlk (fileBlk t.mem i (off / 4096))
      let n := INode.copyLen off buf.length
      memcpy (blk + off % blkSize) (buf.take n)
      INode.writeLoop i ((off + n) % 2 ^ 64) (buf.drop n)) t Q E := by
  have hown := h.owned
  have hpool := hown.pool_below_metadata
  have hmapped := hown.mapped_ge
  have hvalid := dataSlot_valid hk
  obtain ⟨-, hhi⟩ := hown.in_pool i hi' _ hvalid hv
  have hlt := h.slotVal_lt hi' hvalid
  rw [← fileBlk] at hhi hlt
  have hblock := copyLen_le_block off buf.length
  have hlen := copyLen_le_length off buf.length
  have htake : (buf.take (INode.copyLen off buf.length)).length = INode.copyLen off buf.length := by
    rw [List.length_take, min_eq_left hlen]
  have hcopy := hown.copyIntoBlock hi' hk hv
    (show off % 4096 + (buf.take (INode.copyLen off buf.length)).length ≤ 4096 by
      rw [htake]; exact hblock)
  refine Outcome.onlyIf_bind_neg hv ?_
  refine Outcome.bind_ok (hown.getBlk_slotVal hi' hvalid hv) ?_
  refine Outcome.bind_ok (memcpy_eq (by rw [htake]; simp only [blkSize]; rw [← fileBlk]; omega)) ?_
  rw [Nat.mod_eq_of_lt (by omega)]
  refine hrest _ (Takes.of_slots h hi' hcopy.owned hcopy.touches hcopy.slots_eq fun x hx _ => ?_)
  exact Mem.copy_of_notMem (by rw [htake]; simp only [blkSize]; rw [← fileBlk]; omega)

/-- The copy loop takes the blocks that its pieces need. -/
theorem writeLoop_takes (h : Packed lo hi last i (blocksFor n) e s) (hi' : i ≤ last)
    (hoff : off < 2 ^ 64) :
    Outcome (INode.writeLoop i off buf) s
      (fun _ t => Takes lo hi last i (blocksFor n) (blocksFor (writeGrown n off buf.length)) e s t)
      (Shortage hi (blocksFor n) (blocksFor (writeGrown n off buf.length)) e) := by
  -- strong induction on the bytes that are left
  induction hl : buf.length using Nat.strong_induction_on generalizing off buf n e s with
  | _ l ih =>
      subst hl
      rw [INode.writeLoop]
      split
      · rename_i hnil
        rw [hnil, writeGrown_zero]
        exact Outcome.pure (Takes.refl h)
      · rename_i hpos
        have hlen := copyLen_le_length off buf.length
        have hcopy := INode.copyLen_pos off (Nat.pos_of_ne_zero hpos)
        have hdrop : (buf.drop (INode.copyLen off buf.length)).length =
            buf.length - INode.copyLen off buf.length := List.length_drop
        have hgrown := writeGrown_of_pos n off (Nat.pos_of_ne_zero hpos)
        have hle : blocksFor (grownTo n off) ≤ blocksFor (writeGrown n off buf.length) := by
          rw [hgrown]
          exact blocksFor_le le_writeGrown
        refine Outcome.bind ((getBlkno_takes h hi' hoff).mono ?_ fun err he => he.mono hle)
        rintro b t ⟨ht, rfl, hk⟩
        have hv : fileBlk t.mem i (off / 4096) ≠ 0 :=
          (ht.packed.lt_iff (dataSlot_valid hk)).mpr (rank_dataSlot_lt_iff.mpr lt_grownTo)
        have hblock := copyLen_le_block off buf.length
        refine writeChunk_takes ht.packed hi' hk hv fun u hu => ?_
        have hsu := ht.trans hu
        have hrest := ih _ (by omega) hsu.packed
          (show off + INode.copyLen off buf.length < 2 ^ 64 by omega) hdrop
        rw [← hgrown] at hrest
        exact hrest.mono (fun _ v hv => hsu.trans hv) fun err he => hsu.shortage he

/-- The data blocks of a file of `n` blocks and `size` bytes after a `write`: one that reaches
the end of the file begins with a call of `get_blkno` for its own end. -/
def writtenTo (n size off len : Nat) : Nat :=
  writeGrown (if size ≤ (off + len) % 2 ^ 64 then grownTo n ((off + len) % 2 ^ 64) else n) off len

/-- A `write` takes the blocks that its end and its pieces need. -/
theorem write_takes (buf : List UInt8) (h : Packed lo hi last i (blocksFor n) e s)
    (hi' : i ≤ last) (hoff : off < 2 ^ 64) :
    Outcome (INode.write i off buf) s
      (fun _ t => Takes lo hi last i (blocksFor n)
        (blocksFor (writtenTo n (fileSize s.mem i) off buf.length)) e s t)
      (Shortage hi (blocksFor n)
        (blocksFor (writtenTo n (fileSize s.mem i) off buf.length)) e) := by
  unfold INode.write writtenTo
  refine Outcome.bind_ok (load_fSize h.owned hi') ?_
  by_cases hexpand : fileSize s.mem i ≤ (off + buf.length) % 2 ^ 64
  · rw [if_pos hexpand, onlyIf_pos hexpand]
    refine Outcome.bind (Outcome.bind ((getBlkno_takes h hi'
      (Nat.mod_lt _ (by norm_num))).mono ?_ fun err he => he.mono (blocksFor_le le_writeGrown)))
    rintro b t ⟨ht, -⟩
    exact Outcome.pure ((writeLoop_takes ht.packed hi' hoff).mono (fun _ u hu => ht.trans hu)
      fun err he => ht.shortage he)
  · rw [if_neg hexpand]
    exact Outcome.onlyIf_bind_neg hexpand (writeLoop_takes h hi' hoff)

/-! ## Directory entries -/

/-- The data blocks of a directory of `n` blocks after `add_dentry` has looked at its first `k`
slots: every look comes with a call of `get_blkno` for the end of the slot. -/
def scanned (n : Nat) : Nat → Nat
  | 0 => n
  | k + 1 => grownTo (scanned n k) (128 * (k + 1))

theorem scanned_succ {k : Nat} : scanned n (k + 1) = grownTo (scanned n k) (128 * (k + 1)) := rfl

theorem scanned_mono {k l : Nat} (h : k ≤ l) : scanned n k ≤ scanned n l := by
  induction h with
  | refl => exact le_rfl
  | step _ ih => exact ih.trans le_grownTo

/-- A call of `get_dentry` that returns has grown the directory to the end of the slot. -/
theorem getDentry_takes {de : Nat} (h : Packed lo hi last i (blocksFor n) e s) (hi' : i ≤ last)
    (hrun : INode.getDentry i pos s = .ok (de, t)) :
    Takes lo hi last i (blocksFor n)
      (blocksFor (grownTo n (128 * ((pos + 1) % 2 ^ 32)))) e s t := by
  unfold INode.getDentry at hrun
  rw [bind_eq_ok (load_fType h.owned hi')] at hrun
  obtain ⟨_, hgrow⟩ := ReadOnly.exists_of_bind (ReadOnly.onlyIf (ReadOnly.abort _)) hrun
  have hmod := Nat.mod_lt (pos + 1) (show 0 < 2 ^ 32 by norm_num)
  obtain ⟨b, v, hcall, hrest⟩ := exists_of_bind_eq_ok hgrow
  have hv := ((getBlkno_takes h hi'
    (show 128 * ((pos + 1) % 2 ^ 32) < 2 ^ 64 by omega)).of_ok hcall).1
  -- the rest of the call only reads
  have hsame : t = v := by
    refine ReadOnly.bind (ReadOnly.onlyIf (ReadOnly.abort _)) (fun _ => ?_) _ _ _ hrest
    exact ReadOnly.bind (getBlkno_readOnly _ _) fun _ =>
      ReadOnly.bind (ReadOnly.onlyIf (ReadOnly.abort _)) fun _ =>
        ReadOnly.bind (getBlk_readOnly _) fun _ => ReadOnly.pure _
  rw [hsame]
  exact hv

/-- `get_dentry` on a directory grows it to the end of the slot and gives the slot's address. -/
theorem getDentry_packed (h : Packed lo hi last i (blocksFor n) e s) (hi' : i ≤ last)
    (hdir : fileType s.mem i = FType.DIR.code) (hpos : pos + 1 < 2 ^ 32) :
    Outcome (INode.getDentry i pos) s
      (fun de t => (Mapped lo hi last i (128 * (pos + 1)) s t ∧ de = entryAddr t.mem i pos) ∧
        Takes lo hi last i (blocksFor n) (blocksFor (grownTo n (128 * (pos + 1)))) e s t)
      (Shortage hi (blocksFor n) (blocksFor (grownTo n (128 * (pos + 1)))) e) := by
  have hoff : 128 * (pos + 1) < 2 ^ 64 := by omega
  unfold INode.getDentry
  refine Outcome.bind_ok (load_fType h.owned hi') ?_
  refine Outcome.onlyIf_bind_neg (not_not.mpr hdir) ?_
  rw [Nat.mod_eq_of_lt hpos]
  refine Outcome.bind (((getBlkno_outcome h.owned h.closed hi' hoff).both
    (getBlkno_takes h hi' hoff)).mono ?_ fun _ he => he.2)
  rintro b t ⟨⟨ht, rfl⟩, hreach, -⟩
  have hlt := ht.off_lt
  have hsize := ht.grown.size
  refine Outcome.onlyIf_bind_neg (ht.mapped _ le_rfl) ?_
  exact Outcome.of_eq_ok (lookupEntry_eq ht.grown.owned hi' (by omega) (by omega)
    (ht.mapped _ (by omega))) ⟨⟨ht, rfl⟩, hreach⟩

/-- Slot `j` is the first free one from `pos` on. -/
structure FirstFree (c : Mem) (pos j : Nat) : Prop where
  pos_le : pos ≤ j
  before : ∀ l, pos ≤ l → l < j → entryInode c l ≠ 0
  empty : entryInode c j = 0

theorem FirstFree.unique {c : Mem} {j k : Nat} (h : FirstFree c pos j) (h' : FirstFree c pos k) :
    j = k := by
  rcases Nat.lt_trichotomy j k with hlt | heq | hgt
  · exact absurd h.empty (h'.before j h.pos_le hlt)
  · exact heq
  · exact absurd h'.empty (h.before k h'.pos_le hgt)

/-- The entry goes into its slot, and nothing else changes. -/
theorem storeEntry_takes (h : Packed lo hi last i c e t) (hi' : i ≤ last)
    (hk : 128 * pos / 4096 < 1049616) (hv : fileBlk t.mem i (128 * pos / 4096) ≠ 0) :
    Outcome (do
        memset (entryAddr t.mem i pos) 0 dentrySize
        memcpy (entryAddr t.mem i pos) d.bytes) t
      (fun _ u => Takes lo hi last i c c e t u) (fun _ => False) := by
  have hle := entryAddr_le h.owned hi' hk hv
  have hlen := d.length_bytes
  have hcopy := h.owned.copyIntoBlock hi' hk hv
    (show 128 * pos % 4096 + d.bytes.length ≤ 4096 by omega)
  have hlt := h.slotVal_lt hi' (dataSlot_valid hk)
  rw [← fileBlk] at hlt
  refine Outcome.of_eq_ok (storeAt_eq hle) ?_
  refine Takes.of_slots h hi' hcopy.owned hcopy.touches hcopy.slots_eq fun x hx _ => ?_
  exact Mem.copy_of_notMem (by unfold entryAddr; omega)

/-- The loop of `add_dentry` from position `pos` on. -/
theorem addDentryFrom_takes (h : Packed lo hi last i (blocksFor (scanned n pos)) e s)
    (hi' : i ≤ last) (hdir : fileType s.mem i = FType.DIR.code) (hpos : 128 * pos < 2151743488)
    (hsize : 128 * pos ≤ fileSize s.mem i) (hfuel : fuel + pos = 2 ^ 31) :
    Outcome (INode.addDentryFrom i d fuel pos) s
      (fun _ t => ∃ j, FirstFree (content s.mem i) pos j ∧
        Takes lo hi last i (blocksFor (scanned n pos)) (blocksFor (scanned n (j + 1))) e s t)
      (fun err => ∃ j, pos ≤ j ∧ (∀ l, pos ≤ l → l < j → entryInode (content s.mem i) l ≠ 0) ∧
        Shortage hi (blocksFor (scanned n pos)) (blocksFor (scanned n (j + 1))) e err) := by
  induction fuel generalizing s pos e with
  | zero => omega
  | succ fuel ih =>
      have hlast := h.owned.last_lt
      have hcond : pos ≤ fileSize s.mem i / dentrySize := by
        simp only [dentrySize]
        omega
      unfold INode.addDentryFrom
      refine Outcome.bind_ok (load_fSize h.owned hi') ?_
      rw [onlyIf_pos hcond]
      refine Outcome.bind ((getDentry_packed h hi' hdir (by omega)).mono ?_ fun err he =>
        ⟨pos, le_rfl, fun l hl hl' => by omega, he⟩)
      rintro de t ⟨⟨ht, rfl⟩, hreach⟩
      rw [← scanned_succ] at hreach
      have hlt := ht.off_lt
      have htsize := ht.grown.size
      have hcontent := ht.grown.grows.own
      have hv := ht.mapped (128 * pos / 4096) (by omega)
      refine Outcome.bind_ok (load_entryAddr ht.grown.owned hi' (by omega) hv) ?_
      rw [hcontent]
      split
      · rename_i hempty
        refine (storeEntry_takes hreach.packed hi' (by omega) hv).mono ?_ fun _ he => he.elim
        intro _ u hu
        exact ⟨pos, ⟨le_rfl, fun l hl hl' => by omega, hempty⟩, hreach.trans hu⟩
      · rename_i hused
        have hdir' : fileType t.mem i = FType.DIR.code := by
          rw [ht.grown.grows.toTouches.fileType (by omega), hdir]
        have hnext : ∀ l, pos ≤ l → entryInode (content t.mem i) l ≠ 0 ∨ l = pos →
            entryInode (content s.mem i) l ≠ 0 := by
          rintro l hl (hne | rfl)
          · rwa [hcontent] at hne
          · exact hused
        refine (ih hreach.packed hdir' hlt (by omega) (by omega)).mono ?_ ?_
        · rintro _ u ⟨j, hj, hu⟩
          have hle := hj.pos_le
          refine ⟨j, ⟨by omega, fun l hl hl' => hnext l hl ?_, ?_⟩, hreach.trans hu⟩
          · rcases Nat.eq_or_lt_of_le hl with heq | hlt'
            · exact Or.inr heq.symm
            · exact Or.inl (hj.before l hlt' hl')
          · rw [← hcontent]
            exact hj.empty
        · rintro err ⟨j, hle, hbefore, he⟩
          refine ⟨j, by omega, fun l hl hl' => hnext l hl ?_, hreach.shortage he⟩
          rcases Nat.eq_or_lt_of_le hl with heq | hlt'
          · exact Or.inr heq.symm
          · exact Or.inl (hbefore l hlt' hl')

/-- `add_dentry` takes the blocks up to the end of the first free slot. -/
theorem addDentry_takes (h : Packed lo hi last i (blocksFor n) e s) (hi' : i ≤ last)
    (hdir : fileType s.mem i = FType.DIR.code) :
    Outcome (INode.addDentry i d) s
      (fun _ t => ∃ j, Added lo hi last i 0 j d s t ∧
        Takes lo hi last i (blocksFor n) (blocksFor (scanned n (j + 1))) e s t)
      (fun err => ∃ j, (∀ l, l < j → entryInode (content s.mem i) l ≠ 0) ∧
        Shortage hi (blocksFor n) (blocksFor (scanned n (j + 1))) e err) := by
  have hwalk : Outcome (INode.addDentry i d) s
      (fun _ t => ∃ j, FirstFree (content s.mem i) 0 j ∧
        Takes lo hi last i (blocksFor n) (blocksFor (scanned n (j + 1))) e s t)
      (fun err => ∃ j, (∀ l, l < j → entryInode (content s.mem i) l ≠ 0) ∧
        Shortage hi (blocksFor n) (blocksFor (scanned n (j + 1))) e err) := by
    unfold INode.addDentry
    refine Outcome.bind_ok (load_fType h.owned hi') ?_
    refine Outcome.onlyIf_bind_neg (not_not.mpr hdir) ?_
    refine (addDentryFrom_takes (show Packed lo hi last i (blocksFor (scanned n 0)) e s from h)
      hi' hdir (by omega) (by omega) (by omega)).mono (fun _ _ ht => ht) ?_
    rintro err ⟨j, -, hbefore, he⟩
    exact ⟨j, fun l hl => hbefore l (Nat.zero_le l) hl, he⟩
  refine ((addDentry_outcome h.owned h.closed hi' hdir).both hwalk).mono ?_ fun _ he => he.2
  rintro _ t ⟨⟨j, hj⟩, k, hk, ht⟩
  -- both walks stop at the first free slot
  obtain rfl : j = k := FirstFree.unique ⟨hj.pos_le, hj.before, hj.empty⟩ hk
  exact ⟨j, hj, ht⟩

/-! ## The first entries of a directory -/

/-- Below the double-indirect range the last slot decides. -/
theorem scanned_of_lt {k : Nat} (hpos : 0 < k) (hk : 128 * k < 4259840) :
    scanned n k = max n (128 * k / 4096 + 1) := by
  induction k with
  | zero => omega
  | succ k ih =>
      rw [scanned_succ, grownTo_of_lt hk]
      rcases Nat.eq_zero_or_pos k with rfl | hpos'
      · rfl
      · rw [ih hpos' (by omega)]
        omega

/-- The entries `.` and `..` of a fresh directory take one block. -/
theorem addDots_takes (h : Packed lo hi last i 0 e t) (hi' : i ≤ last)
    (hdir : fileType t.mem i = FType.DIR.code) (hcontent : content t.mem i = fun _ => 0) :
    Outcome (do
        INode.addDentry i (dotEntry i)
        INode.addDentry i (dotDotEntry p)) t
      (fun _ u => Takes lo hi last i 0 1 e t u) (Shortage hi 0 1 e) := by
  have hlast := h.owned.last_lt
  have hone : blocksFor (scanned 0 (0 + 1)) = 1 := by
    rw [scanned_of_lt (by omega) (by omega), blocksFor_direct (by omega)]
    rfl
  have htwo : blocksFor (scanned 1 (1 + 1)) = 1 := by
    rw [scanned_of_lt (by omega) (by omega), blocksFor_direct (by omega)]
    rfl
  have hfirst : ∀ j, (∀ l, l < j → entryInode (content t.mem i) l ≠ 0) → j = 0 := by
    intro j hbefore
    by_contra hj
    exact hbefore 0 (Nat.pos_of_ne_zero hj) (by rw [hcontent, entryInode_zero])
  have hdot := addDentry_takes (n := 0) (d := dotEntry i) (by rwa [blocksFor_zero]) hi' hdir
  rw [blocksFor_zero] at hdot
  refine Outcome.bind (hdot.mono ?_ ?_)
  swap
  · rintro err ⟨j, hbefore, he⟩
    rwa [hfirst j hbefore, hone] at he
  rintro _ u ⟨j, hj, hu⟩
  obtain rfl := hfirst j fun l hl => hj.before l (Nat.zero_le l) hl
  rw [hone] at hu
  have hucontent : content u.mem i = Mem.copy (fun _ => 0) (128 * 0) (dotEntry i).bytes := by
    rw [hj.content_eq, hcontent]
  have hudir : fileType u.mem i = FType.DIR.code := by rw [hu.touches.fileType (by omega), hdir]
  have hempty : entryInode (content u.mem i) 1 = 0 := by
    rw [hucontent, entryInode_copy_of_ne (by omega), entryInode_zero]
  have hsecond : ∀ j, (∀ l, l < j → entryInode (content u.mem i) l ≠ 0) → j ≤ 1 := by
    intro j hbefore
    by_contra hj'
    exact hbefore 1 (by omega) hempty
  have hmono : ∀ j, j ≤ 1 → blocksFor (scanned 1 (j + 1)) ≤ 1 := fun j hle => by
    rw [← htwo]
    exact blocksFor_le (scanned_mono (by omega))
  have hdotDot := addDentry_takes (n := 1) (d := dotDotEntry p)
    (by rw [blocksFor_direct (by omega)]; exact hu.packed) hi' hudir
  rw [blocksFor_direct (show 1 ≤ 16 by omega)] at hdotDot
  refine hdotDot.mono ?_ ?_
  · rintro _ v ⟨k, hk, hv⟩
    have hle := hmono k (hsecond k fun l hl => hk.before l (Nat.zero_le l) hl)
    have hge := hv.le
    rw [show blocksFor (scanned 1 (k + 1)) = 1 by omega] at hv
    exact hu.trans hv
  · rintro err ⟨k, hbefore, he⟩
    exact hu.shortage (he.mono (hmono k (hsecond k hbefore)))

end ParchTestbench
