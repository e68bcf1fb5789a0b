import ParchTestbench.ParchFS.TightLayout
import ParchTestbench.ParchFS.Exhaustion

/-!
# ParchFS: what a file holds

A file is the log of its writes: its size is the furthest end, and every offset holds the
byte of the last write that covered it.  `read` gives the same bytes, but refuses a range
that ends at the end of the file.

Main results:

- Theorem `HoldsFile.read_eq`: what `read` returns.
- Theorem `writes_refine`: in every run a file is the byte array of its writes.
- Theorem `readsRange_iff`: `read` returns a range of the file exactly when the range ends
  before the file does.
-/

namespace ParchTestbench

open ParchFS Program
open WriteLog (extent overlay lastByte)

variable {lo hi last i off len o : Nat} {base s t u v : ParchFS} {env : Env} {ws : WriteLog}

/-! ## Reading -/

/-- `len` bytes from `off` on. -/
def slice (m : Mem) (off len : Nat) : List UInt8 := (List.range len).map fun k => m (off + k)

theorem slice_append (m : Mem) (off n n' : Nat) :
    slice m off n ++ slice m (off + n) n' = slice m off (n + n') := by
  unfold slice
  rw [List.range_add, List.map_append, List.map_map]
  refine congrArg₂ (· ++ ·) rfl (List.map_congr_left fun k _ => ?_)
  rw [Function.comp_apply, Nat.add_assoc]

/-- Inside one mapped block the contents lie in memory as they are. -/
theorem slice_content {m : Mem} {n : Nat} (hk : off / 4096 < 1049616)
    (hv : fileBlk m i (off / 4096) ≠ 0) (hn : off % 4096 + n ≤ 4096) :
    slice m (4096 * fileBlk m i (off / 4096) + off % 4096) n = slice (content m i) off n := by
  refine List.map_congr_left fun k hk' => ?_
  have hlt := List.mem_range.mp hk'
  have hdiv : (off + k) / 4096 = off / 4096 := by omega
  have hmod : (off + k) % 4096 = off % 4096 + k := by omega
  rw [content_of_mapped (by omega) (by rwa [hdiv]), hdiv, hmod, Nat.add_assoc]

/-- Over a mapped range the copy loop of `read` gives the contents and changes nothing. -/
theorem readLoop_eq (h : Ownership lo hi last s) (hi' : i ≤ last)
    (hsize : off + len ≤ fileSize s.mem i) (hlt : off + len < 2151743488)
    (hmapped : ∀ k, k ≤ (off + len) / 4096 → fileBlk s.mem i k ≠ 0) :
    INode.readLoop i off len s = .ok (slice (content s.mem i) off len, s) := by
  -- strong induction on the bytes that are left
  induction hn : len using Nat.strong_induction_on generalizing off len with
  | _ n ih =>
      subst hn
      rw [INode.readLoop]
      split
      · rename_i hzero
        subst hzero
        rfl
      · rename_i hpos
        have hlen := copyLen_le_length off len
        have hcopy := INode.copyLen_pos off (Nat.pos_of_ne_zero hpos)
        have hblock := copyLen_le_block off len
        have hv := hmapped (off / 4096) (by omega)
        have hk : off / 4096 < 1049616 := by omega
        obtain ⟨-, hhi⟩ := h.in_pool i hi' _ (dataSlot_valid hk) hv
        have hpool := h.pool_below_metadata
        have hbound := h.mapped_ge
        rw [← fileBlk] at hhi
        have hbytes : loadBytes (4096 * fileBlk s.mem i (off / 4096) + off % blkSize)
            (INode.copyLen off len) s =
              .ok (slice (content s.mem i) off (INode.copyLen off len), s) := by
          rw [loadBytes_eq (by simp only [blkSize]; omega), ← slice_content hk hv hblock]
          rfl
        have hend : off + INode.copyLen off len + (len - INode.copyLen off len) = off + len := by
          omega
        have hrest := @ih (len - INode.copyLen off len) (by omega) (off + INode.copyLen off len)
          (len - INode.copyLen off len) (by rwa [hend]) (by rwa [hend]) (by rwa [hend]) rfl
        have hblk : getBlk (fileBlk s.mem i (off / 4096)) s =
            .ok (4096 * fileBlk s.mem i (off / 4096), s) :=
          h.getBlk_slotVal hi' (dataSlot_valid hk) hv
        rw [bind_eq_ok (getBlkno_lookup h hi' (by omega) hk hv), onlyIf_bind_neg hv,
          bind_eq_ok hblk, bind_eq_ok (by exact hbytes),
          Nat.mod_eq_of_lt (show off + INode.copyLen off len < 2 ^ 64 by omega), bind_eq_ok hrest]
        have hall := slice_append (content s.mem i) off (INode.copyLen off len)
          (len - INode.copyLen off len)
        rw [show INode.copyLen off len + (len - INode.copyLen off len) = len by omega] at hall
        rw [← hall]
        rfl

namespace HoldsFile

/-- `read` of a range of the file: the bytes of the log, unless the range ends where the
file does. -/
theorem read_eq (h : HoldsFile i ws s) (hown : Ownership lo hi last s) (hi' : i ≤ last)
    (hle : off + len ≤ extent ws) : INode.read i off len s =
      if off + len < extent ws then .ok (slice (overlay ws) off len, s)
      else .error (.assertion "off + len < this->f_size") := by
  have hlt := h.extent_lt
  have hmod : (off + len) % 2 ^ 64 = off + len := Nat.mod_eq_of_lt (by omega)
  unfold INode.read
  rw [bind_eq_ok (load_fSize hown hi'), hmod, h.size_eq]
  split
  · rename_i hbefore
    have hne : ws ≠ [] := fun hnil => by
      rw [hnil, WriteLog.extent_nil] at hbefore
      omega
    rw [bind_eq_ok (assert_eq hbefore), ← h.content_eq]
    exact readLoop_eq hown hi' (by rw [h.size_eq]; exact hle) (by omega)
      fun k hk => h.mapped hne k (by omega)
  · rename_i hend
    rw [bind_eq_error (assert_eq_error hend)]

/-- A lookup at an offset of the file finds the byte of the log. -/
theorem lookup_eq (h : HoldsFile i ws s) (hown : Ownership lo hi last s) (hi' : i ≤ last)
    (ho : o < extent ws) : ∃ b, INode.getBlkno i o false s = .ok (b, s) ∧ b ≠ 0 ∧
      s.mem (4096 * b + o % 4096) = lastByte ws o := by
  have hlt := h.extent_lt
  have hne : ws ≠ [] := fun hnil => by
    rw [hnil, WriteLog.extent_nil] at ho
    omega
  have hv := h.mapped hne (o / 4096) (by omega)
  refine ⟨_, getBlkno_lookup hown hi' (by rw [h.size_eq]; omega) (by omega) hv, hv, ?_⟩
  rw [← content_of_mapped (by omega) hv, h.content_eq, WriteLog.overlay_eq_lastByte]

end HoldsFile

/-! ## Every run -/

section Runs

variable {bin : MMAPBinContent} {lines : List (List Char)} {syms : Symbols} {pre post : List Op}
  {env' : Env} {p : Nat} {name : List UInt8}

/-- A run that makes a file and goes on. -/
structure FileRun (env : Env) (bin : MMAPBinContent) (lines : List (List Char)) (i : Nat)
    (post : List Op) (u : ParchFS) : Prop where
  exists_run : ∃ s t v pre env' p name, construct env bin lines = .ok s ∧
    Admissible 1 [] (pre ++ .makeFile env' p name :: post) ∧
    runAll Op.exec pre s = .ok ((), t) ∧ makeFile env' p name t = .ok (i, v) ∧
    runAll Op.exec post v = .ok ((), u)

/-- On a volume with a marked reserve the run goes on from a new, empty file. -/
theorem FileRun.exists_new (h : FileRun env bin lines i post u)
    (hread : Symbols.read env lines = .ok syms)
    (hreserve : reserveStart (ofSymbols bin syms) ≤ 0x7FDDE) :
    ∃ lo hi last base v, Healthy lo hi last base v ∧ 0 < last ∧ i ≤ last ∧ HoldsFile i [] v ∧
      (∀ σ : Slot, σ.Valid → slotVal v.mem i σ = 0) ∧ Admissible last [] post ∧
      runAll Op.exec post v = .ok ((), u) := by
  obtain ⟨s, t, v, pre, env', p, name, hrun, hops, hpre, hmake, hpost⟩ := h.exists_run
  have hstart := healthy_of_init (init_of_construct hread hrun) hreserve
  have hroom := hops.right.room
  rw [List.nil_append, ← List.singleton_append, creations_append] at hroom
  have hone : creations [Op.makeFile env' p name] = 1 := rfl
  have hp : p < 8192 := hops.wellTyped (.makeFile env' p name)
    (List.mem_append_right _ List.mem_cons_self)
  have hbefore := run_healthy hstart (by omega) hops.left hpre
  obtain ⟨rfl, hafter, hfile, hslots⟩ := holdsFile_of_makeFile hbefore (by omega) hp hmake
  have hpost' : Admissible (1 + creations pre + 1) [] post :=
    Admissible.right [.makeFile env' p name] (Admissible.right _ hops)
  exact ⟨_, _, _, _, v, hafter, by omega, le_rfl, hfile, hslots, hpost', hpost⟩

/-- On a volume with a marked reserve the file is the log of its accesses. -/
theorem FileRun.holdsFile (h : FileRun env bin lines i post u)
    (hread : Symbols.read env lines = .ok syms)
    (hreserve : reserveStart (ofSymbols bin syms) ≤ 0x7FDDE) :
    ∃ lo hi last base, Healthy lo hi last base u ∧ i ≤ last ∧
      HoldsFile i (accesses i post) u := by
  obtain ⟨lo, hi, last, base, v, hnew, hroot, hi', hfile, -, hops, hpost⟩ :=
    h.exists_new hread hreserve
  exact ⟨_, _, _, _, run_healthy hnew hroot hops hpost, by omega,
    hfile.run hnew hroot hi' hops hpost⟩

/-- File `i` is the byte array of the writes `ws`. -/
structure RefinesLog (i : Nat) (ws : WriteLog) (u : ParchFS) : Prop where
  size_eq : fileSize u.mem i = extent ws
  byte_eq : ∀ o, o < fileSize u.mem i → ∃ b, INode.getBlkno i o false u = .ok (b, u) ∧ b ≠ 0 ∧
    u.mem (4096 * b + o % 4096) = lastByte ws o

/-- In every run on a volume with a marked reserve a file is the byte array of its
writes. -/
theorem writes_refine (hread : Symbols.read env lines = .ok syms)
    (hreserve : reserveStart (ofSymbols bin syms) ≤ 0x7FDDE)
    (h : FileRun env bin lines i post u) : RefinesLog i (accesses i post) u := by
  obtain ⟨lo, hi, last, base, hhealthy, hi', hfile⟩ := h.holdsFile hread hreserve
  refine ⟨hfile.size_eq, fun o ho => ?_⟩
  rw [hfile.size_eq] at ho
  exact hfile.lookup_eq hhealthy.owned hi' ho

/-- `read` fills its buffer with the bytes of the writes and changes nothing. -/
def ReadsRange (i : Nat) (ws : WriteLog) (off len : Nat) (u : ParchFS) : Prop :=
  INode.read i off len u = .ok ((List.range len).map fun k => lastByte ws (off + k), u)

/-- In every run on a volume with a marked reserve `read` of a range of the file succeeds
exactly when the range ends before the file does. -/
theorem readsRange_iff (hread : Symbols.read env lines = .ok syms)
    (hreserve : reserveStart (ofSymbols bin syms) ≤ 0x7FDDE)
    (h : FileRun env bin lines i post u) (off len : Nat)
    (hle : off + len ≤ fileSize u.mem i) :
    ReadsRange i (accesses i post) off len u ↔ off + len < fileSize u.mem i := by
  obtain ⟨lo, hi, last, base, hhealthy, hi', hfile⟩ := h.holdsFile hread hreserve
  have hcall := hfile.read_eq hhealthy.owned hi' (by rwa [← hfile.size_eq])
  rw [← hfile.size_eq] at hcall
  unfold ReadsRange
  rw [hcall]
  split
  · rename_i hlt
    refine iff_of_true ?_ hlt
    simp only [slice, WriteLog.overlay_eq_lastByte]
  · rename_i hend
    exact iff_of_false (fun hc => by cases hc) hend

end Runs

/-! ## Sample runs -/

/-- The run that makes a file and goes on with calls that create nothing. -/
theorem fileRun_of_calls {lines : List (List Char)} {name : List UInt8} {ops : List Op}
    (hrun : construct blankEnv blankImage lines = .ok s)
    (hmake : makeFile blankEnv rootInode name s = .ok (2, t)) (htyped : ∀ op ∈ ops, op.WellTyped)
    (hnone : creations ops = 0) (hruns : runAll Op.exec ops t = .ok ((), u)) :
    FileRun blankEnv blankImage lines 2 ops u := by
  refine ⟨s, s, t, [], blankEnv, rootInode, name, hrun, ⟨fun op' hop' => ?_, ?_⟩, rfl, hmake,
    hruns⟩
  · rcases List.mem_cons.mp hop' with rfl | hop'
    · exact show rootInode < 8192 by decide
    · exact htyped op' hop'
  · have hcount := creations_append [Op.makeFile blankEnv rootInode name] ops
    rw [hnone] at hcount
    exact show 1 + creations ([Op.makeFile blankEnv rootInode name] ++ ops) < 8192 by
      rw [hcount, show creations [Op.makeFile blankEnv rootInode name] = 1 from rfl]
      omega

/-- The run that makes a file and calls one operation on it. -/
theorem fileRun_of_call {lines : List (List Char)} {name : List UInt8} {op : Op}
    (hrun : construct blankEnv blankImage lines = .ok s)
    (hmake : makeFile blankEnv rootInode name s = .ok (2, t)) (hop : op.WellTyped)
    (hadd : op.added = 0) (hexec : op.exec t = .ok ((), u)) :
    FileRun blankEnv blankImage lines 2 [op] u := by
  have hcount := creations_concat [] op
  rw [hadd] at hcount
  refine fileRun_of_calls hrun hmake (fun op' hop' => ?_) hcount ((bind_eq_ok hexec).trans rfl)
  rw [List.mem_singleton.mp hop']
  exact hop

/-- The run that makes a file and writes a zero byte to it. -/
theorem fileRun_of_write {lines : List (List Char)} {total : Nat} {name : List UInt8}
    (hrun : construct blankEnv blankImage lines = .ok s)
    (hmake : makeFile blankEnv rootInode name s = .ok (2, t)) (hflat : Flat lo hi total s 0 1 t)
    (hwrite : INode.write 2 0 [0] t = .ok ((), u)) :
    FileRun blankEnv blankImage lines 2 [.write 2 0 [0]] u := by
  have hget := getInode_eq hflat.owned.mapped_ge (show 2 < 32768 by omega)
    ((hflat.owned.inodeBit_iff _ (by omega)).mpr le_rfl)
  exact fileRun_of_call hrun hmake ⟨by decide, by decide, by decide⟩ rfl
    ((bind_eq_ok hget).trans hwrite)

theorem exists_fileRun : ∃ u, FileRun blankEnv blankImage sampleLines 2 [.write 2 0 [0]] u := by
  obtain ⟨s, hrun, hsample⟩ := exists_sampleVolume
  have hflat := hsample.flat
  obtain ⟨t, u, hmake, -, hwrite, -⟩ := hflat.addFile blankEnv
    (show ([] : List UInt8).length ≤ 118 by decide) (by decide)
    (show ([0] : List UInt8).length < 4259840 by decide) (by decide)
  obtain ⟨t', hmake', hflat', -⟩ := hflat.exists_first (by decide)
  rw [hmake] at hmake'
  cases hmake'
  exact ⟨u, fileRun_of_write hrun hmake hflat' hwrite⟩

/-! ## Two writes over the end of a block -/

/-- Writes of other bytes than zero, which overlap on both sides of the end of a block. -/
def sampleWrites : List Op := [.write 2 4094 [65, 66, 67, 68], .write 2 4096 [69, 70, 71]]

theorem wellTyped_sampleWrites : ∀ op ∈ sampleWrites, op.WellTyped := by
  unfold sampleWrites
  simp only [List.forall_mem_cons]
  exact ⟨⟨by decide, by decide, by decide⟩, ⟨by decide, by decide, by decide⟩, by simp⟩

/-- What is known of the sample volume after a file has been made and written to. -/
structure SampleFile (s t u : ParchFS) : Prop where
  run : construct blankEnv blankImage sampleLines = .ok s
  make : makeFile blankEnv rootInode [] s = .ok (2, t)
  writes : runAll Op.exec sampleWrites t = .ok ((), u)
  free : 0 < freeCount 0x7FDDD u.mem

theorem exists_sampleFile : ∃ s t u, SampleFile s t u := by
  obtain ⟨s, hrun, hsample⟩ := exists_sampleVolume
  obtain ⟨t, hmake, hflat, hvacant⟩ := hsample.flat.exists_first (by decide)
  have hbudget := hflat.budget
  have hroot : blockCost (128 * (1 + 2)) = 1 := rfl
  have hcost : blockCost (4094 + [65, 66, 67, 68].length) = 2 ∧
      blockCost (4096 + [69, 70, 71].length) = 2 := by decide
  have hget := fun {v : ParchFS} (hv : Ownership 0x200 0x7FDDD 2 v) =>
    getInode_eq hv.mapped_ge (show 2 < 32768 by omega)
      ((hv.inodeBit_iff _ (by omega)).mpr (le_refl 2))
  obtain ⟨v, hfirst, howned, hsize, hfree⟩ := hflat.owned.exists_write (le_refl 2)
    (show 4094 + [65, 66, 67, 68].length < 4259840 by decide)
    (by rw [hvacant.size]; exact Nat.zero_le _) (by omega)
  obtain ⟨u, hsecond, -, -, hfree'⟩ := howned.exists_write (le_refl 2)
    (show 4096 + [69, 70, 71].length < 4259840 by decide)
    (by rw [hsize]; decide) (by omega)
  have hexec : (Op.write 2 4094 [65, 66, 67, 68]).exec t = .ok ((), v) :=
    (bind_eq_ok (hget hflat.owned)).trans hfirst
  have hexec' : (Op.write 2 4096 [69, 70, 71]).exec v = .ok ((), u) :=
    (bind_eq_ok (hget howned)).trans hsecond
  exact ⟨s, t, u, hrun, hmake, (bind_eq_ok hexec).trans ((bind_eq_ok hexec').trans rfl), by omega⟩

theorem exists_sampleWrites :
    ∃ u, FileRun blankEnv blankImage sampleLines 2 sampleWrites u := by
  obtain ⟨s, t, u, h⟩ := exists_sampleFile
  exact ⟨u, fileRun_of_calls h.run h.make wellTyped_sampleWrites rfl h.writes⟩

theorem writes_refine_sample : ∃ u,
    FileRun blankEnv blankImage sampleLines 2 sampleWrites u ∧
      RefinesLog 2 (accesses 2 sampleWrites) u := by
  obtain ⟨u, h⟩ := exists_sampleWrites
  exact ⟨u, h, writes_refine sample_read (by decide) h⟩

theorem readsRange_iff_sample : ∃ u,
    FileRun blankEnv blankImage sampleLines 2 sampleWrites u ∧
      (ReadsRange 2 (accesses 2 sampleWrites) 4095 3 u ↔ 4095 + 3 < fileSize u.mem 2) := by
  obtain ⟨u, h⟩ := exists_sampleWrites
  obtain ⟨lo, hi, last, base, -, -, hfile⟩ := h.holdsFile sample_read (by decide)
  have hend : extent (accesses 2 sampleWrites) = 4099 := rfl
  have hle : 4095 + 3 ≤ fileSize u.mem 2 := by
    rw [hfile.size_eq, hend]
    decide
  exact ⟨u, h, readsRange_iff sample_read (by decide) h 4095 3 hle⟩

/-! ## A file of one byte -/

/-- The only byte of the file cannot be read: the range ends where the file does. -/
theorem not_readsRange : ∃ u,
    FileRun blankEnv blankImage sampleLines 2 [.write 2 0 [0]] u ∧ fileSize u.mem 2 = 1 ∧
      INode.read 2 0 1 u = .error (.assertion "off + len < this->f_size") ∧
      ¬ ReadsRange 2 (accesses 2 [.write 2 0 [0]]) 0 1 u := by
  obtain ⟨u, h⟩ := exists_fileRun
  obtain ⟨lo, hi, last, base, hhealthy, hi', hfile⟩ := h.holdsFile sample_read (by decide)
  have hend : extent (accesses 2 [.write 2 0 [0]]) = 1 := rfl
  have hfail : INode.read 2 0 1 u = .error (.assertion "off + len < this->f_size") := by
    rw [hfile.read_eq hhealthy.owned hi' (by rw [hend]), hend, if_neg (by omega)]
  refine ⟨u, h, hfile.size_eq.trans hend, hfail, fun hreads => ?_⟩
  unfold ReadsRange at hreads
  rw [hfail] at hreads
  cases hreads

/-- On the layout with a pool of one block, the write of one byte returns and leaves a file
of size 0: the block that it is handed holds the inode. -/
theorem not_writes_refine : ∃ u,
    FileRun blankEnv blankImage tightLines 2 [.write 2 0 [0]] u ∧ fileSize u.mem 2 = 0 ∧
      extent (accesses 2 [.write 2 0 [0]]) = 1 ∧
      ¬ RefinesLog 2 (accesses 2 [.write 2 0 [0]]) u := by
  obtain ⟨s, hrun, htight⟩ := exists_tight
  obtain ⟨t, hmake, hflat, hvacant⟩ := htight.flat.exists_first (by decide)
  have hfree : freeCount 0x7FDDE t.mem = 0 := by
    have hbudget := hflat.budget
    have hcost : blockCost (128 * (1 + 2)) = 1 := rfl
    omega
  have hclear : fsBit t.mem 0x7FDDE = false := by
    rw [hflat.marks _ le_rfl (by omega), htight.clear]
  have hwrite := overrun_write hflat.owned hfree hclear (by omega) hvacant
  have hend : extent (accesses 2 [.write 2 0 [0]]) = 1 := rfl
  have hsize : fileSize (overrunMem t.mem 2) 2 = 0 := by
    refine Mem.load_eq_zero fun x hx hx' => ?_
    rw [INode.fSize_eq] at hx hx'
    exact overrunMem_of_mem (by omega) (by omega) (by rw [INode.directBlkNo_eq]; omega)
  refine ⟨_, fileRun_of_write hrun hmake hflat hwrite, hsize, hend, fun hrefines => ?_⟩
  have hwrong := hrefines.size_eq
  rw [mem_withMem, hsize, hend] at hwrong
  exact absurd hwrong (by decide)

end ParchTestbench
