import ParchTestbench.ParchFS.Exhaustion
import ParchTestbench.ParchFS.TightLayout

/-!
# ParchFS: the outer loop over the index blocks

The double-indirect loop of `get_blkno` has no bound on its index: it runs until it has
allocated a block behind the offset.  On a volume whose blocks are owned the blocks that it
passes are distinct, and there are fewer than 512 times 1024 of them.

Main results:

- Theorem `Healthy.staysInside`: the loop ends and keeps to the blocks of the inode.
- Theorem `getBlkno_staysInside`: after every run on a volume with a marked reserve.
- Theorem `not_staysInside`: a run on a layout without it after which the index reaches 1024.
-/

namespace ParchTestbench

open ParchFS Program

variable {lo hi last i off blks k : Nat} {base s t u : ParchFS} {env : Env}

/-! ## The passes of the loop -/

/-- In the call of `get_blkno` for offset `off` of inode `i` in state `s`, pass `k` of the loop
over the index block at `blks` starts in state `t`. -/
def LoopPass (i off : Nat) (s : ParchFS) (blks k : Nat) (t : ParchFS) : Prop :=
  INode.indirect2Start ≤ off ∧ ∃ r, INode.toIndirect2 i off true s = .ok (blks, r) ∧
    Pass (INode.indirect2Pass (off - INode.indirect2Start) blks) r k t

/-- `b` is the number of a block in the tree of inode `i`. -/
def Belongs (m : Mem) (i b : Nat) : Prop := b ≠ 0 ∧ ∃ σ : Slot, σ.Valid ∧ slotVal m i σ = b

/-- A call of `get_blkno` with `create` returns or panics, and its loop keeps to the index
blocks of the inode. -/
structure StaysInside (i off : Nat) (s : ParchFS) : Prop where
  ends : (∃ b t, INode.getBlkno i off true s = .ok (b, t)) ∨
    ∃ message, INode.getBlkno i off true s = .error (.panic message)
  array : ∀ blks k t, LoopPass i off s blks k t → ∃ b, blks = blkSize * b ∧ Belongs t.mem i b
  index : ∀ blks k t, LoopPass i off s blks k t → k < blknoPerBlk
  tree : ∀ blks k t b u, LoopPass i off s blks k t →
    INode.indirect2Entry blks k t = .ok (b, u) → Belongs u.mem i b

/-! ## Owned blocks -/

/-- Every pass starts with the earlier index blocks full. -/
theorem LoopPass.looping (hp : LoopPass i off s blks k t) (h : Healthy lo hi last base s)
    (hi' : i ≤ last) (hoff : off < 2 ^ 64) : ∃ r, Looping lo hi last i blks r k t := by
  obtain ⟨hge, r, hto, hpass⟩ := hp
  obtain ⟨hstart, -⟩ := (toIndirect2_outcome h.owned h.closed hi' hoff hge).of_ok hto
  exact ⟨r, hpass.invariant hstart fun j v w hv hrun =>
    ((hv.pass_outcome hi' _).of_ok hrun).2.2 rfl⟩

/-- On a healthy volume the loop ends and keeps to the blocks of the inode. -/
theorem Healthy.staysInside (h : Healthy lo hi last base s) (hi' : i ≤ last)
    (hoff : off < 2 ^ 64) : StaysInside i off s where
  ends := by
    have hcall := getBlkno_outcome h.owned h.closed hi' hoff
    rcases hrun : INode.getBlkno i off true s with e | ⟨b, t⟩
    · exact Or.inr ⟨_, by rw [hcall.of_error hrun]; rfl⟩
    · exact Or.inl ⟨b, t, rfl⟩
  array blks k t hp := by
    obtain ⟨r, hloop⟩ := hp.looping h hi' hoff
    exact ⟨_, hloop.blks_eq, hloop.index, .field 17, field_valid (by omega), rfl⟩
  index blks k t hp := by
    obtain ⟨r, hloop⟩ := hp.looping h hi' hoff
    exact (hloop.index_lt hi').trans (by decide)
  tree blks k t b u hp hentry := by
    obtain ⟨r, hloop⟩ := hp.looping h hi' hoff
    have hk := hloop.index_lt hi'
    obtain ⟨-, hb, hne⟩ := (hloop.entry_outcome hi').of_ok hentry
    exact ⟨hne, indexSlot k, indexSlot_valid (by omega), hb.symm⟩

/-! ## Every run -/

section Runs

variable {bin : MMAPBinContent} {lines : List (List Char)} {syms : Symbols} {ops : List Op}

/-- After every run on a volume with a marked reserve, every call on an inode in use ends, and
its loop keeps to the blocks of the inode. -/
theorem getBlkno_staysInside (hread : Symbols.read env lines = .ok syms)
    (hrun : construct env bin lines = .ok s)
    (hreserve : reserveStart (ofSymbols bin syms) ≤ 0x7FDDE) (hops : Admissible 1 [] ops)
    (hcalls : runAll Op.exec ops s = .ok ((), u)) (hi : i < 32768)
    (hbit : inodeBit u.mem i = true) (hoff : off < 2 ^ 64) : StaysInside i off u := by
  have hstart := healthy_of_init (init_of_construct hread hrun) hreserve
  have hend := run_healthy hstart (by omega) hops hcalls
  exact hend.staysInside ((hend.owned.inodeBit_iff i hi).mp hbit) hoff

theorem getBlkno_staysInside_sample : ∃ s, construct blankEnv blankImage sampleLines = .ok s ∧
    StaysInside 1 4259840 s := by
  obtain ⟨s, hrun⟩ := exists_sample
  have hstart := healthy_of_init (init_of_construct sample_read hrun) (by decide)
  have hnone : Admissible 1 [] [] := ⟨fun op hop => absurd hop List.not_mem_nil, by decide⟩
  exact ⟨s, hrun, getBlkno_staysInside sample_read hrun (by decide) hnone rfl (by omega)
    ((hstart.owned.inodeBit_iff 1 (by omega)).mpr le_rfl) (by omega)⟩

end Runs

/-! ## A page full of its own number -/

/-- Every word of the first page of the inode table is the number of this page, which is
marked. -/
structure SelfPage (s : ParchFS) : Prop where
  mapped : 0x80000000 ≤ s.mapped
  fs : fsBit s.mem 0x7FDDE = true
  mm : mmBit s.mem 0x7FDDE = true
  words : ∀ k, k < 1024 → s.mem.load (0x7FDDE000 + 4 * k) 4 = 0x7FDDE

namespace SelfPage

theorem load_eq (h : SelfPage s) (hk : k < 1024) :
    load (0x7FDDE000 + 4 * k) 4 s = .ok (0x7FDDE, s) := by
  have hmapped := h.mapped
  rw [ParchFS.load_eq (by omega), h.words k hk]

theorem getBlk_eq (h : SelfPage s) : getBlk 0x7FDDE s = .ok (0x7FDDE000, s) :=
  ParchTestbench.getBlk_eq h.mapped (by omega) h.fs h.mm

/-- No entry is bad. -/
theorem allocIfBad_eq (h : SelfPage s) {a : Nat} (ha : a = 0x7FDDE000 + 4 * k) (hk : k < 1024) :
    INode.allocIfBad a s = .ok ((), s) := by
  unfold INode.allocIfBad
  rw [ha, bind_eq_ok (h.load_eq hk), onlyIf_neg (by decide)]
  rfl

theorem forUpTo_eq (h : SelfPage s) {n j : Nat} {a : Nat → Nat}
    (ha : ∀ k, k < n → a k = 0x7FDDE000 + 4 * (j + k)) (hn : j + n ≤ 1024) :
    forUpTo n (fun k => INode.allocIfBad (a k)) s = .ok ((), s) := by
  induction n with
  | zero => rfl
  | succ n ih =>
      have hfirst := ih (fun k hk => ha k (by omega)) (by omega)
      show (forUpTo n (fun k => INode.allocIfBad (a k)) >>= fun _ => INode.allocIfBad (a n)) s = _
      rw [bind_eq_ok hfirst]
      exact h.allocIfBad_eq (ha n (by omega)) (by omega)

/-- The inner loop passes over the page. -/
theorem fillIndirect2Block_eq (h : SelfPage s) {fuel : Nat} (hfuel : fuel ≤ 1024) :
    INode.fillIndirect2Block off k 0x7FDDE000 fuel s = .ok (false, s) := by
  induction fuel with
  | zero => rfl
  | succ fuel ih =>
      unfold INode.fillIndirect2Block
      rw [bind_eq_ok (h.load_eq (by unfold blknoPerBlk; omega)),
        if_neg (show ¬ 0x7FDDE = badBlock by decide)]
      exact ih (by omega)

/-- A pass over one of its entries does nothing. -/
theorem indirect2Pass_eq (h : SelfPage s) (hk : k < 1024) :
    INode.indirect2Pass off 0x7FDDE000 k s = .ok (false, s) := by
  have hentry : INode.indirect2Entry 0x7FDDE000 k s = .ok (0x7FDDE, s) := by
    unfold INode.indirect2Entry
    rw [bind_eq_ok (h.allocIfBad_eq rfl hk), h.load_eq hk]
  unfold INode.indirect2Pass
  rw [bind_eq_ok hentry, bind_eq_ok h.getBlk_eq]
  exact h.fillIndirect2Block_eq le_rfl

theorem pass (h : SelfPage s) (hk : k ≤ 1024) :
    Pass (INode.indirect2Pass off 0x7FDDE000) s k s := by
  induction k with
  | zero => exact .start
  | succ k ih => exact .next (ih (by omega)) (h.indirect2Pass_eq (by omega))

/-- The size of inode 2 is made of two words of the page. -/
theorem size_ge (h : SelfPage s) : 4259840 ≤ fileSize s.mem 2 := by
  have hhigh := h.words 153 (by omega)
  rw [show 0x7FDDE000 + 4 * 153 = 0x7FDDE000 + 512 + 96 + 1 + 1 + 1 + 1 from rfl] at hhigh
  unfold fileSize
  rw [INode.fSize_eq, show 0x7FDDE000 + 256 * 2 + 96 = 0x7FDDE000 + 512 + 96 from rfl]
  simp only [Mem.load] at hhigh ⊢
  omega

/-- On inode 2 the steps in front of the loop find everything in place. -/
theorem toIndirect2_eq (h : SelfPage s) :
    INode.toIndirect2 2 4259840 true s = .ok (0x7FDDE000, s) := by
  have hmapped := h.mapped
  have hsize : load (INode.fSize 2) 8 s = .ok (fileSize s.mem 2, s) :=
    ParchFS.load_eq (by rw [INode.fSize_eq]; omega)
  have hdirect : forUpTo (min directBlkCount (4259840 / blkSize + 1))
      (fun k => INode.allocIfBad (INode.directBlkNo 2 k)) s = .ok ((), s) :=
    h.forUpTo_eq (j := 133) (fun k _ => by rw [INode.directBlkNo_eq]; omega) (by decide)
  have hindirect : INode.indirectBlk 2 = 0x7FDDE000 + 4 * 149 := by
    unfold INode.indirectBlk
    rw [INode.addr_eq]
  have hindirect2 : INode.indirectBlk2 2 = 0x7FDDE000 + 4 * 150 := INode.indirectBlk2_eq 2
  have hentries : forUpTo (min blknoPerBlk ((4259840 - blkSize * directBlkCount) / blkSize + 1))
      (fun k => INode.allocIfBad (0x7FDDE000 + 4 * k)) s = .ok ((), s) :=
    h.forUpTo_eq (j := 0) (fun k _ => by rw [Nat.zero_add]) (by decide)
  unfold INode.toIndirect2
  rw [bind_eq_ok hsize, onlyIf_bind_neg (fun hc => absurd hc.2 (Nat.not_lt.mpr h.size_ge)),
    bind_eq_ok hsize, bind_eq_ok (assert_eq h.size_ge), onlyIf_pos rfl, bind_eq_ok hdirect,
    onlyIf_pos rfl, onlyIf_pos rfl, hindirect, hindirect2]
  rw [bind_eq_ok (by
    rw [bind_eq_ok (h.allocIfBad_eq rfl (by omega)), bind_eq_ok (h.load_eq (by omega)),
      bind_eq_ok h.getBlk_eq, hentries])]
  rw [bind_eq_ok (h.allocIfBad_eq rfl (by omega)), bind_eq_ok (h.load_eq (by omega)),
    h.getBlk_eq]

/-- The loop of a call on inode 2 comes to index 1024. -/
theorem loopPass (h : SelfPage s) : LoopPass 2 4259840 s 0x7FDDE000 1024 s :=
  ⟨le_rfl, s, h.toIndirect2_eq, h.pass le_rfl⟩

end SelfPage

/-- 4095 bytes that spell the number of the page over and over. -/
def pageNumbers : List UInt8 :=
  (List.range 4095).map fun k => UInt8.ofNat (0x7FDDE / 256 ^ (k % 4))

theorem length_pageNumbers : pageNumbers.length = 4095 := by
  rw [pageNumbers, List.length_map, List.length_range]

/-- The page after these bytes have been written to it. -/
theorem overwriteMem_pageNumbers {m : Mem} {x : Nat} (hx : 0x7FDDE000 ≤ x) (hx' : x < 0x7FDDF000) :
    overwriteMem m 2 pageNumbers x = UInt8.ofNat (0x7FDDE / 256 ^ ((x - 0x7FDDE000) % 4)) := by
  have hlen := length_pageNumbers
  unfold overwriteMem
  by_cases hlast : x = 0x7FDDEFFF
  · -- the last byte is that of the cleared block
    rw [Mem.copy_of_notMem (by omega), allocIntoMem_of_mem (by omega) (by omega)
      (by rw [INode.directBlkNo_eq]; omega), hlast]
    rfl
  · rw [Mem.copy_of_mem hx (by omega)]
    simp only [pageNumbers, List.getElem_map, List.getElem_range]

/-- Writing them to the empty file 2 fills the page with its own number. -/
theorem selfPage_overwriteMem (hmapped : 0x80000000 ≤ s.mapped) :
    SelfPage (s.withMem (overwriteMem s.mem 2 pageNumbers)) where
  mapped := by rwa [mapped_withMem]
  fs := by
    rw [mem_withMem, fsBit_overwriteMem (by omega) (by rw [length_pageNumbers]; omega) (by omega)]
    rfl
  mm := by
    rw [mem_withMem, mmBit_overwriteMem (by omega) (by rw [length_pageNumbers]; omega)]
  words k hk := by
    rw [mem_withMem]
    have hword : (s.mem.store (0x7FDDE000 + 4 * k) 4 0x7FDDE).load (0x7FDDE000 + 4 * k) 4 =
        0x7FDDE := Mem.load_store_of_lt (by omega)
    refine (Mem.load_congr fun x hx hx' => ?_).trans hword
    have hrem : (x - 0x7FDDE000) % 4 = x - (0x7FDDE000 + 4 * k) := by omega
    rw [overwriteMem_pageNumbers (by omega) (by omega), hrem]
    simp only [Mem.store]
    rw [if_pos ⟨hx, hx'⟩]

/-- On the layout with a pool of one block, a file of these bytes turns the first page of the
inode table into an index block without end: the loop comes to index 1024. -/
theorem not_staysInside : ∃ s u, construct blankEnv blankImage tightLines = .ok s ∧
    runAll Op.exec [.makeFile blankEnv rootInode [], .write 2 0 pageNumbers] s = .ok ((), u) ∧
      inodeBit u.mem 2 = true ∧ ¬ StaysInside 2 4259840 u := by
  obtain ⟨s, hrun, htight⟩ := exists_tight
  obtain ⟨t, hmake, hflat, hvacant⟩ := htight.flat.exists_first (by decide)
  have hlen := length_pageNumbers
  have hfree : freeCount 0x7FDDE t.mem = 0 := by
    have hbudget := hflat.budget
    have hcost : blockCost (128 * (1 + 2)) = 1 := rfl
    omega
  have hclear : fsBit t.mem 0x7FDDE = false := by
    rw [hflat.marks _ le_rfl (by omega), htight.clear]
  have hbit : inodeBit t.mem 2 = true := (hflat.owned.inodeBit_iff _ (by omega)).mpr le_rfl
  have hget := getInode_eq hflat.owned.mapped_ge (show 2 < 32768 by omega) hbit
  have hwrite : INode.write 2 0 pageNumbers t = _ :=
    overwrite hflat.owned hfree hclear (by omega) hvacant (by omega) (by omega)
  have hexec : (Op.write 2 0 pageNumbers).exec t =
      .ok ((), t.withMem (overwriteMem t.mem 2 pageNumbers)) := (bind_eq_ok hget).trans hwrite
  refine ⟨s, _, hrun, (bind_eq_ok (bind_eq_ok hmake)).trans ((bind_eq_ok hexec).trans rfl), ?_,
    fun hstays => ?_⟩
  · rw [mem_withMem, ← hbit]
    exact inodeBit_congr (by omega) fun x hx hx' => overwriteMem_of_notMem (by omega) (by omega)
      (by omega) (by omega) (by rw [INode.addr_eq]; omega) (by rw [INode.addr_eq]; omega)
  · have hpage := selfPage_overwriteMem hflat.owned.mapped_ge
    exact absurd (hstays.index _ _ _ hpage.loopPass) (by decide)

end ParchTestbench
