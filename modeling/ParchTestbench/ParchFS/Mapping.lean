import ParchTestbench.ParchFS.FileContents

/-!
# ParchFS: which blocks of a file are mapped

Below the double-indirect range the size of a file decides which blocks it has: those up to
the one of its end.  In the double-indirect range the allocation loop leaves its scan at a
fresh entry past the offset only, so the block behind the end is mapped as well.

Main results:

- Theorem `Tight.run`: a file that ends below the double-indirect range has no block number
  but those that its end needs.
- Theorem `mappedBySize_iff`: the blocks of a file are those up to its size exactly when every
  access ended below the double-indirect range.
-/

namespace ParchTestbench

open ParchFS Program
open WriteLog (extent)

variable {lo hi last i off k n : Nat} {base s t u : ParchFS} {op : Op} {ops : List Op} {env : Env}
  {ws : WriteLog} {buf : List UInt8} {σ : Slot} {T : Finset Slot}

/-! ## No block without need -/

/-- Below the double-indirect range a file has no block number but those that its end
needs. -/
def Tight (i : Nat) (ws : WriteLog) (s : ParchFS) : Prop :=
  extent ws < 4259840 → ∀ σ : Slot, σ.Valid → slotVal s.mem i σ ≠ 0 →
    ws ≠ [] ∧ σ ∈ neededSlots (extent ws)

/-- A file that holds its log is covered up to its end. -/
theorem HoldsFile.covered (h : HoldsFile i ws s) (hne : ws ≠ []) (hlt : extent ws < 4259840) :
    Covered s.mem i (extent ws) where
  off_lt := hlt
  off_le := h.size_eq.ge
  filled := filled_of_mapped hlt (h.mapped hne)

namespace Tight

theorem congr (h : Tight i ws s)
    (hslots : ∀ σ : Slot, σ.Valid → slotVal t.mem i σ = slotVal s.mem i σ) : Tight i ws t := by
  intro hlt σ hσ hv
  rw [hslots σ hσ] at hv
  exact h hlt σ hσ hv

/-- An access inside the file needs no further block. -/
theorem inside (h : Tight i ws s) (hle : off + buf.length ≤ extent ws) :
    Tight i (ws ++ [(off, buf)]) s := by
  intro hlt σ hσ hv
  have hextent : extent (ws ++ [(off, buf)]) = extent ws := by
    rw [WriteLog.extent_concat]
    exact max_eq_left hle
  rw [hextent] at hlt ⊢
  exact ⟨List.append_ne_nil_of_right_ne_nil _ (List.cons_ne_nil _ _), (h hlt σ hσ hv).2⟩

/-- Filling the slots that the end of an access needs keeps the file tight. -/
theorem fills (h : Tight i ws s)
    (ht : Fills lo hi last i n (neededSlots (off + buf.length)) s t) :
    Tight i (ws ++ [(off, buf)]) t := by
  intro hlt σ hσ hv
  rw [WriteLog.extent_concat] at hlt ⊢
  refine ⟨List.append_ne_nil_of_right_ne_nil _ (List.cons_ne_nil _ _), ?_⟩
  by_cases hin : σ ∈ neededSlots (off + buf.length)
  · exact neededSlots_mono (le_max_right _ _) hin
  · rw [ht.others σ hσ hin] at hv
    exact neededSlots_mono (le_max_left _ _) (h ((le_max_left _ _).trans_lt hlt) σ hσ hv).2

/-- A call of `get_blkno` that returns keeps the file tight. -/
theorem getBlkno {b : Nat} (h : Tight i ws s) (hown : Ownership lo hi last s)
    (hclosed : Closed hi s.mem) (hi' : i ≤ last)
    (hrun : INode.getBlkno i off true s = .ok (b, t)) : Tight i (ws ++ [(off, [])]) t := by
  by_cases hlt : off < 4259840
  · have ht := (getBlkno_outcome_of_lt hown hi' hlt (Or.inl hclosed)).of_ok hrun
    exact h.fills ht.1
  · intro hend
    rw [WriteLog.extent_concat] at hend
    exact absurd ((le_max_right _ _).trans_lt hend) hlt

/-- A call of `write` that returns keeps the file tight. -/
theorem write (h : Tight i ws s) (hfile : HoldsFile i ws s) (hown : Ownership lo hi last s)
    (hclosed : Closed hi s.mem) (hi' : i ≤ last)
    (hrun : INode.write i off buf s = .ok ((), t)) : Tight i (ws ++ [(off, buf)]) t := by
  by_cases hlt : extent (ws ++ [(off, buf)]) < 4259840
  swap
  · exact fun hend => absurd hend hlt
  rw [WriteLog.extent_concat, Nat.max_lt] at hlt
  obtain ⟨hws, hend⟩ := hlt
  rcases Nat.lt_or_ge (off + buf.length) (extent ws) with hin | hout
  · -- the range ends inside the file: nothing is allocated
    have hne : ws ≠ [] := fun hnil => by
      rw [hnil, WriteLog.extent_nil] at hin
      omega
    have ht := (write_covered hown hi' ((hfile.covered hne hws).mono hin.le)).of_ok hrun
    exact (h.inside hin.le).congr fun σ hσ => ht.slots_eq i hi' σ hσ
  · have hsize : fileSize s.mem i ≤ off + buf.length := by
      rw [hfile.size_eq]
      exact hout
    obtain ⟨v, hv, ht⟩ :=
      (write_outcome_of_lt hown hi' hend hsize (Or.inl hclosed)).of_ok hrun
    exact (h.fills hv).congr fun σ hσ => ht.slots_eq i hi' σ hσ

/-- One call keeps the file tight. -/
theorem step (h : Tight i ws s) (hfile : HoldsFile i ws s) (hs : Healthy lo hi last base s)
    (hroot : 0 < last) (hlast : last + op.added < 8192) (hi' : i ≤ last)
    (heff : op.Effect lo hi last s t) (hrun : op.exec s = .ok ((), t)) :
    Tight i (ws ++ op.accesses i) t := by
  have hown := hs.owned
  have hlt := hown.last_lt
  by_cases hne : i ≠ op.subject
  · rw [Op.accesses_of_ne hne, List.append_nil]
    exact h.congr fun σ hσ => heff.slots hlast hi' hne hσ
  rw [not_not] at hne
  rcases hfile.access_of_subject hs hroot hlast hi' heff hrun hne with ⟨off, buf, rfl⟩ | ⟨off, rfl⟩
  · obtain ⟨-, hwrite⟩ := Op.getInode_bind_ok hown (by omega) hrun
    rw [Op.accesses, if_pos rfl]
    exact h.write hfile hown hs.closed hi' hwrite
  · obtain ⟨-, hdrop⟩ := Op.getInode_bind_ok hown (by omega) hrun
    obtain ⟨b, hcall⟩ := Op.exists_of_drop hdrop
    rw [Op.accesses, if_pos rfl]
    exact h.getBlkno hown hs.closed hi' hcall

/-- A run keeps the file tight. -/
theorem run (h : Tight i ws s) (hfile : HoldsFile i ws s) (hs : Healthy lo hi last base s)
    (hroot : 0 < last) (hi' : i ≤ last) (hops : Admissible last [] ops)
    (hrun : runAll Op.exec ops s = .ok ((), u)) : Tight i (ws ++ accesses i ops) u := by
  refine (run_induct (I := fun done t => HoldsFile i (ws ++ accesses i done) t ∧
    Tight i (ws ++ accesses i done) t) hs hroot ?_ ?_ hops hrun).2.2
  · rw [accesses_nil, List.append_nil]
    exact ⟨hfile, h⟩
  · intro done op v w hv hroom _ hexec heff hI
    rw [accesses_concat, ← List.append_assoc]
    exact ⟨hI.1.step hv (by omega) hroom (by omega) heff hexec,
      hI.2.step hI.1 hv (by omega) hroom (by omega) heff hexec⟩

end Tight

/-! ## Allocation by size -/

/-- The size of file `i` decides its blocks: those up to the one of its end are mapped, and a
call of `get_blkno` inside the file returns the number that is there and changes nothing. -/
structure MappedBySize (i : Nat) (u : ParchFS) : Prop where
  mapped_iff : ∀ k, k < 1049616 → (fileBlk u.mem i k ≠ 0 ↔ k ≤ fileSize u.mem i / 4096)
  again : ∀ off, off ≤ fileSize u.mem i →
    INode.getBlkno i off true u = .ok (fileBlk u.mem i (off / 4096), u)

/-- A tight file that ends below the double-indirect range is mapped by its size. -/
theorem HoldsFile.mappedBySize (h : HoldsFile i ws u) (htight : Tight i ws u) (hne : ws ≠ [])
    (hown : Ownership lo hi last u) (hi' : i ≤ last) (hlt : extent ws < 4259840) :
    MappedBySize i u := by
  refine ⟨fun k hk => ⟨fun hv => ?_, fun hle => ?_⟩, fun off hle => ?_⟩
  · rw [h.size_eq]
    exact (dataSlot_mem_neededSlots hlt).mp (htight hlt _ (dataSlot_valid hk) hv).2
  · rw [h.size_eq] at hle
    exact h.mapped hne k hle
  · rw [h.size_eq] at hle
    exact getBlkno_covered hown hi' ((h.covered hne hlt).mono hle)

/-- From the double-indirect range on the block behind the end is mapped. -/
theorem HoldsFile.mapped_behind_end (h : HoldsFile i ws u) (hge : 4259840 ≤ extent ws) :
    ¬ MappedBySize i u := by
  intro hmapped
  have hlt := h.extent_lt
  have hle := (hmapped.mapped_iff (extent ws / 4096 + 1) (by omega)).mp (h.beyond hge)
  rw [h.size_eq] at hle
  omega

section Runs

variable {bin : MMAPBinContent} {lines : List (List Char)} {syms : Symbols} {post : List Op}

/-- In every run on a volume with a marked reserve the blocks of a file are those up to its
size exactly when every access ended below the double-indirect range. -/
theorem mappedBySize_iff (hread : Symbols.read env lines = .ok syms)
    (hreserve : reserveStart (ofSymbols bin syms) ≤ 0x7FDDE)
    (h : FileRun env bin lines i post u) (hne : accesses i post ≠ []) :
    MappedBySize i u ↔ ∀ a ∈ accesses i post, a.1 + a.2.length < 4259840 := by
  obtain ⟨lo, hi, last, base, v, hnew, hroot, hi', hempty, hslots, hops, hpost⟩ :=
    h.exists_new hread hreserve
  have htight : Tight i [] v := fun _ σ hσ hv => absurd (hslots σ hσ) hv
  have hfile := hempty.run hnew hroot hi' hops hpost
  have hafter := htight.run hempty hnew hroot hi' hops hpost
  have hown := (run_healthy hnew hroot hops hpost).owned
  rw [List.nil_append] at hfile hafter
  have hends : extent (accesses i post) < 4259840 ↔
      ∀ a ∈ accesses i post, a.1 + a.2.length < 4259840 := by
    simp only [← Nat.le_pred_iff_lt (show 0 < 4259840 by omega), WriteLog.extent_le_iff]
  rw [← hends]
  constructor
  · intro hmapped
    by_contra hge
    exact hfile.mapped_behind_end (Nat.le_of_not_lt hge) hmapped
  · exact hfile.mappedBySize hafter hne hown (by omega)

end Runs

theorem mappedBySize_iff_sample : ∃ u,
    FileRun blankEnv blankImage sampleLines 2 sampleWrites u ∧
      (MappedBySize 2 u ↔
        ∀ a ∈ accesses 2 sampleWrites, a.1 + a.2.length < 4259840) := by
  obtain ⟨u, h⟩ := exists_sampleWrites
  exact ⟨u, h, mappedBySize_iff sample_read (by decide) h (List.cons_ne_nil _ _)⟩

/-! ## The first offset of the double-indirect range -/

/-- Filling `T` takes at most as many blocks as `T` has slots. -/
theorem Fills.free_le (h : Fills lo hi last i n T s t) :
    freeCount hi s.mem ≤ freeCount hi t.mem + T.card := by
  have hcount := h.count
  have hle : emptySlots s.mem i T ≤ T.card := Finset.card_filter_le _ _
  omega

/-- With free blocks the guarded step fills its slot. -/
theorem allocIfBad_fills (h : Ownership lo hi last s) (hi' : i ≤ last) (hσ : σ.Valid)
    (hlive : Live s.mem i σ) (hfree : 1 ≤ freeCount hi s.mem) :
    Outcome (INode.allocIfBad (slotAddr s.mem i σ)) s
      (fun _ t => Fills lo hi last i (fileSize s.mem i) {σ} s t) (fun _ => False) := by
  have hle : emptySlots s.mem i {σ} ≤ 1 := Finset.card_filter_le _ _
  refine (allocIfBad_outcome h hi' hσ hlive (Or.inr (hle.trans hfree))).mono (fun _ _ ht => ht)
    fun e he => ?_
  have hlt := he.2
  omega

/-- At the first offset of the double-indirect range the scan of an empty index block fills
two entries: the capacity of the first one is not beyond the offset. -/
theorem fillIndirect2Block_first {blks : Nat} (h : Ownership lo hi last s) (hi' : i ≤ last)
    (hindex : slotVal s.mem i (indexSlot 0) ≠ 0)
    (hblks : blks = 4096 * slotVal s.mem i (indexSlot 0))
    (hzero : slotVal s.mem i (.entry (indexSlot 0) 0) = 0)
    (hone : slotVal s.mem i (.entry (indexSlot 0) 1) = 0) (hfree : 2 ≤ freeCount hi s.mem) :
    Outcome (INode.fillIndirect2Block 0 0 blks blknoPerBlk) s
      (fun done t => done = true ∧ Fills lo hi last i (fileSize s.mem i)
        ({.entry (indexSlot 0) 0} ∪ {.entry (indexSlot 0) 1}) s t) (fun _ => False) := by
  have hvalid : ∀ l, l < 1024 → (Slot.entry (indexSlot 0) l).Valid := fun l hl =>
    entry_indexSlot_valid (by omega) hl
  have hsingle : ∀ l, l < 1024 → ∀ σ ∈ ({.entry (indexSlot 0) l} : Finset Slot), σ.Valid :=
    fun l hl σ hσ => by
      rw [Finset.mem_singleton.mp hσ]
      exact hvalid l hl
  refine fillIndirect2Block_step (j := 0) h hi' (by omega) hindex hblks rfl (Or.inr (by omega))
    ?_ (fun hne => absurd hzero hne) fun e he => by have hlt := he.2; omega
  intro _ t ht
  rw [if_neg (show ¬ INode.i2Cap 0 0 > 0 from by decide)]
  have hkeep := ht.grows.keep hi' (indexSlot_valid (show 0 < 1024 by omega)) hindex
  have hone' : slotVal t.mem i (.entry (indexSlot 0) 1) = 0 := by
    rw [ht.others _ (hvalid 1 (by omega)) (by simp), hone]
  have hfree' := ht.free_le
  rw [Finset.card_singleton] at hfree'
  refine fillIndirect2Block_step (j := 1) ht.owned hi' (by omega) (by rwa [hkeep])
    (by rw [hkeep, hblks]) rfl (Or.inr (by omega)) ?_ (fun hne => absurd hone' hne)
    fun e he => by have hlt := he.2; omega
  intro _ u hu
  rw [if_pos (show INode.i2Cap 0 1 > 0 from by decide)]
  rw [ht.size] at hu
  exact Outcome.pure ⟨rfl, ht.trans hu (hsingle 0 (by omega)) (hsingle 1 (by omega)) le_rfl le_rfl⟩

/-- On an inode without double-indirect blocks the call for the first offset of that range
returns when four blocks are free. -/
theorem getBlknoIndirect2_first (h : Ownership lo hi last s) (hi' : i ≤ last)
    (hempty : ∀ l, l < 2 → slotVal s.mem i (.entry (indexSlot 0) l) = 0)
    (hfree : 4 ≤ freeCount hi s.mem) :
    Outcome (INode.getBlknoIndirect2 i 0 true) s (fun _ _ => True) (fun _ => False) := by
  have hlast := h.last_lt
  have hfield := field_valid (show 17 < 18 by omega)
  have hslot := indexSlot_valid (show 0 < 1024 by omega)
  unfold INode.getBlknoIndirect2
  rw [onlyIf_pos rfl]
  refine Outcome.bind (Outcome.bind ((allocIfBad_fills (σ := .field 17) h hi' hfield trivial
    (by omega)).mono ?_ fun _ he => he))
  intro _ t ht
  have hbase := ht.filled (.field 17) (Finset.mem_singleton_self _)
  have hmapped := ht.owned.mapped_ge
  have hfree' := ht.free_le
  rw [Finset.card_singleton] at hfree'
  have hload : load (INode.indirectBlk2 i) 4 t = .ok (slotVal t.mem i (.field 17), t) :=
    load_eq (by rw [INode.indirectBlk2_eq]; omega)
  refine Outcome.bind_ok hload ?_
  refine Outcome.bind_ok (ht.owned.getBlk_slotVal hi' hfield hbase) ?_
  -- the first index block
  have hfuel : 2 ^ 31 = (2 ^ 31 - 1) + 1 := by norm_num
  rw [hfuel, INode.fillIndirect2]
  rw [show 4096 * slotVal t.mem i (.field 17) + 4 * 0 = slotAddr t.mem i (indexSlot 0) from rfl]
  refine Outcome.bind ((allocIfBad_fills ht.owned hi' hslot hbase (by omega)).mono ?_
    fun _ he => he)
  intro _ u hu
  have hv : slotVal u.mem i (indexSlot 0) ≠ 0 := hu.filled _ (Finset.mem_singleton_self _)
  have hkeep := hu.grows.keep hi' hfield hbase
  have haddr : slotAddr t.mem i (indexSlot 0) = slotAddr u.mem i (indexSlot 0) := by
    simp only [slotAddr, hkeep]
  have hle := hu.owned.slotAddr_le hi' hslot (live_of_slotVal_ne_zero hv)
  have hmapped' := hu.owned.mapped_ge
  have hfree'' := hu.free_le
  rw [Finset.card_singleton] at hfree''
  rw [haddr]
  refine Outcome.bind_ok (load_eq (by omega)) ?_
  rw [load_slotAddr (live_of_slotVal_ne_zero hv)]
  refine Outcome.bind_ok (hu.owned.getBlk_slotVal hi' hslot hv) ?_
  have hzero : ∀ l, l < 2 → slotVal u.mem i (.entry (indexSlot 0) l) = 0 := fun l hl => by
    have hentry := entry_indexSlot_valid (show 0 < 1024 by omega) (show l < 1024 by omega)
    rw [hu.others _ hentry (by simp), ht.others _ hentry (by simp), hempty l hl]
  refine Outcome.bind ((fillIndirect2Block_first hu.owned hi' hv rfl (hzero 0 (by omega))
    (hzero 1 (by omega)) (by omega)).mono ?_ fun _ he => he)
  rintro _ v ⟨rfl, hw⟩
  rw [onlyIf_neg (by simp)]
  refine Outcome.pure ?_
  have hblk : fileBlk v.mem i (1040 + 0 / 4096) ≠ 0 := by
    rw [fileBlk_double]
    exact hw.filled _ (Finset.mem_union_left _ (Finset.mem_singleton_self _))
  rw [if_pos (by decide)]
  exact Outcome.of_eq_ok (loadDouble_eq hw.owned hi' (by omega) hblk) trivial

theorem double_notMem_direct : Slot.entry (indexSlot k) n ∉ firstSlots .field off := by
  intro hσ
  obtain ⟨_, -, heq⟩ := mem_firstSlots.mp hσ
  cases heq

theorem double_notMem_indirect :
    Slot.entry (indexSlot k) n ∉ {.field 16} ∪ firstSlots (.entry (.field 16)) off := by
  intro hσ
  rcases Finset.mem_union.mp hσ with hone | hentry
  · cases Finset.mem_singleton.mp hone
  · obtain ⟨_, -, heq⟩ := mem_firstSlots.mp hentry
    cases heq

/-- On an empty inode the call for offset 4259840 returns when 1045 blocks are free. -/
theorem getBlkno_first (h : Ownership lo hi last s) (hi' : i ≤ last) (hoff : off = 4259840)
    (hempty : ∀ σ : Slot, σ.Valid → slotVal s.mem i σ = 0) (hfree : 1045 ≤ freeCount hi s.mem) :
    ∃ b t, INode.getBlkno i off true s = .ok (b, t) := by
  have hfield := field_valid (show 16 < 18 by omega)
  have hcost : ∀ m T, emptySlots m i T ≤ T.card := fun m T => Finset.card_filter_le _ _
  obtain ⟨D, hD⟩ : ∃ D, D = firstSlots Slot.field (min 16 (off / 4096 + 1)) := ⟨_, rfl⟩
  obtain ⟨J, hJ⟩ : ∃ J, J = {.field 16} ∪ firstSlots (.entry (.field 16)) 1024 := ⟨_, rfl⟩
  have hdirect : D.card ≤ 16 := by
    rw [hD, firstSlots]
    exact Finset.card_image_le.trans (by rw [Finset.card_range]; omega)
  have hindirect : J.card ≤ 1025 := by
    rw [hJ]
    refine (Finset.card_union_le _ _).trans ?_
    rw [Finset.card_singleton, firstSlots]
    have hle := Finset.card_image_le (s := Finset.range 1024) (f := Slot.entry (.field 16))
    rw [Finset.card_range] at hle
    omega
  have hcall : Outcome (INode.getBlkno i off true) s (fun _ _ => True) (fun _ => False) := by
    refine growDirect_outcome h hi' (by omega) (Or.inr ?_) ?_ fun e he => ?_
    · rw [← hD]
      exact (hcost _ _).trans (hdirect.trans (by omega))
    · intro t ht
      rw [← hD] at ht
      have hfree' := ht.free_le
      have hmin : min blknoPerBlk ((off - blkSize * directBlkCount) / blkSize + 1) = 1024 := by
        simp only [blknoPerBlk, blkSize, directBlkCount]
        omega
      rw [if_neg (by simp only [blkSize, directBlkCount]; omega)]
      unfold INode.getBlknoIndirect
      rw [onlyIf_pos rfl, hmin]
      have hfill := fillIndex_outcome (p := .field 16) ht.owned hi' hfield (Or.inl rfl) trivial
        (le_refl 1024) (Or.inr (by rw [← hJ]; exact (hcost _ _).trans (by omega)))
      rw [← hJ] at hfill
      refine Outcome.bind (hfill.mono ?_ fun e he => ?_)
      · intro _ u hu
        have hfree'' := hu.free_le
        have hzero : ∀ l, l < 2 → slotVal u.mem i (.entry (indexSlot 0) l) = 0 := fun l hl => by
          have hentry := entry_indexSlot_valid (show 0 < 1024 by omega) (show l < 1024 by omega)
          rw [hu.others _ hentry (by rw [hJ]; exact double_notMem_indirect),
            ht.others _ hentry (by rw [hD]; exact double_notMem_direct), hempty _ hentry]
        rw [if_neg (by simp only [blkSize, directBlkCount, blknoPerBlk]; omega)]
        have hrest : off - blkSize * directBlkCount - blkSize * blknoPerBlk = 0 := by
          simp only [blkSize, directBlkCount, blknoPerBlk]
          omega
        rw [hrest]
        exact getBlknoIndirect2_first hu.owned hi' hzero (by omega)
      · have hlt := he.2
        have hle := hcost t.mem J
        omega
    · rw [← hD] at he
      have hlt := he.2
      have hle := hcost s.mem D
      omega
  obtain ⟨b, t, hrun, -⟩ := hcall.exists_ok
  exact ⟨b, t, hrun⟩

/-- The first call of `get_blkno` on a file is for the first offset of the double-indirect
range: it returns, and the block behind the one of the offset is mapped. -/
theorem not_mappedBySize : ∃ u,
    FileRun blankEnv blankImage sampleLines 2 [.getBlkno 2 4259840] u ∧
      fileSize u.mem 2 = 4259840 ∧ fileBlk u.mem 2 1041 ≠ 0 ∧ ¬ MappedBySize 2 u := by
  obtain ⟨s, hrun, hsample⟩ := exists_sampleVolume
  obtain ⟨t, hmake, hflat, hvacant⟩ := hsample.flat.exists_first (by decide)
  have hfree : 1045 ≤ freeCount 0x7FDDD t.mem := by
    have hbudget := hflat.budget
    have hcost : blockCost (128 * (1 + 2)) = 1 := rfl
    omega
  obtain ⟨off, hoff⟩ : ∃ off, off = 4259840 := ⟨_, rfl⟩
  obtain ⟨b, u, hcall⟩ := getBlkno_first hflat.owned (by omega) hoff hvacant.slots hfree
  have hget := getInode_eq hflat.owned.mapped_ge (show 2 < 32768 by omega)
    ((hflat.owned.inodeBit_iff _ (by omega)).mpr le_rfl)
  have hexec : (Op.getBlkno 2 off).exec t = .ok ((), u) :=
    (bind_eq_ok hget).trans ((bind_eq_ok hcall).trans rfl)
  have hfileRun : FileRun blankEnv blankImage sampleLines 2 [.getBlkno 2 off] u :=
    fileRun_of_call hrun hmake ⟨show 2 < 8192 by omega, show off < 2 ^ 64 by omega⟩ rfl hexec
  obtain ⟨lo, hi, last, base, hhealthy, hi', hfile⟩ := hfileRun.holdsFile sample_read (by decide)
  have hextent : extent (accesses 2 [.getBlkno 2 off]) = off := Nat.zero_max off
  have hbeyond := hfile.beyond (by omega)
  rw [hextent, show off / 4096 + 1 = 1041 by omega] at hbeyond
  have hsize := hfile.size_eq
  rw [hextent, hoff] at hsize
  rw [← hoff]
  exact ⟨u, hfileRun, hsize.trans hoff.symm, hbeyond, hfile.mapped_behind_end (by omega)⟩

end ParchTestbench
