import ParchTestbench.ParchFS.PackedCalls
import ParchTestbench.ParchFS.FileContents
import Mathlib.Algebra.Order.BigOperators.Group.Finset

/-!
# ParchFS: the image is filled from the front

A volume in use is described by one number for each inode, that of its data blocks.  The
blocks of the pool that are in use are the first ones, as many as these files and their index
blocks take, and the bytes behind them are those of the image that was mapped.

Main results:

- Theorems `Sequential.takes` and `Sequential.spawned`: growth of one file and a new inode.
- Theorem `Op.sequential`: every call keeps the image sequential.
- Theorem `sequentialLayout`: so does every run of calls on a new volume.
-/

namespace ParchTestbench

open ParchFS Program
open SerialPlacement (Filled Increasing Placed)

variable {lo hi last i p k e : Nat} {base s t u : ParchFS} {env : Env} {n : Nat → Nat}
  {name : List UInt8} {err : Abort}

/-! ## Sequential volumes -/

/-- Inode `i` has `n i` data blocks, with block numbers that increase, and the blocks in use
are those up to the cursor `e`, behind which the memory is that of `base`. -/
structure Sequential (lo hi last : Nat) (base : ParchFS) (n : Nat → Nat) (e : Nat)
    (s : ParchFS) : Prop where
  owned : Ownership lo hi last s
  closed : Closed hi s.mem
  filled : ∀ i, i ≤ last → Filled Slot.rank Slot.Valid (blocksFor (n i)) (slotVal s.mem i)
  increasing : ∀ i, i ≤ last → Increasing Slot.rank Slot.Valid (slotVal s.mem i)
  bit_eq : ∀ b, b < hi → fsBit s.mem b = decide (b < e)
  le_hi : e ≤ hi
  cursor : e = lo + 1 + ∑ i ∈ Finset.range (last + 1), blocksFor (n i)
  untouched : ∀ x, 4096 * e ≤ x → x < 0x7FDDE000 → s.mem x = base.mem x

/-- One file of another size. -/
theorem sum_update {m : Nat} (hi' : i < m) :
    ∑ j ∈ Finset.range m, blocksFor (Function.update n i k j) + blocksFor (n i) =
      ∑ j ∈ Finset.range m, blocksFor (n j) + blocksFor k := by
  have hmem := Finset.mem_range.mpr hi'
  have hnew := Finset.add_sum_erase _ (fun j => blocksFor (Function.update n i k j)) hmem
  have hold := Finset.add_sum_erase _ (fun j => blocksFor (n j)) hmem
  have hrest : ∑ j ∈ (Finset.range m).erase i, blocksFor (Function.update n i k j) =
      ∑ j ∈ (Finset.range m).erase i, blocksFor (n j) :=
    Finset.sum_congr rfl fun j hj => by rw [Function.update_of_ne (Finset.ne_of_mem_erase hj)]
  rw [Function.update_self] at hnew
  omega

namespace Sequential

theorem packed (h : Sequential lo hi last base n e s) (hi' : i ≤ last) :
    Packed lo hi last i (blocksFor (n i)) e s where
  owned := h.owned
  closed := h.closed
  filled := h.filled i hi'
  bit_eq := h.bit_eq
  lo_lt := by
    have hcursor := h.cursor
    omega
  le_hi := h.le_hi

/-- A file that grows at the cursor. -/
theorem takes (h : Sequential lo hi last base n e s) (hi' : i ≤ last)
    (ht : Takes lo hi last i (blocksFor (n i)) (blocksFor k) e s t) :
    Sequential lo hi last base (Function.update n i k) (e + (blocksFor k - blocksFor (n i))) t := by
  have hpacked := h.packed hi'
  have hlo := hpacked.lo_lt
  have hle := ht.le
  have hother : ∀ j, j ≤ last → j ≠ i → ∀ σ : Slot, σ.Valid →
      slotVal t.mem j σ = slotVal s.mem j σ := fun j hj hne σ hσ =>
    ht.touches.slots j hj σ hσ (Or.inl hne)
  refine ⟨ht.packed.owned, ht.packed.closed, fun j hj => ?_, fun j hj => ?_, ht.packed.bit_eq,
    ht.packed.le_hi, ?_, fun x hx hx' => ?_⟩
  · by_cases hj' : j = i
    · rw [hj', Function.update_self]
      exact ht.packed.filled
    · rw [Function.update_of_ne hj']
      intro σ hσ
      rw [hother j hj hj' σ hσ]
      exact h.filled j hj σ hσ
  · by_cases hj' : j = i
    · rw [hj']
      exact ht.placed.increasing hpacked.filled (h.increasing i hi') fun σ hσ =>
        hpacked.slotVal_lt hi' hσ
    · intro σ τ hσ hτ
      rw [hother j hj hj' σ hσ, hother j hj hj' τ hτ]
      exact h.increasing j hj σ τ hσ hτ
  · have hsum := sum_update (n := n) (k := k) (show i < last + 1 by omega)
    have hcursor := h.cursor
    omega
  · rw [ht.untouched x hx hx', h.untouched x (by omega) hx']

/-- A new inode has no blocks. -/
theorem spawned {ty : FType} {size links : Nat} (h : Sequential lo hi last base n e s)
    (hlast : last < 8191) (ht : Spawned lo hi last ty size links s t) :
    Sequential lo hi (last + 1) base (Function.update n (last + 1) 0) e t := by
  have hpool := h.owned.pool_below_metadata
  have hold : ∀ j, j ≤ last → Function.update n (last + 1) 0 j = n j := fun j hj =>
    Function.update_of_ne (by omega) _ _
  refine ⟨ht.owned, ht.closed hlast h.closed, fun j hj => ?_, fun j hj => ?_, fun b hb => ?_,
    h.le_hi, ?_, fun x hx hx' => ?_⟩
  · rcases Nat.eq_or_lt_of_le hj with rfl | hlt
    · rw [Function.update_self]
      intro σ hσ
      rw [ht.empty σ hσ, blocksFor_zero]
      omega
    · rw [hold j (by omega)]
      intro σ hσ
      rw [ht.slots j (by omega) σ hσ]
      exact h.filled j (by omega) σ hσ
  · rcases Nat.eq_or_lt_of_le hj with rfl | hlt
    · intro σ τ hσ _ hv
      exact absurd (ht.empty σ hσ) hv
    · intro σ τ hσ hτ
      rw [ht.slots j (by omega) σ hσ, ht.slots j (by omega) τ hτ]
      exact h.increasing j (by omega) σ τ hσ hτ
  · rw [ht.fsBit (by omega) hlast]
    exact h.bit_eq b hb
  · rw [Finset.sum_range_succ, Function.update_self, blocksFor_zero, Nat.add_zero, h.cursor]
    congr 1
    exact Finset.sum_congr rfl fun j hj => by rw [hold j (by have := Finset.mem_range.mp hj; omega)]
  · rw [ht.low hx', h.untouched x hx hx']

end Sequential

/-! ## Creations -/

/-- `make_file` takes the blocks that the entry in the parent needs. -/
theorem makeFile_sequential (h : Sequential lo hi last base n e s) (hlast : last < 8191)
    (hp : p < 8192) :
    Outcome (makeFile env p name) s
      (fun no u => no = last + 1 ∧ ∃ j, FirstFree (content s.mem p) 0 j ∧
        Sequential lo hi (last + 1) base
          (Function.update (Function.update n (last + 1) 0) p (scanned (n p) (j + 1)))
          (e + (blocksFor (scanned (n p) (j + 1)) - blocksFor (n p))) u)
      (fun err => ValidParent last s.mem p name →
        ∃ j, (∀ l, l < j → entryInode (content s.mem p) l ≠ 0) ∧
          Shortage hi (blocksFor (n p)) (blocksFor (scanned (n p) (j + 1))) e err) := by
  refine makeFile_spawn h.owned hlast hp (fun err hn hv => absurd hv hn) fun t hv ht => ?_
  have hle := hv.le_last
  have hsame : Function.update n (last + 1) 0 p = n p := Function.update_of_ne (by omega) _ _
  have hcontent := ht.content h.owned hle
  have hseq := h.spawned hlast ht
  have hpacked := hseq.packed (Nat.le_succ_of_le hle)
  rw [hsame] at hpacked
  refine (addDentry_takes hpacked (Nat.le_succ_of_le hle)
    (by rw [ht.fileType hlast hle, hv.dir])).mono ?_ ?_
  · rintro _ u ⟨j, hj, hu⟩
    rw [← hsame] at hu
    have hseq' := hseq.takes (Nat.le_succ_of_le hle) hu
    rw [hsame] at hseq'
    refine ⟨rfl, j, ⟨hj.pos_le, ?_, ?_⟩, hseq'⟩
    · rw [← hcontent]
      exact hj.before
    · rw [← hcontent]
      exact hj.empty
  · rintro err ⟨j, hbefore, he⟩ _
    rw [hcontent] at hbefore
    exact ⟨j, hbefore, he⟩

/-- `make_dir` takes one block for the new directory, and then the blocks that the entry in the
parent needs; the root has no further entry. -/
theorem makeDir_sequential (h : Sequential lo hi last base n e s) (hlast : last < 8191)
    (hp : p < 8192) :
    Outcome (makeDir env p name) s
      (fun no u => no = last + 1 ∧ ∃ n₁, n₁ = Function.update n (last + 1) 1 ∧
        (last + 1 = rootInode ∧ Sequential lo hi (last + 1) base n₁ (e + 1) u ∨
          last + 1 ≠ rootInode ∧
            ∃ j, (p ≤ last → FirstFree (content s.mem p) 0 j) ∧ p ≤ last + 1 ∧
            Sequential lo hi (last + 1) base (Function.update n₁ p (scanned (n₁ p) (j + 1)))
              (e + 1 + (blocksFor (scanned (n₁ p) (j + 1)) - blocksFor (n₁ p))) u))
      (fun err => ValidParent last s.mem p name → Shortage hi 0 1 e err ∨
        ∃ j, (∀ l, l < j → entryInode (content s.mem p) l ≠ 0) ∧
          Shortage hi (blocksFor (n p)) (blocksFor (scanned (n p) (j + 1))) (e + 1) err) := by
  unfold makeDir
  refine assert_outcome (fun hname => ?_) fun hn hv => absurd hv.name_le hn
  refine assert_outcome (fun hne => ?_) fun hn hv => absurd hv.ne_zero hn
  refine spawn_outcome h.owned hlast (by simp only [dentrySize]; omega) (by omega) fun t ht => ?_
  have hseq := h.spawned hlast ht
  have hfresh := hseq.packed (le_refl (last + 1))
  rw [Function.update_self, blocksFor_zero] at hfresh
  -- the two calls are the first of a longer sequence
  rw [← bind_assoc]
  refine Outcome.bind ((addDots_takes (p := p) hfresh le_rfl ht.type_eq ht.content_new).mono ?_
    fun err he _ => Or.inl he)
  intro _ v hv
  have hone : blocksFor 1 = 1 := blocksFor_direct (by omega)
  have hdotted : Sequential lo hi (last + 1) base (Function.update n (last + 1) 1) (e + 1) v := by
    have hgrown := hseq.takes (k := 1) (le_refl (last + 1))
      (by rwa [Function.update_self, blocksFor_zero, hone])
    rwa [Function.update_self, blocksFor_zero, hone, Function.update_idem] at hgrown
  split
  · rename_i hroot
    by_cases hparent : p ≠ rootInode
    · rw [onlyIf_pos hparent]
      refine Outcome.of_eq_error rfl fun hvalid => ?_
      have hle := hvalid.le_last
      have hne := hvalid.ne_zero
      simp only [rootInode] at hroot
      omega
    · refine Outcome.onlyIf_bind_neg hparent ?_
      exact Outcome.pure ⟨rfl, _, rfl, Or.inl ⟨hroot, hdotted⟩⟩
  · rename_i hroot
    have hown := hdotted.owned
    by_cases hused : inodeBit v.mem p = true
    swap
    · -- `get_inode` on a free inode number
      refine Outcome.intro (fun no u hrun => ?_) fun err _ hvalid => ?_
      · obtain ⟨_, _, hget, -⟩ := exists_of_bind_eq_ok hrun
        exact absurd (getInode_ok hown.mapped_ge (by omega) hget).1 hused
      · exact absurd ((hown.inodeBit_iff p (by omega)).mpr (hvalid.le_last.trans (by omega))) hused
    have hle := (hown.inodeBit_iff p (by omega)).mp hused
    have hold : p ≤ last → content v.mem p = content s.mem p ∧
        fileType v.mem p = fileType s.mem p ∧ Function.update n (last + 1) 1 p = n p := by
      intro hle'
      refine ⟨(hv.touches.others p hle (by omega)).trans (ht.content h.owned hle'), ?_, ?_⟩
      · rw [hv.touches.fileType hp, ht.fileType hlast hle']
      · exact Function.update_of_ne (by omega) _ _
    refine Outcome.bind_ok (getInode_eq hown.mapped_ge (by omega) hused) ?_
    by_cases hdir : fileType v.mem p = FType.DIR.code
    · refine Outcome.bind ((addDentry_takes (hdotted.packed hle) hle hdir).mono ?_ ?_)
      · rintro _ u ⟨j, hj, hu⟩
        refine Outcome.pure ⟨rfl, _, rfl,
          Or.inr ⟨hroot, j, fun hle' => ?_, hle, hdotted.takes hle hu⟩⟩
        rw [← (hold hle').1]
        exact ⟨hj.pos_le, hj.before, hj.empty⟩
      · rintro err ⟨j, hbefore, he⟩ hvalid
        obtain ⟨hcontent, -, hsame⟩ := hold hvalid.le_last
        rw [hcontent] at hbefore
        rw [hsame] at he
        exact Or.inr ⟨j, hbefore, he⟩
    · -- `add_dentry` on a file
      have hpanic : INode.addDentry p (dirEntry env (last + 1) name) v =
          .error (.panic "add_dentry called for non-dir inode") := by
        unfold INode.addDentry
        rw [bind_eq_ok (load_fType hown hle), onlyIf_pos hdir]
        rfl
      refine Outcome.of_eq_error (bind_eq_error hpanic) fun hvalid => ?_
      exact absurd ((hold hvalid.le_last).2.1.trans hvalid.dir) hdir

/-! ## One call -/

/-- Every call that returns keeps the volume sequential. -/
theorem ParchFS.Op.sequential {op : Op} (h : Sequential lo hi last base n e s)
    (hlast : last + op.added < 8192) (hop : op.WellTyped) (hrun : op.exec s = .ok ((), t)) :
    ∃ n' e', Sequential lo hi (last + op.added) base n' e' t := by
  have hown := h.owned
  cases op with
  | makeDir env p name =>
      have hroom : last < 8191 := Nat.lt_of_succ_lt_succ hlast
      obtain ⟨no, hmake⟩ := exists_of_drop hrun
      obtain ⟨-, n₁, -, ⟨-, ht⟩ | ⟨-, j, -, -, ht⟩⟩ :=
        (makeDir_sequential h hroom hop).of_ok hmake
      · exact ⟨_, _, ht⟩
      · exact ⟨_, _, ht⟩
  | makeFile env p name =>
      have hroom : last < 8191 := Nat.lt_of_succ_lt_succ hlast
      obtain ⟨no, hmake⟩ := exists_of_drop hrun
      obtain ⟨-, j, -, ht⟩ := (makeFile_sequential h hroom hop).of_ok hmake
      exact ⟨_, _, ht⟩
  | write i off buf =>
      obtain ⟨hle, hwrite⟩ := getInode_bind_ok hown hop.1 hrun
      exact ⟨_, _, h.takes hle ((write_takes buf (h.packed hle) hle hop.2.1).of_ok hwrite)⟩
  | getBlkno i off =>
      obtain ⟨hle, hdrop⟩ := getInode_bind_ok hown hop.1 hrun
      obtain ⟨b, hcall⟩ := exists_of_drop hdrop
      exact ⟨_, _, h.takes hle ((getBlkno_takes (h.packed hle) hle hop.2).of_ok hcall).1⟩
  | getDentry i pos =>
      obtain ⟨hle, hdrop⟩ := getInode_bind_ok hown hop.1 hrun
      obtain ⟨de, hcall⟩ := exists_of_drop hdrop
      exact ⟨_, _, h.takes hle (getDentry_takes (h.packed hle) hle hcall)⟩
  | addDentry i d =>
      obtain ⟨hle, hadd⟩ := getInode_bind_ok hown hop hrun
      have hdir := (addDentry_ok hown h.closed hle hadd).1
      obtain ⟨j, -, ht⟩ := (addDentry_takes (h.packed hle) hle hdir).of_ok hadd
      exact ⟨_, _, h.takes hle ht⟩

/-! ## Runs -/

/-- The formatted metadata with no inode in use. -/
theorem Formatted.sequential {r len : Nat} (h : Formatted lo r len s t)
    (hmapped : 0x80000000 ≤ s.mapped) (hr : r ≤ 0x7FDDE) (hlo : lo + 1 ≤ r) :
    Sequential lo (min r 0x7FDDE) 0 s (fun _ => 0) (lo + 1) t := by
  have hown := h.ownership hmapped (by omega)
  have hzero : ∀ i, i ≤ 0 → ∀ σ : Slot, σ.Valid → slotVal t.mem i σ = 0 := fun i hi σ hσ =>
    slotVal_eq_zero (fun x hx hx' => h.table x (by rw [INode.addr_eq] at hx; omega)
      (by rw [INode.addr_eq] at hx'; omega)) hσ
  refine ⟨hown, h.closed hr, fun i hi σ hσ => ?_, fun i hi σ τ hσ _ hv => ?_, fun b hb => ?_,
    by omega, ?_, fun x _ hx => h.low x hx⟩
  · rw [hzero i hi σ hσ, blocksFor_zero]
    omega
  · exact absurd (hzero i hi σ hσ) hv
  · rw [h.fs b (by omega), decide_eq_decide]
    omega
  · rw [Finset.sum_range_one, blocksFor_zero, Nat.add_zero]

/-- The number of data blocks that a file has. -/
def fileBlocks (m : Mem) (i : Nat) : Nat :=
  ((Finset.range maxBlocks).filter fun k => fileBlk m i k ≠ 0).card

/-- The blocks that the allocated inodes hold, index blocks included. -/
def usedBlocks (s : ParchFS) : Nat :=
  ∑ i ∈ (Finset.range 8192).filter fun i => inodeBit s.mem i = true,
    blocksFor (fileBlocks s.mem i)

/-- The image has been filled from the front: each file has its first blocks and the index
blocks that these need, with increasing numbers, and the marked blocks are those of the kernel
and as many behind it as the files hold. -/
structure SequentialLayout (s : ParchFS) : Prop where
  mapped_iff : ∀ i, Allocated s i → ∀ k, k < maxBlocks →
    (fileBlk s.mem i k ≠ 0 ↔ k < fileBlocks s.mem i)
  indirect_iff : ∀ i, Allocated s i → (slotVal s.mem i (.field 16) ≠ 0 ↔ 16 < fileBlocks s.mem i)
  indirect2_iff : ∀ i, Allocated s i →
    (slotVal s.mem i (.field 17) ≠ 0 ↔ 1040 < fileBlocks s.mem i)
  index_iff : ∀ i, Allocated s i → ∀ q, q < 1024 →
    (slotVal s.mem i (indexSlot q) ≠ 0 ↔ 1040 + 1024 * q < fileBlocks s.mem i)
  increasing : ∀ i, Allocated s i → Increasing Slot.rank Slot.Valid (slotVal s.mem i)
  used_iff : ∀ b, b < reserveStart s →
    (fsBit s.mem b = true ↔ b ≤ pa2blkno s s.eKernel + usedBlocks s)

/-- The number of data blocks is that of the data slots below the rank. -/
theorem fileBlocks_eq {m : Mem} {c : Nat} (hc : c ≤ maxBlocks)
    (h : Filled Slot.rank Slot.Valid (blocksFor c) (slotVal m i)) : fileBlocks m i = c := by
  have hset : ((Finset.range maxBlocks).filter fun k => fileBlk m i k ≠ 0) = Finset.range c := by
    ext k
    rw [Finset.mem_filter, Finset.mem_range, Finset.mem_range]
    constructor
    · rintro ⟨hk, hv⟩
      exact rank_dataSlot_lt_iff.mp ((h _ (dataSlot_valid hk)).mp hv)
    · intro hk
      have hk' : k < maxBlocks := by omega
      exact ⟨hk', (h _ (dataSlot_valid hk')).mpr (rank_dataSlot_lt_iff.mpr hk)⟩
  rw [fileBlocks, hset, Finset.card_range]

theorem le_blocksFor (c : Nat) : c ≤ blocksFor c := by
  unfold blocksFor
  split <;> (try split) <;> omega

namespace Sequential

/-- A file has fewer blocks than the pool. -/
theorem blocks_le (h : Sequential lo hi last base n e s) (hi' : i ≤ last) : n i ≤ maxBlocks := by
  have hpool := h.owned.pool_below_metadata
  have hle := h.le_hi
  have hcursor := h.cursor
  have hone := Finset.single_le_sum (f := fun j => blocksFor (n j)) (fun _ _ => Nat.zero_le _)
    (Finset.mem_range.mpr (show i < last + 1 by omega))
  have hblocks := le_blocksFor (n i)
  unfold maxBlocks
  omega

theorem fileBlocks_eq (h : Sequential lo hi last base n e s) (hi' : i ≤ last) :
    fileBlocks s.mem i = n i :=
  ParchTestbench.fileBlocks_eq (h.blocks_le hi') (h.filled i hi')

theorem usedBlocks_eq (h : Sequential lo hi last base n e s) :
    usedBlocks s = ∑ i ∈ Finset.range (last + 1), blocksFor (n i) := by
  have hlast := h.owned.last_lt
  have hset : ((Finset.range 8192).filter fun i => inodeBit s.mem i = true) =
      Finset.range (last + 1) := by
    ext i
    rw [Finset.mem_filter, Finset.mem_range, Finset.mem_range]
    constructor
    · rintro ⟨hi', hbit⟩
      have hle := (h.owned.inodeBit_iff i (by omega)).mp hbit
      omega
    · intro hi'
      exact ⟨by omega, (h.owned.inodeBit_iff i (by omega)).mpr (by omega)⟩
  rw [usedBlocks, hset]
  refine Finset.sum_congr rfl fun i hi' => ?_
  rw [h.fileBlocks_eq (by have := Finset.mem_range.mp hi'; omega)]

theorem layout (h : Sequential (pa2blkno s s.eKernel) (reserveStart s) last base n e s) :
    SequentialLayout s := by
  have hslot : ∀ i, Allocated s i → ∀ σ : Slot, σ.Valid →
      (slotVal s.mem i σ ≠ 0 ↔ σ.rank < blocksFor (fileBlocks s.mem i)) := fun i hi' σ hσ => by
    have hle := h.owned.allocated_iff.mp hi'
    rw [h.fileBlocks_eq hle]
    exact h.filled i hle σ hσ
  refine ⟨fun i hi' k hk => ?_, fun i hi' => ?_, fun i hi' => ?_, fun i hi' q hq => ?_,
    fun i hi' => h.increasing i (h.owned.allocated_iff.mp hi'), fun b hb => ?_⟩
  · exact (hslot i hi' _ (dataSlot_valid hk)).trans rank_dataSlot_lt_iff
  · exact (hslot i hi' _ (field_valid (by omega))).trans rank_sixteen_lt_iff
  · exact (hslot i hi' _ (field_valid (by omega))).trans rank_seventeen_lt_iff
  · exact (hslot i hi' _ (indexSlot_valid hq)).trans rank_indexSlot_lt_iff
  · have hcursor := h.cursor
    rw [h.bit_eq b hb, decide_eq_true_iff, h.usedBlocks_eq]
    omega

end Sequential

section Runs

variable {bin : MMAPBinContent} {lines : List (List Char)} {syms : Symbols} {ops : List Op}

/-- A new volume is sequential, with one block for the root. -/
theorem sequential_of_init (hinit : init env (ofSymbols bin syms) = .ok ((), s))
    (hreserve : reserveStart (ofSymbols bin syms) ≤ 0x7FDDE) :
    Sequential (pa2blkno (ofSymbols bin syms) syms.eKernel) (reserveStart (ofSymbols bin syms)) 1
      (ofSymbols bin syms) (Function.update (fun _ => 0) 1 1)
      (pa2blkno (ofSymbols bin syms) syms.eKernel + 2) s := by
  have haccepted := (initial_of_init hinit).accepted
  have hblk : pa2blkno (ofSymbols bin syms) (ofSymbols bin syms).eKernel + 1 <
      reserveStart (ofSymbols bin syms) := haccepted.lt_reserve
  obtain ⟨t, no, hformat, hroot⟩ := formatted_of_init hinit
  have hstart := hformat.sequential haccepted.mapped hreserve hblk.le
  rw [min_eq_left hreserve] at hstart
  obtain ⟨-, n₁, rfl, ⟨-, hs⟩ | ⟨hne, -⟩⟩ :=
    (makeDir_sequential hstart (by omega) (by decide)).of_ok hroot
  · exact hs
  · exact absurd rfl hne

/-- Every run of calls keeps the volume sequential. -/
theorem sequential_run (hinit : init env (ofSymbols bin syms) = .ok ((), s))
    (hreserve : reserveStart (ofSymbols bin syms) ≤ 0x7FDDE) (hops : Admissible 1 [] ops)
    (hrun : runAll Op.exec ops s = .ok ((), u)) :
    ∃ n e, Sequential (pa2blkno (ofSymbols bin syms) syms.eKernel)
      (reserveStart (ofSymbols bin syms)) (1 + creations ops) (ofSymbols bin syms) n e u := by
  have hstart := healthy_of_init hinit hreserve
  refine (run_induct (I := fun done t => ∃ n e,
    Sequential (pa2blkno (ofSymbols bin syms) syms.eKernel) (reserveStart (ofSymbols bin syms))
      (1 + creations done) (ofSymbols bin syms) n e t) hstart (by omega) ?_ ?_ hops hrun).2
  · exact ⟨_, _, sequential_of_init hinit hreserve⟩
  · rintro done op v w - hroom htyped hexec - ⟨n, e, hv⟩
    rw [creations_concat, ← Nat.add_assoc]
    exact Op.sequential hv hroom htyped hexec

/-- On the layouts of a linker script with the reserve behind the first page, every run of
calls fills the image from the front. -/
theorem sequentialLayout (hread : Symbols.read env lines = .ok syms)
    (hlayout : LinkedLayout syms) (hpage : 0x80001000 ≤ syms.sReserve)
    (hrun : construct env bin lines = .ok s) (hops : Admissible 1 [] ops)
    (hruns : runAll Op.exec ops s = .ok ((), u)) : SequentialLayout u := by
  have hinit := init_of_construct hread hrun
  have hreserve : reserveStart (ofSymbols bin syms) ≤ 0x7FDDE :=
    (hlayout.reserveStart_le bin hpage).trans (by omega)
  obtain ⟨n, e, hu⟩ := sequential_run hinit hreserve hops hruns
  have hstate := (run_healthy (healthy_of_init hinit hreserve) (by omega) hops hruns).state
  rw [hstate] at hu ⊢
  exact Sequential.layout hu

/-- A byte below the inode table is that of the image that was mapped, unless an inode holds
its block. -/
theorem untouched_of_free (hread : Symbols.read env lines = .ok syms)
    (hlayout : LinkedLayout syms) (hpage : 0x80001000 ≤ syms.sReserve)
    (hrun : construct env bin lines = .ok s) (hops : Admissible 1 [] ops)
    (hruns : runAll Op.exec ops s = .ok ((), u)) {x : Nat} (hx : x < 0x7FDDE000)
    (hfree : ∀ i, Allocated u i → ∀ σ : Slot, σ.Valid → slotVal u.mem i σ ≠ 0 →
      slotVal u.mem i σ ≠ x / 4096) : u.mem x = bin.mem x := by
  have hinit := init_of_construct hread hrun
  have hreserve : reserveStart (ofSymbols bin syms) ≤ 0x7FDDE :=
    (hlayout.reserveStart_le bin hpage).trans (by omega)
  obtain ⟨n, e, hu⟩ := sequential_run hinit hreserve hops hruns
  have hhealthy := run_healthy (healthy_of_init hinit hreserve) (by omega) hops hruns
  rcases Nat.lt_or_ge x (4096 * e) with hlt | hge
  · rcases Nat.lt_or_ge x
      (4096 * (pa2blkno (ofSymbols bin syms) syms.eKernel + 1)) with hlow | hpool
    · exact hhealthy.low x hlow
    · -- a marked block of the pool is held by an inode
      have hle := hu.le_hi
      have hset : fsBit u.mem (x / 4096) = true := by
        rw [hu.bit_eq _ (by omega), decide_eq_true_iff]
        omega
      obtain ⟨i, σ, hi', hσ, hv⟩ := hu.owned.no_leak (x / 4096) (by omega) (by omega) hset
      exact absurd hv (hfree i (hu.owned.allocated_iff.mpr hi') σ hσ (by omega))
  · exact hu.untouched x hge hx

end Runs

/-- A file and two writes over the end of a block. -/
def sampleOps : List Op := .makeFile blankEnv rootInode [] :: sampleWrites

theorem exists_sampleRun : ∃ s u, construct blankEnv blankImage sampleLines = .ok s ∧
    Admissible 1 [] sampleOps ∧ runAll Op.exec sampleOps s = .ok ((), u) ∧
      0 < freeCount 0x7FDDD u.mem := by
  obtain ⟨s, t, u, h⟩ := exists_sampleFile
  have hfirst : (Op.makeFile blankEnv rootInode []).exec s = .ok ((), t) := bind_eq_ok h.make
  refine ⟨s, u, h.run, ⟨fun op hop => ?_, by decide⟩, (bind_eq_ok hfirst).trans h.writes, h.free⟩
  rcases List.mem_cons.mp hop with rfl | hop'
  · exact show rootInode < 8192 by decide
  · exact wellTyped_sampleWrites op hop'

theorem sequentialLayout_sample : ∃ s u, construct blankEnv blankImage sampleLines = .ok s ∧
    runAll Op.exec sampleOps s = .ok ((), u) ∧ SequentialLayout u := by
  obtain ⟨s, u, hrun, hops, hruns, -⟩ := exists_sampleRun
  exact ⟨s, u, hrun, hruns, sequentialLayout sample_read sample_linked (by decide) hrun hops hruns⟩

/-- As long as a block is free, the last one of the pool is nobody's. -/
theorem Sequential.last_unused (h : Sequential lo hi last base n e s)
    (hfree : 0 < freeCount hi s.mem) (hi' : i ≤ last) {σ : Slot} (hσ : σ.Valid)
    (hv : slotVal s.mem i σ ≠ 0) : slotVal s.mem i σ ≠ hi - 1 := by
  obtain ⟨b, hb⟩ := Finset.card_pos.mp hfree
  rw [Finset.mem_filter, Finset.mem_range] at hb
  obtain ⟨hlt, hclear⟩ := hb
  rw [h.bit_eq b hlt, decide_eq_false_iff_not] at hclear
  have hmarked := h.owned.marked i hi' σ hσ hv
  intro heq
  rw [heq, h.bit_eq _ (by omega), decide_eq_true_iff] at hmarked
  omega

/-- A byte of the last block of the pool, behind those of the file. -/
theorem untouched_of_free_sample : ∃ s u,
    construct blankEnv blankImage sampleLines = .ok s ∧
      runAll Op.exec sampleOps s = .ok ((), u) ∧ u.mem 0x7FDDC123 = blankImage.mem 0x7FDDC123 := by
  obtain ⟨s, u, hrun, hops, hruns, hfree⟩ := exists_sampleRun
  obtain ⟨n, e, hu⟩ := sequential_run (init_of_construct sample_read hrun) (by decide) hops hruns
  refine ⟨s, u, hrun, hruns, untouched_of_free sample_read sample_linked (by decide) hrun hops hruns
    (by decide) fun i hi' σ hσ hv => ?_⟩
  exact hu.last_unused hfree (hu.owned.allocated_iff.mp hi') hσ hv

end ParchTestbench
