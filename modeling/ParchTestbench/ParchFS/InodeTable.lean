import ParchTestbench.ParchFS.Namespace
import ParchTestbench.ParchFS.Filling

/-!
# ParchFS: the bound of the inode table

`alloc_inode` searches the whole bitmap, which has four times as many bits as the table has
inodes.  As long as the table has a free inode it hands out the next number; then it hands
out number 8192, whose slot is the beginning of the bitmap.

Main results:

- Theorem `Reached.numbered`: the inodes are handed out in their order.
- Theorem `tableRespected_iff`: the table is respected as long as it has a free inode, and
  no longer.
- Theorem `not_tableRespected`: a run that fills the table.
-/

namespace ParchTestbench

open ParchFS Program

variable {lo hi last k : Nat} {base s t u : ParchFS} {env : Env} {made : List Nat}

/-- The numbers handed out so far, and the next one, lie in the table and are distinct; with
the table full there is no next one. -/
structure TableRespected (made : List Nat) (s : ParchFS) : Prop where
  bound : ∀ no ∈ made, no < 8192
  distinct : made.Nodup
  next : ∀ no t, allocInode s = .ok (no, t) →
    no < 8192 ∧ INode.addr no + inodeSize ≤ inodeBitmap ∧ no ∉ made
  full : (∀ no, 0 < no → no < 8192 → no ∈ made) → allocInode s = .error inodeBitmapFull

theorem nodup_numbers (n : Nat) : (numbers n).Nodup := by
  induction n with
  | zero => exact List.nodup_nil
  | succ n ih =>
      refine List.nodup_cons.mpr ⟨fun hmem => ?_, ih⟩
      have hle := (mem_numbers.mp hmem).2
      omega

/-- The first clear bit is the one behind the last inode, also behind the table. -/
theorem Ownership.allocInode_next (h : Ownership lo hi last s) :
    allocInode s = .ok (last + 1, s.withMem (allocInodeMem s.mem (last + 1))) := by
  have hlast := h.last_lt
  refine allocInode_eq h.mapped_ge (by omega) ?_ fun q hq =>
    (h.inodeBit_iff q (by omega)).mpr (by omega)
  refine Bool.eq_false_of_not_eq_true fun hbit => ?_
  have hle := (h.inodeBit_iff (last + 1) (by omega)).mp hbit
  omega

/-- The table is respected as long as it has a free inode. -/
theorem Ownership.tableRespected_numbers (h : Ownership lo hi last s) :
    TableRespected (numbers last) s ↔ last < 8191 := by
  have hlast := h.last_lt
  have halloc := h.allocInode_next
  constructor
  · intro htable
    have hnext := (htable.next _ _ halloc).1
    omega
  · intro hroom
    refine ⟨fun no hno => ?_, nodup_numbers last, fun no t' hrun => ?_, fun hall => ?_⟩
    · have hle := (mem_numbers.mp hno).2
      omega
    · rw [halloc] at hrun
      cases hrun
      refine ⟨by omega, ?_, fun hmem => ?_⟩
      · simp only [INode.addr_eq, inodeSize, inodeBitmap]
        omega
      · have hle := (mem_numbers.mp hmem).2
        omega
    · have hle := (mem_numbers.mp (hall 8191 (by omega) (by omega))).2
      omega

/-- The slot behind the table is the beginning of the inode bitmap. -/
theorem inodeBit_allocInodeMem_end {m : Mem} (hk : k < 2048) :
    inodeBit (allocInodeMem m 8192) k = false := by
  have hzero : allocInodeMem m 8192 (inodeBitmap + k / 8) = 0 :=
    allocInodeMem_of_mem (by simp only [INode.addr_eq, inodeBitmap]; omega)
      (by simp only [INode.addr_eq, inodeBitmap]; omega)
  rw [inodeBit, Mem.bit, hzero]
  exact Nat.zero_testBit _

/-! ## Runs -/

theorem Reached.length_pos {C : List Nat → ParchFS → Op → Prop} (h : Reached C u made s) :
    0 < made.length := by
  cases h <;> exact Nat.succ_pos _

/-- On a volume with a marked reserve the inodes are handed out in their order, until the
table is full. -/
theorem Reached.numbered (hstart : Healthy lo hi 1 base u)
    (h : Reached (fun _ _ op => op.WellTyped) u made s) (hlen : made.length ≤ 8191) :
    made = numbers made.length ∧ Healthy lo hi made.length base s := by
  induction h with
  | new => exact ⟨rfl, hstart⟩
  | @makeDir made s t env p no name before allowed hrun ih =>
      rw [List.length_cons] at hlen ⊢
      obtain ⟨hmade, hs⟩ := ih (by omega)
      obtain ⟨hno, heff⟩ :=
        (makeDir_outcome hs.owned hs.closed (by omega) before.length_pos allowed).of_ok hrun
      have heff' : (Op.makeDir env p name).Effect lo hi made.length s t := heff
      refine ⟨?_, heff'.healthy hs (Nat.lt_succ_of_le hlen)⟩
      rw [numbers, ← hmade, hno]
  | @makeFile made s t env p no name before allowed hrun ih =>
      rw [List.length_cons] at hlen ⊢
      obtain ⟨hmade, hs⟩ := ih (by omega)
      obtain ⟨hno, heff⟩ := (makeFile_outcome hs.owned hs.closed (by omega) allowed).of_ok hrun
      have heff' : (Op.makeFile env p name).Effect lo hi made.length s t := heff
      refine ⟨?_, heff'.healthy hs (Nat.lt_succ_of_le hlen)⟩
      rw [numbers, ← hmade, hno]

/-- A creation that finds the table full hands out number 8192. -/
theorem Reached.mem_of_full (hstart : Healthy lo hi 1 base u)
    (h : Reached (fun _ _ op => op.WellTyped) u made s) (hlen : 8191 < made.length) :
    8192 ∈ made := by
  -- at the first creation beyond the table the volume is healthy still
  have hnext : ∀ {made s no v}, Reached (fun _ _ op => op.WellTyped) u made s →
      allocInode s = .ok (no, v) → 8191 < (no :: made).length →
      (8191 < made.length → 8192 ∈ made) → 8192 ∈ no :: made := by
    intro made s no v hbefore halloc hlen ih
    rcases Nat.lt_or_ge 8191 made.length with hover | hle
    · exact List.mem_cons_of_mem _ (ih hover)
    · obtain ⟨-, hs⟩ := hbefore.numbered hstart hle
      rw [hs.owned.allocInode_next] at halloc
      rw [List.length_cons] at hlen
      cases halloc
      exact List.mem_cons.mpr (Or.inl (by omega))
  induction h with
  | new => exact absurd hlen (by decide)
  | makeDir before _ hrun ih =>
      obtain ⟨v, halloc⟩ := allocInode_of_makeDir hrun
      exact hnext before halloc hlen ih
  | makeFile before _ hrun ih =>
      obtain ⟨v, halloc⟩ := allocInode_of_makeFile hrun
      exact hnext before halloc hlen ih

/-- Files in the root, as many as the table has room for. -/
theorem Flat.exists_reached {total : Nat} (h : Flat lo hi total base 0 0 u) (hk : k ≤ 8190)
    (htotal : 258 ≤ total) :
    ∃ s, Reached (fun _ _ op => op.WellTyped) u (numbers (k + 1)) s ∧
      Flat lo hi total base 0 k s := by
  have hcost : blockCost (128 * (8190 + 2)) = 258 := rfl
  induction k with
  | zero => exact ⟨u, .new, h⟩
  | succ k ih =>
      obtain ⟨s, hreached, hflat⟩ := ih (by omega)
      have hmono : blockCost (128 * (k + 3)) ≤ blockCost (128 * (8190 + 2)) :=
        blockCost_mono (by omega)
      obtain ⟨t, hmake, hflat', -⟩ := hflat.makeFile blankEnv
        (show ([] : List UInt8).length ≤ 118 by decide) (by omega) (by omega)
      exact ⟨t, .makeFile hreached (show rootInode < 8192 by decide) hmake, hflat'⟩

section Runs

variable {bin : MMAPBinContent} {lines : List (List Char)} {syms : Symbols}

/-- In every run on a volume with a marked reserve, and in every run of creations below
directories that find the blocks they need in front of the metadata, the table is respected
as long as it has a free inode, and no longer. -/
theorem tableRespected_iff (hread : Symbols.read env lines = .ok syms)
    (hrun : construct env bin lines = .ok u) :
    (reserveStart (ofSymbols bin syms) ≤ 0x7FDDE → ∀ made s,
      Reached (fun _ _ op => op.WellTyped) u made s →
        (TableRespected made s ↔ made.length < 8191)) ∧
    (rootBlkNo (ofSymbols bin syms) < 0x7FDDE → ∀ made s,
      Reached (fun made s op => BelowDirectory made s op ∧ Supplied s op) u made s →
        (TableRespected made s ↔ made.length < 8191)) := by
  have hinit := init_of_construct hread hrun
  constructor
  · intro hreserve made s hreached
    have hstart := healthy_of_init hinit hreserve
    rcases Nat.lt_or_ge 8191 made.length with hover | hlen
    · refine iff_of_false (fun htable => ?_) (by omega)
      exact Nat.lt_irrefl 8192 (htable.bound 8192 (hreached.mem_of_full hstart hover))
    · obtain ⟨hmade, hs⟩ := hreached.numbered hstart hlen
      have hiff := hs.owned.tableRespected_numbers
      rwa [← hmade] at hiff
  · intro hroot made s hreached
    obtain ⟨tree, rfl, htree⟩ := hreached.populated (populated_of_init hinit hroot)
    rw [length_numbers]
    exact htree.inodes.owned.tableRespected_numbers

theorem tableRespected_iff_sample : ∃ u t, construct blankEnv blankImage sampleLines = .ok u ∧
    (TableRespected [1] u ↔ [1].length < 8191) ∧
      (TableRespected [2, 1] t ↔ [2, 1].length < 8191) := by
  obtain ⟨u, t, hrun, hreached⟩ := exists_reached_sample
  obtain ⟨hmarked, hsupplied⟩ := tableRespected_iff sample_read hrun
  exact ⟨u, t, hrun, hmarked (by decide) _ _ .new, hsupplied (by decide) _ _ hreached⟩

/-- With 8190 files in the root of the sample volume the next inode is number 8192, and the
inode bitmap is cleared. -/
theorem not_tableRespected : ∃ u s t, construct blankEnv blankImage sampleLines = .ok u ∧
    Reached (fun _ _ op => op.WellTyped) u (numbers 8191) s ∧
      allocInode s = .ok (8192, t) ∧ (∀ no, no < 2048 → inodeBit t.mem no = false) ∧
      ¬ TableRespected (numbers 8191) s := by
  obtain ⟨u, hrun, hsample⟩ := exists_sampleVolume
  obtain ⟨s, hreached, hflat⟩ := hsample.flat.exists_reached (k := 8190) le_rfl (by omega)
  refine ⟨u, s, _, hrun, hreached, hflat.owned.allocInode_next, fun no hno => ?_, fun htable =>
    Nat.lt_irrefl 8191 (hflat.owned.tableRespected_numbers.mp htable)⟩
  exact inodeBit_allocInodeMem_end hno

end Runs

end ParchTestbench
