import ParchTestbench.ParchFS.History
import ParchTestbench.ParchFS.Filling
import ParchTestbench.ParchFS.LayoutSafety

/-!
# ParchFS: two sample volumes

The new volume of the sample layout, which has room, and that of a layout with a pool of
one block.  The latter is the smallest pool that the constructor accepts: the kernel leaves
one block in front of the inode table, which the root takes, and the reserve is marked from
behind the inode table on.  The next block that is handed out is the first page of the
inode table.
-/

namespace ParchTestbench

open ParchFS Program

/-- The first file of a volume. -/
theorem Flat.exists_first {lo hi total : Nat} {base s : ParchFS}
    (h : Flat lo hi total base 0 0 s) (htotal : 1 ≤ total) :
    ∃ t, ParchFS.makeFile blankEnv rootInode [] s = .ok (2, t) ∧
      Flat lo hi total base 0 1 t ∧ Vacant 2 t := by
  have hcost : blockCost (128 * (0 + 3)) = 1 := rfl
  exact h.makeFile blankEnv (show ([] : List UInt8).length ≤ 118 by decide) (by decide) (by omega)

/-- A kernel that leaves one block in front of the inode table, and a reserve behind it. -/
def tightLines : List (List Char) := symbolLines "ffddc000".toList "fffe0000".toList

theorem tight_read : Symbols.read blankEnv tightLines = .ok (layout 0xffddc000 0xfffe0000) := rfl

/-- What is known of the new volume of this layout. -/
structure TightVolume (s : ParchFS) : Prop where
  owned : Ownership 0x7FDDC 0x7FDDE 1 s
  none_free : freeCount 0x7FDDE s.mem = 0
  clear : fsBit s.mem 0x7FDDE = false
  holdsDir : HoldsDir 1 (dots 1 1) s
  filled_iff : ∀ σ : Slot, σ.Valid → (slotVal s.mem 1 σ ≠ 0 ↔ σ = .field 0)
  flat : Flat 0x7FDDC 0x7FDDE 1 s 0 0 s

theorem exists_tight :
    ∃ s, construct blankEnv blankImage tightLines = .ok s ∧ TightVolume s := by
  have haccepted : Accepted (ofSymbols blankImage (layout 0xffddc000 0xfffe0000)) := by
    refine ⟨⟨rfl, rfl, ?_, ?_⟩, ?_, ?_, ?_, ?_, ?_, ?_⟩ <;> decide
  obtain ⟨u, hinit, -⟩ : ∃ u, init blankEnv _ = .ok ((), u) ∧ _ := exists_init haccepted
  have hblk : pa2blkno (ofSymbols blankImage (layout 0xffddc000 0xfffe0000))
      (ofSymbols blankImage (layout 0xffddc000 0xfffe0000)).eKernel = 0x7FDDC := by decide
  have hreserve : reserveStart (ofSymbols blankImage (layout 0xffddc000 0xfffe0000)) = 0x7FFDF := by
    decide
  obtain ⟨t, v, hfounded⟩ := founded_of_init hinit (by rw [hblk]; omega)
  have hpool : poolEnd (ofSymbols blankImage (layout 0xffddc000 0xfffe0000)) = 0x7FDDE := by
    rw [poolEnd, hreserve]
    rfl
  have hflat := hfounded.flat
  rw [hblk, hpool] at hfounded hflat
  have hcount := hfounded.dotted.count
  rw [hfounded.spawned.freeCount (by omega)] at hcount
  have hformat := hfounded.formatted.freeCount
  rw [hreserve, show min 0x7FFDF 0x7FDDE = 0x7FDDE from rfl] at hformat
  refine ⟨u, construct_eq tight_read hinit, hfounded.dotted.owned, by omega, ?_,
    hfounded.holdsDir, hfounded.dotted.filled_iff, hflat⟩
  rw [hfounded.dotted.touches.marks _ le_rfl (by omega),
    hfounded.spawned.fsBit (by omega) (by omega), hfounded.formatted.fs _ (by omega), hreserve]
  exact decide_eq_false (by omega)

/-! ## A layout with room -/

/-- What is known of the new volume of the sample layout. -/
structure SampleVolume (s : ParchFS) : Prop where
  flat : Flat 0x200 0x7FDDD 0x7FBDC s 0 0 s
  holdsDir : HoldsDir 1 (dots 1 1) s

theorem exists_sampleVolume :
    ∃ s, construct blankEnv blankImage sampleLines = .ok s ∧ SampleVolume s := by
  obtain ⟨s, hrun⟩ := exists_sample
  have hblk : pa2blkno (ofSymbols blankImage (layout 0x80200000 0xffdde000))
      (ofSymbols blankImage (layout 0x80200000 0xffdde000)).eKernel = 0x200 := by decide
  have hpool : poolEnd (ofSymbols blankImage (layout 0x80200000 0xffdde000)) = 0x7FDDD := by decide
  obtain ⟨v, w, hfounded⟩ := founded_of_init (init_of_construct sample_read hrun)
    (by rw [hblk]; omega)
  have hflat := hfounded.flat
  rw [hblk, hpool] at hflat
  exact ⟨s, hrun, hflat, hfounded.holdsDir⟩

end ParchTestbench
