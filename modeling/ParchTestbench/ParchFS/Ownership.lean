import ParchTestbench.ParchFS.AllocatorEffect
import ParchTestbench.ParchFS.INode
import Mathlib.Data.Finset.Card
import Mathlib.Order.Interval.Finset.Nat

/-!
# ParchFS: block slots and block ownership

Every block number of an inode sits in a slot: one of the 18 block-number fields
of the inode, or an entry of an index block that another slot holds.  This file
reads the slots, sizes and contents of the inodes out of a memory, and states
the invariant that ties the slots to the two block bitmaps.

Main definitions:

- `slotVal`: the block number in a slot, zero when the slot's own index block is
  missing.
- `content`: the bytes of an inode as one array, zero where no block is mapped.
- `Ownership`: every block number in a slot lies in the pool, is marked in the
  bitmaps and occurs once, and every marked block of the pool occurs.
-/

namespace ParchTestbench

open ParchFS

/-! ## Slots -/

/-- A place that holds a block number.  Fields 0 to 15 of an inode are
`direct_blk_no`, field 16 is `indirect_blk` and field 17 is `indirect_blk2`. -/
inductive Slot
  | field (k : Nat)
  | entry (parent : Slot) (k : Nat)
deriving DecidableEq

/-- The slots that hold the number of an index block. -/
def Slot.isIndex : Slot → Prop
  | .field k => k = 16 ∨ k = 17
  | .entry (.field k) _ => k = 17
  | .entry (.entry _ _) _ => False

/-- The slots that an inode has. -/
def Slot.Valid : Slot → Prop
  | .field k => k < 18
  | .entry p k => p.Valid ∧ p.isIndex ∧ k < 1024

/-- The number of blocks that a file can have. -/
def maxBlocks : Nat := 1049616

/-- The slot of block `k` of a file. -/
def dataSlot (k : Nat) : Slot :=
  if k < 16 then .field k
  else if k < 1040 then .entry (.field 16) (k - 16)
  else .entry (.entry (.field 17) ((k - 1040) / 1024)) ((k - 1040) % 1024)

theorem dataSlot_valid {k : Nat} (h : k < 1049616) : (dataSlot k).Valid := by
  unfold dataSlot
  split
  · show k < 18
    omega
  · split
    · exact ⟨show 16 < 18 by omega, Or.inl rfl, by omega⟩
    · exact ⟨⟨show 17 < 18 by omega, Or.inr rfl, by omega⟩, rfl, by omega⟩

theorem dataSlot_not_isIndex (k : Nat) : ¬ (dataSlot k).isIndex := by
  unfold dataSlot
  split
  · show ¬ (k = 16 ∨ k = 17)
    omega
  · split
    · show ¬ (16 = 17)
      omega
    · exact not_false

theorem dataSlot_injective {k l : Nat} (h : dataSlot k = dataSlot l) : k = l := by
  unfold dataSlot at h
  split at h <;> split at h <;> try split at h
  all_goals try split at h
  all_goals simp only [Slot.entry.injEq, Slot.field.injEq, reduceCtorEq, false_and] at h
  all_goals omega

/-! ## Reading a memory -/

/-- The block number in a slot of inode `i`. -/
def slotVal (m : Mem) (i : Nat) : Slot → Nat
  | .field k => m.load (INode.addr i + 20 + 4 * k) 4
  | .entry p k => if slotVal m i p = 0 then 0 else m.load (4096 * slotVal m i p + 4 * k) 4

/-- Where the block number of a slot lies. -/
def slotAddr (m : Mem) (i : Nat) : Slot → Nat
  | .field k => INode.addr i + 20 + 4 * k
  | .entry p k => 4096 * slotVal m i p + 4 * k

/-- The slot exists in memory: its index block has been allocated. -/
def Live (m : Mem) (i : Nat) : Slot → Prop
  | .field _ => True
  | .entry p _ => slotVal m i p ≠ 0

/-- `f_size` of inode `i`. -/
def fileSize (m : Mem) (i : Nat) : Nat := m.load (INode.fSize i) 8

/-- `f_type` of inode `i`. -/
def fileType (m : Mem) (i : Nat) : Nat := m.load (INode.fType i) 2

/-- The number of block `k` of the file of inode `i`, zero when it has none. -/
def fileBlk (m : Mem) (i k : Nat) : Nat := slotVal m i (dataSlot k)

/-- The bytes of the file of inode `i`, zero where no block is mapped. -/
def content (m : Mem) (i : Nat) : Mem := fun o =>
  if o / 4096 < maxBlocks ∧ fileBlk m i (o / 4096) ≠ 0 then
    m (4096 * fileBlk m i (o / 4096) + o % 4096)
  else 0

theorem content_of_mapped {m : Mem} {i o : Nat} (hk : o / 4096 < 1049616)
    (hv : fileBlk m i (o / 4096) ≠ 0) :
    content m i o = m (4096 * fileBlk m i (o / 4096) + o % 4096) :=
  if_pos ⟨hk, hv⟩

theorem content_of_unmapped {m : Mem} {i o : Nat} (hv : fileBlk m i (o / 4096) = 0) :
    content m i o = 0 :=
  if_neg fun h => h.2 hv

theorem content_of_ge {m : Mem} {i o : Nat} (hk : 1049616 ≤ o / 4096) : content m i o = 0 :=
  if_neg fun h => Nat.not_lt.mpr hk h.1

/-- A range inside one mapped block reads as it lies in memory. -/
theorem load_content {m : Mem} {i o n : Nat} (hk : o / 4096 < 1049616)
    (hv : fileBlk m i (o / 4096) ≠ 0) (hn : o % 4096 + n ≤ 4096) :
    (content m i).load o n = m.load (4096 * fileBlk m i (o / 4096) + o % 4096) n := by
  refine Mem.load_eq_load fun k hk' => ?_
  have hdiv : (o + k) / 4096 = o / 4096 := by omega
  have hmod : (o + k) % 4096 = o % 4096 + k := by omega
  rw [content_of_mapped (by omega) (by rwa [hdiv]), hdiv, hmod, Nat.add_assoc]

theorem slotVal_field (m : Mem) (i k : Nat) :
    slotVal m i (.field k) = m.load (slotAddr m i (.field k)) 4 := rfl

theorem slotVal_entry_of_zero {m : Mem} {i k : Nat} {p : Slot} (h : slotVal m i p = 0) :
    slotVal m i (.entry p k) = 0 := by
  simp only [slotVal, if_pos h]

theorem slotVal_entry {m : Mem} {i k : Nat} {p : Slot} (h : slotVal m i p ≠ 0) :
    slotVal m i (.entry p k) = m.load (4096 * slotVal m i p + 4 * k) 4 := by
  simp only [slotVal, if_neg h]

theorem load_slotAddr {m : Mem} {i : Nat} {σ : Slot} (h : Live m i σ) :
    m.load (slotAddr m i σ) 4 = slotVal m i σ := by
  cases σ with
  | field k => rfl
  | entry p k =>
      simp only [slotAddr, slotVal]
      rw [if_neg h]

theorem live_of_slotVal_ne_zero {m : Mem} {i : Nat} {σ : Slot} (h : slotVal m i σ ≠ 0) :
    Live m i σ := by
  cases σ with
  | field k => trivial
  | entry p k =>
      intro hp
      exact h (by simp only [slotVal, if_pos hp])

/-- Slots read the block-number fields of their inode and its index blocks only. -/
theorem slotVal_congr {m m' : Mem} {i : Nat}
    (hfield : ∀ x, INode.addr i + 20 ≤ x → x < INode.addr i + 92 → m' x = m x)
    (hindex : ∀ p : Slot, p.Valid → p.isIndex → slotVal m i p ≠ 0 →
      ∀ x, 4096 * slotVal m i p ≤ x → x < 4096 * slotVal m i p + 4096 → m' x = m x)
    {σ : Slot} (hσ : σ.Valid) : slotVal m' i σ = slotVal m i σ := by
  induction σ with
  | field k =>
      have hk : k < 18 := hσ
      simp only [slotVal]
      refine Mem.load_congr fun x hx hx' => ?_
      exact hfield x (by omega) (by omega)
  | entry p k ih =>
      obtain ⟨hp, hidx, hk⟩ := hσ
      simp only [slotVal, ih hp]
      split
      · rfl
      · rename_i hne
        exact Mem.load_congr fun x hx hx' => hindex p hp hidx hne x (by omega) (by omega)

/-! ## The invariant -/

/-- Block ownership over the inodes `0 ... last`.  The pool is the set of blocks
strictly between `lo` and `hi`; it lies below the metadata. -/
structure Ownership (lo hi last : Nat) (s : ParchFS) : Prop where
  mapped_ge : 0x80000000 ≤ s.mapped
  pool_below_metadata : hi ≤ 0x7FDDE
  lo_lt : lo < 0x7FDDE
  last_lt : last < 8192
  inodeBit_iff : ∀ no, no < 32768 → (inodeBit s.mem no = true ↔ no ≤ last)
  mmBit_eq : ∀ b, b < 524288 → mmBit s.mem b = fsBit s.mem b
  low_marked : ∀ b, b ≤ lo → b < 524288 → fsBit s.mem b = true
  in_pool : ∀ i, i ≤ last → ∀ σ : Slot, σ.Valid → slotVal s.mem i σ ≠ 0 →
    lo < slotVal s.mem i σ ∧ slotVal s.mem i σ < hi
  marked : ∀ i, i ≤ last → ∀ σ : Slot, σ.Valid → slotVal s.mem i σ ≠ 0 →
    fsBit s.mem (slotVal s.mem i σ) = true
  unique : ∀ i j, i ≤ last → j ≤ last → ∀ σ τ : Slot, σ.Valid → τ.Valid →
    slotVal s.mem i σ ≠ 0 → slotVal s.mem i σ = slotVal s.mem j τ → i = j ∧ σ = τ
  no_leak : ∀ b, lo < b → b < hi → fsBit s.mem b = true →
    ∃ i σ, i ≤ last ∧ σ.Valid ∧ slotVal s.mem i σ = b

/-- Every block from `hi` on is marked, so that the pool is all there is. -/
def Closed (hi : Nat) (m : Mem) : Prop := ∀ b, hi ≤ b → b < 524288 → fsBit m b = true

/-- The number of blocks below `hi` that are not marked. -/
def freeCount (hi : Nat) (m : Mem) : Nat :=
  ((Finset.range hi).filter fun b => fsBit m b = false).card

namespace Ownership

variable {lo hi last : Nat} {s : ParchFS} {i j b : Nat} {σ τ : Slot}

/-- A block in a slot lies in the pool, so `get_blk` finds it marked. -/
theorem getBlk_slotVal (h : Ownership lo hi last s) (hi' : i ≤ last) (hσ : σ.Valid)
    (hv : slotVal s.mem i σ ≠ 0) :
    getBlk (slotVal s.mem i σ) s = .ok (4096 * slotVal s.mem i σ, s) := by
  have hpool := h.pool_below_metadata
  obtain ⟨-, hlt⟩ := h.in_pool i hi' σ hσ hv
  have hmarked := h.marked i hi' σ hσ hv
  refine getBlk_eq h.mapped_ge (by omega) hmarked ?_
  rw [h.mmBit_eq _ (by omega), hmarked]

/-- An unmarked block is in no slot. -/
theorem slotVal_ne_of_clear (h : Ownership lo hi last s) (hb : b ≠ 0)
    (hclear : fsBit s.mem b = false) (hi' : i ≤ last) (hσ : σ.Valid) :
    slotVal s.mem i σ ≠ b := by
  intro heq
  have hmarked := h.marked i hi' σ hσ (by omega)
  rw [heq, hclear] at hmarked
  cases hmarked

/-- The four bytes of a live slot lie in the inode table or in a block of the
pool that a slot of the same inode holds. -/
theorem slotAddr_cases (h : Ownership lo hi last s) (hi' : i ≤ last) (hσ : σ.Valid)
    (hlive : Live s.mem i σ) :
    (∃ k, σ = .field k ∧ k < 18 ∧ slotAddr s.mem i σ = INode.addr i + 20 + 4 * k) ∨
    (∃ p k, σ = .entry p k ∧ p.Valid ∧ p.isIndex ∧ k < 1024 ∧ slotVal s.mem i p ≠ 0 ∧
      lo < slotVal s.mem i p ∧ slotVal s.mem i p < hi ∧
      slotAddr s.mem i σ = 4096 * slotVal s.mem i p + 4 * k) := by
  cases σ with
  | field k => exact Or.inl ⟨k, rfl, hσ, rfl⟩
  | entry p k =>
      obtain ⟨hp, hidx, hk⟩ := hσ
      obtain ⟨hlo, hhi⟩ := h.in_pool i hi' p hp hlive
      exact Or.inr ⟨p, k, rfl, hp, hidx, hk, hlive, hlo, hhi, rfl⟩

/-- A live slot is inside the mapping. -/
theorem slotAddr_le (h : Ownership lo hi last s) (hi' : i ≤ last) (hσ : σ.Valid)
    (hlive : Live s.mem i σ) : slotAddr s.mem i σ + 4 ≤ 0x7FFDE000 := by
  have hlast := h.last_lt
  have hpool := h.pool_below_metadata
  obtain ⟨k, -, hk, heq⟩ | ⟨p, k, -, -, -, hk, -, -, hhi, heq⟩ := h.slotAddr_cases hi' hσ hlive
  · rw [heq, INode.addr_eq]
    omega
  · rw [heq]
    omega

end Ownership

/-! ## Frames -/

/-- The contents of an inode depend on its slots and its data blocks only. -/
theorem content_congr {m m' : Mem} {i : Nat}
    (hslots : ∀ σ : Slot, σ.Valid → slotVal m' i σ = slotVal m i σ)
    (hdata : ∀ k, k < 1049616 → fileBlk m i k ≠ 0 →
      ∀ x, 4096 * fileBlk m i k ≤ x → x < 4096 * fileBlk m i k + 4096 → m' x = m x) :
    content m' i = content m i := by
  funext o
  by_cases hk : o / 4096 < 1049616
  swap
  · rw [content_of_ge (by omega), content_of_ge (by omega)]
  have hblk : fileBlk m' i (o / 4096) = fileBlk m i (o / 4096) := hslots _ (dataSlot_valid hk)
  by_cases hv : fileBlk m i (o / 4096) = 0
  · rw [content_of_unmapped hv, content_of_unmapped (hblk.trans hv)]
  · rw [content_of_mapped hk hv, content_of_mapped hk (by rw [hblk]; exact hv), hblk]
    exact hdata _ hk hv _ (by omega) (by omega)

theorem freeCount_congr {m m' : Mem} {hi : Nat} (hhi : hi ≤ 524288)
    (hbits : ∀ x, 0x7FFEF000 ≤ x → x < 0x7FFFF000 → m' x = m x) :
    freeCount hi m' = freeCount hi m := by
  unfold freeCount
  congr 1
  refine Finset.filter_congr fun b hb => ?_
  rw [fsBit_congr (by have := Finset.mem_range.mp hb; omega) hbits]

namespace Ownership

variable {lo hi last : Nat} {s : ParchFS}

/-- A change outside the block-number fields, the index blocks and the bitmaps
keeps every slot and the invariant. -/
theorem of_frame (h : Ownership lo hi last s) (s' : ParchFS) (hmapped : s'.mapped = s.mapped)
    (hfield : ∀ j, j ≤ last → ∀ x, INode.addr j + 20 ≤ x → x < INode.addr j + 92 →
      s'.mem x = s.mem x)
    (hindex : ∀ j, j ≤ last → ∀ p : Slot, p.Valid → p.isIndex → slotVal s.mem j p ≠ 0 →
      ∀ x, 4096 * slotVal s.mem j p ≤ x → x < 4096 * slotVal s.mem j p + 4096 →
        s'.mem x = s.mem x)
    (hbits : ∀ x, 0x7FFDE000 ≤ x → x < 0x7FFFF000 → s'.mem x = s.mem x) :
    Ownership lo hi last s' ∧
      ∀ j, j ≤ last → ∀ σ : Slot, σ.Valid → slotVal s'.mem j σ = slotVal s.mem j σ := by
  have hslots : ∀ j, j ≤ last → ∀ σ : Slot, σ.Valid → slotVal s'.mem j σ = slotVal s.mem j σ :=
    fun j hj σ hσ => slotVal_congr (hfield j hj) (hindex j hj) hσ
  have hfs : ∀ b, b < 524288 → fsBit s'.mem b = fsBit s.mem b :=
    fun b hb => fsBit_congr hb fun x hx hx' => hbits x (by omega) (by omega)
  have hmm : ∀ b, b < 524288 → mmBit s'.mem b = mmBit s.mem b :=
    fun b hb => mmBit_congr hb fun x hx hx' => hbits x (by omega) (by omega)
  have hpool := h.pool_below_metadata
  refine ⟨⟨hmapped ▸ h.mapped_ge, hpool, h.lo_lt, h.last_lt, ?_, ?_, ?_, ?_, ?_, ?_, ?_⟩, hslots⟩
  · intro no hno
    rw [inodeBit_congr hno fun x hx hx' => hbits x (by omega) (by omega)]
    exact h.inodeBit_iff no hno
  · intro b hb
    rw [hfs b hb, hmm b hb, h.mmBit_eq b hb]
  · intro b hb hb'
    rw [hfs b hb', h.low_marked b hb hb']
  · intro i hi' σ hσ
    rw [hslots i hi' σ hσ]
    exact h.in_pool i hi' σ hσ
  · intro i hi' σ hσ hv
    rw [hslots i hi' σ hσ] at hv ⊢
    obtain ⟨-, hlt⟩ := h.in_pool i hi' σ hσ hv
    rw [hfs _ (by omega), h.marked i hi' σ hσ hv]
  · intro i j hi' hj σ τ hσ hτ hv heq
    rw [hslots i hi' σ hσ] at hv heq
    rw [hslots j hj τ hτ] at heq
    exact h.unique i j hi' hj σ τ hσ hτ hv heq
  · intro b hb hb' hmarked
    rw [hfs b (by omega)] at hmarked
    obtain ⟨i, σ, hi', hσ, hv⟩ := h.no_leak b hb hb' hmarked
    exact ⟨i, σ, hi', hσ, by rw [hslots i hi' σ hσ, hv]⟩

end Ownership

end ParchTestbench
