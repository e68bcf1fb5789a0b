import ParchTestbench.ParchFS.Ownership

/-!
# ParchFS: allocating a block into a slot

The one step by which the block map grows: `*p = fs->alloc_blk()` for the address
`p` of an empty slot.  It updates the slot map at one point, keeps the ownership
invariant, and leaves the contents of every inode as they were.

Main results:

- Theorem `slotVal_allocIntoMem`: the slot map changes at the given slot only.
- Theorem `Ownership.allocInto`: the step keeps the invariant.
- Theorem `allocIfBad_outcome`: the guarded step fills its slot or stops with a
  full block bitmap.
-/

namespace ParchTestbench

open ParchFS Program

/-! ## What an operation on one inode leaves unchanged -/

/-- Between `s` and `s'` inode `i` may have been given blocks, bytes and a larger
size.  Everything else is as before: the blocks up to `lo`, the inode table and
inode bitmap but for the block numbers and the size of `i`, the super block but for
its free block counter, the filled slots, the contents of the other inodes, and the bits
beyond the pool. -/
structure Touches (lo hi last i : Nat) (s s' : ParchFS) : Prop where
  state : s' = s.withMem s'.mem
  low : ∀ x, x < 4096 * (lo + 1) → s'.mem x = s.mem x
  table : ∀ x, 0x7FDDE000 ≤ x → x < 0x7FFDF000 →
    (x < INode.addr i + 20 ∨ INode.addr i + 92 ≤ x) →
    (x < INode.addr i + 96 ∨ INode.addr i + 104 ≤ x) → s'.mem x = s.mem x
  super : ∀ x, 0x7FFFF000 ≤ x → x < 0x7FFFF120 ∨ 0x7FFFF128 ≤ x → s'.mem x = s.mem x
  slots : ∀ j, j ≤ last → ∀ σ : Slot, σ.Valid → j ≠ i ∨ slotVal s.mem j σ ≠ 0 →
    slotVal s'.mem j σ = slotVal s.mem j σ
  others : ∀ j, j ≤ last → j ≠ i → content s'.mem j = content s.mem j
  marks : ∀ b, hi ≤ b → b < 524288 → fsBit s'.mem b = fsBit s.mem b
  counter : (s'.mem.load SuperBlock.freeBlock 8 + freeCount hi s.mem) % 2 ^ 64 =
    (s.mem.load SuperBlock.freeBlock 8 + freeCount hi s'.mem) % 2 ^ 64

/-- Inode `i` has been given blocks or a size, but no bytes. -/
structure Grows (lo hi last i : Nat) (s s' : ParchFS) : Prop
    extends Touches lo hi last i s s' where
  own : content s'.mem i = content s.mem i

namespace Touches

variable {lo hi last i : Nat} {s s' s'' : ParchFS}

theorem refl : Touches lo hi last i s s where
  state := rfl
  low _ _ := rfl
  table _ _ _ _ _ := rfl
  super _ _ _ := rfl
  slots _ _ _ _ _ := rfl
  others _ _ _ := rfl
  marks _ _ _ := rfl
  counter := rfl

theorem trans (h : Touches lo hi last i s s') (h' : Touches lo hi last i s' s'') :
    Touches lo hi last i s s'' where
  state := by
    rw [h'.state, h.state]
    rfl
  low x hx := (h'.low x hx).trans (h.low x hx)
  table x hx hx' hb hf := (h'.table x hx hx' hb hf).trans (h.table x hx hx' hb hf)
  super x hx hx' := (h'.super x hx hx').trans (h.super x hx hx')
  slots j hj σ hσ hne := by
    have hfirst := h.slots j hj σ hσ hne
    rw [h'.slots j hj σ hσ (hne.imp_right fun hv => by rwa [hfirst]), hfirst]
  others j hj hne := (h'.others j hj hne).trans (h.others j hj hne)
  marks b hb hb' := (h'.marks b hb hb').trans (h.marks b hb hb')
  counter := by
    have h1 := h.counter
    have h2 := h'.counter
    omega

theorem mapped (h : Touches lo hi last i s s') : s'.mapped = s.mapped := by
  rw [h.state, mapped_withMem]

theorem closed (h : Touches lo hi last i s s') (hclosed : Closed hi s.mem) : Closed hi s'.mem :=
  fun b hb hb' => (h.marks b hb hb').trans (hclosed b hb hb')

/-- A filled slot keeps its block. -/
theorem keep (h : Touches lo hi last i s s') {j : Nat} (hj : j ≤ last) {σ : Slot} (hσ : σ.Valid)
    (hv : slotVal s.mem j σ ≠ 0) : slotVal s'.mem j σ = slotVal s.mem j σ :=
  h.slots j hj σ hσ (Or.inr hv)

/-- The other inodes keep their 256 bytes. -/
theorem inode (h : Touches lo hi last i s s') {j x : Nat} (hj : j < 8192) (hne : j ≠ i)
    (hx : INode.addr j ≤ x) (hx' : x < INode.addr j + 256) : s'.mem x = s.mem x := by
  rw [INode.addr_eq] at hx hx'
  refine h.table x (by omega) (by omega) ?_ ?_ <;> rw [INode.addr_eq] <;> omega

theorem fileSize (h : Touches lo hi last i s s') {j : Nat} (hj : j < 8192) (hne : j ≠ i) :
    fileSize s'.mem j = fileSize s.mem j :=
  Mem.load_congr fun x hx hx' => h.inode hj hne
    (by rw [INode.fSize_eq] at hx; rw [INode.addr_eq]; omega)
    (by rw [INode.fSize_eq] at hx'; rw [INode.addr_eq]; omega)

end Touches

namespace Grows

variable {lo hi last i : Nat} {s s' s'' : ParchFS}

theorem refl : Grows lo hi last i s s := ⟨Touches.refl, rfl⟩

theorem trans (h : Grows lo hi last i s s') (h' : Grows lo hi last i s' s'') :
    Grows lo hi last i s s'' :=
  ⟨h.toTouches.trans h'.toTouches, h'.own.trans h.own⟩

end Grows

/-! ## One allocation -/

/-- The memory after `*p = fs->alloc_blk()` has handed out block `b`. -/
def allocIntoMem (m : Mem) (p b : Nat) : Mem := (allocMem m b).store p 4 b

section Step

variable {lo hi last i j b : Nat} {s : ParchFS} {σ τ : Slot}

theorem allocIntoMem_of_notMem {m : Mem} {p x : Nat} (hb : b < 524288)
    (hblk : x < 4096 * b ∨ 4096 * b + 4096 ≤ x) (hmeta : x < 0x7FFDF000 ∨ 0x7FFFF000 ≤ x)
    (hfree : x < 0x7FFFF120 ∨ 0x7FFFF128 ≤ x) (hp : x < p ∨ p + 4 ≤ x) :
    allocIntoMem m p b x = m x := by
  unfold allocIntoMem
  rw [Mem.store_of_notMem hp, allocMem_of_notMem hb hblk hmeta hfree]

/-- The new block is zero but for the slot, which lies elsewhere. -/
theorem allocIntoMem_of_mem {m : Mem} {p x : Nat} (hx : 4096 * b ≤ x) (hx' : x < 4096 * b + 4096)
    (hp : x < p ∨ p + 4 ≤ x) : allocIntoMem m p b x = 0 := by
  unfold allocIntoMem
  rw [Mem.store_of_notMem hp, allocMem_of_mem hx hx']

/-- The bytes of the slot and those of the new block do not meet. -/
theorem Ownership.slotAddr_disjoint (h : Ownership lo hi last s) (hi' : i ≤ last) (hσ : σ.Valid)
    (hlive : Live s.mem i σ) (hlo : lo < b) (hhi : b < hi) (hclear : fsBit s.mem b = false) :
    slotAddr s.mem i σ + 4 ≤ 4096 * b ∨ 4096 * b + 4096 ≤ slotAddr s.mem i σ := by
  have hpool := h.pool_below_metadata
  obtain ⟨k, -, hk, heq⟩ | ⟨p, k, -, hp, -, hk, -, -, -, heq⟩ := h.slotAddr_cases hi' hσ hlive
  · rw [heq, INode.addr_eq]
    omega
  · have hne := h.slotVal_ne_of_clear (by omega) hclear hi' hp
    rw [heq]
    omega

/-- Two live slots at different places have disjoint bytes. -/
theorem Ownership.slotAddr_ne (h : Ownership lo hi last s) (hi' : i ≤ last) (hσ : σ.Valid)
    (hlive : Live s.mem i σ) (hj : j ≤ last) (hτ : τ.Valid) (hlive' : Live s.mem j τ)
    (hne : ¬ (j = i ∧ τ = σ)) :
    slotAddr s.mem j τ + 4 ≤ slotAddr s.mem i σ ∨ slotAddr s.mem i σ + 4 ≤ slotAddr s.mem j τ := by
  have hpool := h.pool_below_metadata
  obtain ⟨k, rfl, hk, heq⟩ | ⟨p, k, rfl, hp, -, hk, hpv, -, hphi, heq⟩ :=
    h.slotAddr_cases hi' hσ hlive <;>
  obtain ⟨l, rfl, hl, heq'⟩ | ⟨q, l, rfl, hq, -, hl, hqv, -, hqhi, heq'⟩ :=
    h.slotAddr_cases hj hτ hlive'
  · have hdiff : ¬ (j = i ∧ l = k) := fun hjl => hne ⟨hjl.1, by rw [hjl.2]⟩
    rw [heq, heq', INode.addr_eq, INode.addr_eq]
    omega
  · rw [heq, heq', INode.addr_eq]
    omega
  · rw [heq, heq', INode.addr_eq]
    omega
  · -- two entries of index blocks: equal blocks belong to one slot
    rw [heq, heq']
    by_cases hblk : slotVal s.mem j q = slotVal s.mem i p
    · obtain ⟨rfl, rfl⟩ := h.unique j i hj hi' q p hq hp hqv hblk
      have hlk : l ≠ k := fun hlk => hne ⟨rfl, by rw [hlk]⟩
      omega
    · omega

/-- The slot map changes at the given slot only. -/
theorem slotVal_allocIntoMem (h : Ownership lo hi last s) (hi' : i ≤ last) (hσ : σ.Valid)
    (hlive : Live s.mem i σ) (hzero : slotVal s.mem i σ = 0) (hlo : lo < b) (hhi : b < hi)
    (hclear : fsBit s.mem b = false) (hj : j ≤ last) (hτ : τ.Valid) :
    slotVal (allocIntoMem s.mem (slotAddr s.mem i σ) b) j τ =
      if j = i ∧ τ = σ then b else slotVal s.mem j τ := by
  have hpool := h.pool_below_metadata
  have hlast := h.last_lt
  have hdisj := h.slotAddr_disjoint hi' hσ hlive hlo hhi hclear
  have hself : (allocIntoMem s.mem (slotAddr s.mem i σ) b).load (slotAddr s.mem i σ) 4 = b :=
    Mem.load_store_of_lt (by omega)
  -- a live slot elsewhere reads as before
  have hother : ∀ ρ : Slot, ρ.Valid → Live s.mem j ρ → ¬ (j = i ∧ ρ = σ) →
      (allocIntoMem s.mem (slotAddr s.mem i σ) b).load (slotAddr s.mem j ρ) 4 =
        slotVal s.mem j ρ := by
    intro ρ hρ hlive' hne
    have hdisj' := h.slotAddr_disjoint hj hρ hlive' hlo hhi hclear
    have hne' := h.slotAddr_ne hi' hσ hlive hj hρ hlive' hne
    have hle := h.slotAddr_le hj hρ hlive'
    rw [← load_slotAddr hlive']
    exact Mem.load_congr fun x hx hx' =>
      allocIntoMem_of_notMem (by omega) (by omega) (by omega) (by omega) (by omega)
  induction τ with
  | field k =>
      rw [slotVal_field]
      split
      · rename_i hsame
        obtain ⟨rfl, rfl⟩ := hsame
        exact hself
      · rename_i hne
        exact hother (.field k) hτ trivial hne
  | entry p k ih =>
      obtain ⟨hp, hidx, hk⟩ := hτ
      have hpv := ih hp
      by_cases hchild : j = i ∧ p = σ
      · -- the entries of the block just handed out are zero
        obtain ⟨rfl, rfl⟩ := hchild
        rw [if_pos ⟨rfl, rfl⟩] at hpv
        have hne : ¬ (j = j ∧ Slot.entry p k = p) := fun hc => by
          have hsize := congrArg sizeOf hc.2
          simp only [Slot.entry.sizeOf_spec] at hsize
          omega
        rw [if_neg hne, slotVal_entry_of_zero hzero, slotVal_entry (by omega), hpv]
        exact Mem.load_eq_zero fun x hx hx' => allocIntoMem_of_mem (by omega) (by omega) (by omega)
      · rw [if_neg hchild] at hpv
        by_cases hv : slotVal s.mem j p = 0
        · have hne : ¬ (j = i ∧ Slot.entry p k = σ) := by
            rintro ⟨rfl, rfl⟩
            exact hlive hv
          rw [if_neg hne, slotVal_entry_of_zero hv, slotVal_entry_of_zero (hpv.trans hv)]
        · rw [slotVal_entry (by omega), hpv]
          split
          · rename_i hsame
            obtain ⟨rfl, rfl⟩ := hsame
            exact hself
          · rename_i hne
            exact hother (.entry p k) ⟨hp, hidx, hk⟩ hv hne

/-- Handing out a block changes the contents of no inode. -/
theorem content_allocIntoMem (h : Ownership lo hi last s) (hi' : i ≤ last) (hσ : σ.Valid)
    (hlive : Live s.mem i σ) (hzero : slotVal s.mem i σ = 0) (hlo : lo < b) (hhi : b < hi)
    (hclear : fsBit s.mem b = false) (hj : j ≤ last) :
    content (allocIntoMem s.mem (slotAddr s.mem i σ) b) j = content s.mem j := by
  have hpool := h.pool_below_metadata
  have hdisj := h.slotAddr_disjoint hi' hσ hlive hlo hhi hclear
  funext o
  by_cases hk : o / 4096 < 1049616
  swap
  · rw [content_of_ge (by omega), content_of_ge (by omega)]
  have hvalid := dataSlot_valid hk
  have hblk := slotVal_allocIntoMem h hi' hσ hlive hzero hlo hhi hclear hj hvalid
  by_cases hsame : j = i ∧ dataSlot (o / 4096) = σ
  · -- the new block is zero, as the missing block was
    rw [if_pos hsame] at hblk
    obtain ⟨rfl, hsame⟩ := hsame
    have hold : fileBlk s.mem j (o / 4096) = 0 := by rw [fileBlk, hsame, hzero]
    rw [content_of_unmapped hold, content_of_mapped hk (by rw [fileBlk, hblk]; omega), fileBlk,
      hblk]
    exact allocIntoMem_of_mem (by omega) (by omega) (by omega)
  · rw [if_neg hsame] at hblk
    by_cases hv : fileBlk s.mem j (o / 4096) = 0
    · rw [content_of_unmapped hv, content_of_unmapped (hblk.trans hv)]
    · rw [content_of_mapped hk hv, content_of_mapped hk (by rw [fileBlk, hblk]; exact hv), fileBlk,
        fileBlk, hblk]
      have hvne := h.slotVal_ne_of_clear (by omega) hclear hj hvalid
      obtain ⟨-, hvhi⟩ := h.in_pool j hj _ hvalid hv
      -- the slot lies in the table or in an index block, never in a data block
      have haddr : slotAddr s.mem i σ + 4 ≤ 4096 * slotVal s.mem j (dataSlot (o / 4096)) ∨
          4096 * slotVal s.mem j (dataSlot (o / 4096)) + 4096 ≤ slotAddr s.mem i σ := by
        obtain ⟨k, -, hk', heq⟩ | ⟨p, k, -, hp, hidx, hk', hpv, -, -, heq⟩ :=
          h.slotAddr_cases hi' hσ hlive
        · rw [heq, INode.addr_eq]
          omega
        · have hne : slotVal s.mem i p ≠ slotVal s.mem j (dataSlot (o / 4096)) := by
            intro hc
            obtain ⟨-, rfl⟩ := h.unique i j hi' hj p _ hp hvalid hpv hc
            exact dataSlot_not_isIndex _ hidx
          rw [heq]
          omega
      exact allocIntoMem_of_notMem (by omega) (by omega) (by omega) (by omega) (by omega)

theorem fsBit_allocIntoMem {m : Mem} {p q : Nat} (hb : b < 0x7FFDF) (hp : p + 4 ≤ 0x7FFDE000)
    (hq : q < 524288) : fsBit (allocIntoMem m p b) q = (decide (q = b) || fsBit m q) := by
  rw [← fsBit_allocMem (by omega) (by omega) hq]
  exact fsBit_congr hq fun x hx hx' => Mem.store_of_notMem (by omega)

theorem mmBit_allocIntoMem {m : Mem} {p q : Nat} (hb : b < 0x7FFDF) (hp : p + 4 ≤ 0x7FFDE000)
    (hq : q < 524288) : mmBit (allocIntoMem m p b) q = (decide (q = b) || mmBit m q) := by
  rw [← mmBit_allocMem hb hq]
  exact mmBit_congr hq fun x hx hx' => Mem.store_of_notMem (by omega)

/-- One free block less. -/
theorem freeCount_allocIntoMem {m : Mem} {p : Nat} (hpool : hi ≤ 0x7FDDE) (hhi : b < hi)
    (hp : p + 4 ≤ 0x7FFDE000) (hclear : fsBit m b = false) :
    freeCount hi m = freeCount hi (allocIntoMem m p b) + 1 := by
  have hset : ((Finset.range hi).filter fun q => fsBit (allocIntoMem m p b) q = false) =
      ((Finset.range hi).filter fun q => fsBit m q = false).erase b := by
    ext q
    simp only [Finset.mem_filter, Finset.mem_range, Finset.mem_erase]
    constructor
    · rintro ⟨hq, hbit⟩
      rw [fsBit_allocIntoMem (by omega) hp (by omega)] at hbit
      simp only [Bool.or_eq_false_iff, decide_eq_false_iff_not] at hbit
      exact ⟨hbit.1, hq, hbit.2⟩
    · rintro ⟨hne, hq, hbit⟩
      refine ⟨hq, ?_⟩
      rw [fsBit_allocIntoMem (by omega) hp (by omega), hbit]
      simp [hne]
  have hmem : b ∈ (Finset.range hi).filter fun q => fsBit m q = false := by
    simp only [Finset.mem_filter, Finset.mem_range]
    exact ⟨hhi, hclear⟩
  unfold freeCount
  rw [hset, Finset.card_erase_of_mem hmem]
  have := Finset.card_pos.mpr ⟨b, hmem⟩
  omega

theorem fileSize_allocIntoMem (h : Ownership lo hi last s) (hi' : i ≤ last) (hσ : σ.Valid)
    (hlive : Live s.mem i σ) (hlo : lo < b) (hhi : b < hi) (hj : j ≤ last) :
    fileSize (allocIntoMem s.mem (slotAddr s.mem i σ) b) j = fileSize s.mem j := by
  have hpool := h.pool_below_metadata
  have hlast := h.last_lt
  refine Mem.load_congr fun x hx hx' => ?_
  rw [INode.fSize_eq] at hx hx'
  refine allocIntoMem_of_notMem (by omega) (by omega) (by omega) (by omega) ?_
  obtain ⟨k, -, hk, heq⟩ | ⟨p, k, -, -, -, hk, -, -, hphi, heq⟩ := h.slotAddr_cases hi' hσ hlive
  · rw [heq, INode.addr_eq]
    omega
  · rw [heq]
    omega

/-- The free block counter goes down by one, modulo its 64 bits. -/
theorem freeBlock_allocIntoMem {m : Mem} {p : Nat} (hb : b < 0x7FFDE) (hp : p + 4 ≤ 0x7FFDE000) :
    (allocIntoMem m p b).load SuperBlock.freeBlock 8 =
      (m.load SuperBlock.freeBlock 8 + (2 ^ 64 - 1)) % 2 ^ 64 := by
  unfold allocIntoMem allocMem
  rw [Mem.load_store_of_disjoint (by rw [SuperBlock.freeBlock_eq]; omega),
    Mem.load_fill_of_disjoint (by rw [SuperBlock.freeBlock_eq]; omega), Mem.load_store]
  norm_num

/-- The step keeps the invariant. -/
theorem Ownership.allocInto (h : Ownership lo hi last s) (hi' : i ≤ last) (hσ : σ.Valid)
    (hlive : Live s.mem i σ) (hzero : slotVal s.mem i σ = 0) (hlo : lo < b) (hhi : b < hi)
    (hclear : fsBit s.mem b = false) :
    Ownership lo hi last (s.withMem (allocIntoMem s.mem (slotAddr s.mem i σ) b)) := by
  have hpool := h.pool_below_metadata
  have hlast := h.last_lt
  have hle := h.slotAddr_le hi' hσ hlive
  have hval : ∀ j, j ≤ last → ∀ τ : Slot, τ.Valid →
      slotVal (allocIntoMem s.mem (slotAddr s.mem i σ) b) j τ =
        if j = i ∧ τ = σ then b else slotVal s.mem j τ :=
    fun j hj τ hτ => slotVal_allocIntoMem h hi' hσ hlive hzero hlo hhi hclear hj hτ
  have hbit : ∀ q, q < 524288 → fsBit (allocIntoMem s.mem (slotAddr s.mem i σ) b) q =
      (decide (q = b) || fsBit s.mem q) :=
    fun q hq => fsBit_allocIntoMem (by omega) hle hq
  have hold : ∀ j, j ≤ last → ∀ τ : Slot, τ.Valid → slotVal s.mem j τ ≠ b :=
    fun j hj τ hτ => h.slotVal_ne_of_clear (by omega) hclear hj hτ
  refine ⟨h.mapped_ge, hpool, h.lo_lt, hlast, ?_, ?_, ?_, ?_, ?_, ?_, ?_⟩ <;>
    simp only [mem_withMem]
  · intro no hno
    rw [inodeBit_congr hno fun x hx hx' => allocIntoMem_of_notMem (by omega) (by omega) (by omega)
      (by omega) (by omega)]
    exact h.inodeBit_iff no hno
  · intro q hq
    rw [hbit q hq, mmBit_allocIntoMem (by omega) hle hq, h.mmBit_eq q hq]
  · intro q hq hq'
    rw [hbit q hq', h.low_marked q hq hq', Bool.or_true]
  · intro j hj τ hτ
    rw [hval j hj τ hτ]
    split
    · intro _
      exact ⟨hlo, hhi⟩
    · exact h.in_pool j hj τ hτ
  · intro j hj τ hτ
    rw [hval j hj τ hτ]
    split
    · intro _
      rw [hbit b (by omega)]
      simp
    · intro hv
      have hr := h.in_pool j hj τ hτ hv
      rw [hbit _ (by omega), h.marked j hj τ hτ hv, Bool.or_true]
  · intro j j' hj hj' τ τ' hτ hτ'
    rw [hval j hj τ hτ, hval j' hj' τ' hτ']
    split <;> split
    · rename_i h1 h2
      intro _ _
      exact ⟨h1.1.trans h2.1.symm, h1.2.trans h2.2.symm⟩
    · intro _ heq
      exact absurd heq.symm (hold j' hj' τ' hτ')
    · intro _ heq
      exact absurd heq (hold j hj τ hτ)
    · exact h.unique j j' hj hj' τ τ' hτ hτ'
  · intro q hq hq' hmarked
    by_cases hqb : q = b
    · subst hqb
      refine ⟨i, σ, hi', hσ, ?_⟩
      rw [hval i hi' σ hσ, if_pos ⟨rfl, rfl⟩]
    · rw [hbit q (by omega)] at hmarked
      simp only [hqb, decide_false, Bool.false_or] at hmarked
      obtain ⟨j, τ, hj, hτ, hv⟩ := h.no_leak q hq hq' hmarked
      refine ⟨j, τ, hj, hτ, ?_⟩
      rw [hval j hj τ hτ, if_neg, hv]
      rintro ⟨rfl, rfl⟩
      omega

/-- The step only makes inode `i` grow. -/
theorem Ownership.allocInto_grows (h : Ownership lo hi last s) (hi' : i ≤ last) (hσ : σ.Valid)
    (hlive : Live s.mem i σ) (hzero : slotVal s.mem i σ = 0) (hlo : lo < b) (hhi : b < hi)
    (hclear : fsBit s.mem b = false) :
    Grows lo hi last i s (s.withMem (allocIntoMem s.mem (slotAddr s.mem i σ) b)) := by
  have hpool := h.pool_below_metadata
  have hlast := h.last_lt
  have hle := h.slotAddr_le hi' hσ hlive
  have hcases := h.slotAddr_cases hi' hσ hlive
  have hcontent := fun j hj =>
    content_allocIntoMem (j := j) h hi' hσ hlive hzero hlo hhi hclear hj
  refine ⟨⟨rfl, ?_, ?_, ?_, ?_, fun j hj _ => hcontent j hj, ?_, ?_⟩, hcontent i hi'⟩ <;>
    simp only [mem_withMem]
  · intro x hx
    refine allocIntoMem_of_notMem (by omega) (by omega) (by omega) (by omega) ?_
    obtain ⟨k, -, hk, heq⟩ | ⟨p, k, -, -, -, hk, -, hplo, -, heq⟩ := hcases
    · rw [heq, INode.addr_eq]
      have := h.lo_lt
      omega
    · rw [heq]
      omega
  · intro x hx hx' hfields hsize
    refine allocIntoMem_of_notMem (by omega) (by omega) (by omega) (by omega) ?_
    obtain ⟨k, -, hk, heq⟩ | ⟨p, k, -, -, -, hk, -, -, hphi, heq⟩ := hcases
    · rw [heq]
      omega
    · rw [heq]
      omega
  · intro x hx hx'
    exact allocIntoMem_of_notMem (by omega) (by omega) (by omega) hx' (by omega)
  · intro j hj τ hτ hne
    rw [slotVal_allocIntoMem h hi' hσ hlive hzero hlo hhi hclear hj hτ, if_neg]
    rintro ⟨rfl, rfl⟩
    exact hne.elim (fun hji => hji rfl) fun hv => hv hzero
  · intro q hq hq'
    rw [fsBit_allocIntoMem (by omega) hle hq', decide_eq_false (by omega), Bool.false_or]
  · rw [freeBlock_allocIntoMem (by omega) hle, freeCount_allocIntoMem hpool hhi hle hclear]
    omega

end Step

/-! ## Filling slots -/

/-- The number of empty slots of inode `i` among `T`. -/
def emptySlots (m : Mem) (i : Nat) (T : Finset Slot) : Nat :=
  (T.filter fun σ => slotVal m i σ = 0).card

/-- From `s` to `s'` the empty slots of inode `i` among `T` have been filled with
fresh blocks, and its size has become `n`. -/
structure Fills (lo hi last i n : Nat) (T : Finset Slot) (s s' : ParchFS) : Prop where
  owned : Ownership lo hi last s'
  grows : Grows lo hi last i s s'
  size : fileSize s'.mem i = n
  filled : ∀ σ ∈ T, slotVal s'.mem i σ ≠ 0
  others : ∀ σ : Slot, σ.Valid → σ ∉ T → slotVal s'.mem i σ = slotVal s.mem i σ
  count : freeCount hi s.mem = freeCount hi s'.mem + emptySlots s.mem i T
  same : fileSize s.mem i = n → (∀ σ ∈ T, slotVal s.mem i σ ≠ 0) → s' = s

/-- There is room for `n` more blocks: either that many are free, or the block
bitmap has no block to offer beyond the pool. -/
def Room (hi n : Nat) (m : Mem) : Prop := Closed hi m ∨ n ≤ freeCount hi m

/-- The reason and the condition for which filling `n` slots aborts. -/
def Exhausted (hi n : Nat) (m : Mem) (e : Abort) : Prop := e = blockBitmapFull ∧ freeCount hi m < n

section Filling

variable {lo hi last i n n' : Nat} {s s' s'' : ParchFS} {σ : Slot} {T U : Finset Slot}

theorem emptySlots_singleton {m : Mem} :
    emptySlots m i {σ} = if slotVal m i σ = 0 then 1 else 0 := by
  unfold emptySlots
  rw [Finset.filter_singleton]
  split <;> simp

theorem emptySlots_congr {m m' : Mem} (h : ∀ σ ∈ T, slotVal m' i σ = slotVal m i σ) :
    emptySlots m' i T = emptySlots m i T := by
  unfold emptySlots
  exact congrArg Finset.card (Finset.filter_congr fun σ hσ => by rw [h σ hσ])

theorem emptySlots_mono {m : Mem} (h : T ⊆ U) : emptySlots m i T ≤ emptySlots m i U :=
  Finset.card_le_card (Finset.filter_subset_filter _ h)

theorem emptySlots_of_filled {m : Mem} (hfull : ∀ σ ∈ T, slotVal m i σ ≠ 0) :
    emptySlots m i T = 0 :=
  Finset.card_eq_zero.mpr (Finset.filter_eq_empty_iff.mpr fun σ hσ => hfull σ hσ)

theorem Fills.refl (h : Ownership lo hi last s) : Fills lo hi last i (fileSize s.mem i) ∅ s s where
  owned := h
  grows := Grows.refl
  size := rfl
  filled _ hσ := absurd hσ (Finset.notMem_empty _)
  others _ _ _ := rfl
  count := by simp [emptySlots]
  same _ _ := rfl

/-- After filling `T`, the empty slots of `T ∪ U` are those of `T` at first and
those of `U` that are left. -/
theorem Fills.emptySlots_union (h : Fills lo hi last i n T s s') (hU : ∀ σ ∈ U, σ.Valid) :
    emptySlots s.mem i (T ∪ U) = emptySlots s.mem i T + emptySlots s'.mem i U := by
  have hleft : U.filter (fun σ => slotVal s'.mem i σ = 0) =
      (U \ T).filter fun σ => slotVal s.mem i σ = 0 := by
    ext σ
    simp only [Finset.mem_filter, Finset.mem_sdiff]
    constructor
    · rintro ⟨hσ, hzero⟩
      have hnot : σ ∉ T := fun hT => h.filled σ hT hzero
      exact ⟨⟨hσ, hnot⟩, by rwa [← h.others σ (hU σ hσ) hnot]⟩
    · rintro ⟨⟨hσ, hnot⟩, hzero⟩
      exact ⟨hσ, by rwa [h.others σ (hU σ hσ) hnot]⟩
  unfold emptySlots
  rw [hleft, ← Finset.card_union_of_disjoint, ← Finset.filter_union,
    Finset.union_sdiff_self_eq_union]
  exact Finset.disjoint_filter_filter Finset.disjoint_sdiff

theorem Fills.trans (h : Fills lo hi last i n T s s') (h' : Fills lo hi last i n' U s' s'')
    (hT : ∀ σ ∈ T, σ.Valid) (hU : ∀ σ ∈ U, σ.Valid) (hn : fileSize s.mem i ≤ n) (hn' : n ≤ n') :
    Fills lo hi last i n' (T ∪ U) s s'' where
  owned := h'.owned
  grows := h.grows.trans h'.grows
  size := h'.size
  filled σ hσ := by
    by_cases hσU : σ ∈ U
    · exact h'.filled σ hσU
    · have hσT : σ ∈ T := (Finset.mem_union.mp hσ).resolve_right hσU
      rw [h'.others σ (hT σ hσT) hσU]
      exact h.filled σ hσT
  others σ hσ hnot := by
    rw [Finset.mem_union, not_or] at hnot
    rw [h'.others σ hσ hnot.2, h.others σ hσ hnot.1]
  count := by
    have h1 := h.count
    have h2 := h'.count
    rw [h.emptySlots_union hU]
    omega
  same hsize hfull := by
    have hfirst := h.same (by omega) fun σ hσ => hfull σ (Finset.mem_union_left _ hσ)
    subst hfirst
    exact h'.same (by have := h.size; omega) fun σ hσ => hfull σ (Finset.mem_union_right _ hσ)

theorem Fills.room (h : Fills lo hi last i n T s s') (hU : ∀ σ ∈ U, σ.Valid)
    (hroom : Room hi (emptySlots s.mem i (T ∪ U)) s.mem) :
    Room hi (emptySlots s'.mem i U) s'.mem := by
  refine hroom.imp h.grows.closed fun hle => ?_
  have hcount := h.count
  rw [h.emptySlots_union hU] at hle
  omega

theorem Fills.exhausted {e : Abort} (h : Fills lo hi last i n T s s') (hU : ∀ σ ∈ U, σ.Valid)
    (he : Exhausted hi (emptySlots s'.mem i U) s'.mem e) :
    Exhausted hi (emptySlots s.mem i (T ∪ U)) s.mem e := by
  refine ⟨he.1, ?_⟩
  have hcount := h.count
  have hlt := he.2
  rw [h.emptySlots_union hU]
  omega

theorem Exhausted.mono {e : Abort} {m : Mem} {k k' : Nat} (h : Exhausted hi k m e) (hk : k ≤ k') :
    Exhausted hi k' m e :=
  ⟨h.1, lt_of_lt_of_le h.2 hk⟩

theorem Room.mono {m : Mem} {k k' : Nat} (h : Room hi k' m) (hk : k ≤ k') : Room hi k m :=
  h.imp_right fun hle => hk.trans hle

/-- The first block that `alloc_blk` finds clear lies in the pool, if there is room. -/
theorem Ownership.exists_first_clear (h : Ownership lo hi last s) (hfree : 0 < freeCount hi s.mem) :
    ∃ b, lo < b ∧ b < hi ∧ fsBit s.mem b = false ∧ ∀ q, q < b → fsBit s.mem q = true := by
  have hpool := h.pool_below_metadata
  obtain ⟨c, hc⟩ := Finset.card_pos.mp hfree
  rw [Finset.mem_filter, Finset.mem_range] at hc
  have hex : ∃ b, fsBit s.mem b = false := ⟨c, hc.2⟩
  have hle : Nat.find hex ≤ c := Nat.find_min' hex hc.2
  refine ⟨Nat.find hex, ?_, by omega, Nat.find_spec hex, fun q hq => ?_⟩
  · by_contra hlow
    have hmarked := h.low_marked (Nat.find hex) (by omega) (by omega)
    rw [Nat.find_spec hex] at hmarked
    cases hmarked
  · exact Bool.eq_true_of_not_eq_false (Nat.find_min hex hq)

/-- With no free block in the pool, every block of it is marked. -/
theorem fsBit_of_freeCount_eq_zero {m : Mem} (hfree : freeCount hi m = 0) {q : Nat} (hq : q < hi) :
    fsBit m q = true := by
  have hnone := Finset.card_eq_zero.mp hfree
  by_contra hclear
  have hmem : q ∈ (Finset.range hi).filter fun b => fsBit m b = false := by
    rw [Finset.mem_filter, Finset.mem_range]
    exact ⟨hq, Bool.eq_false_of_not_eq_true hclear⟩
  rw [hnone] at hmem
  exact Finset.notMem_empty q hmem

/-- With no free block in the pool and none beyond it, every block is marked. -/
theorem Closed.all_marked {m : Mem} (hclosed : Closed hi m) (hfree : freeCount hi m = 0) :
    ∀ q, q < 524288 → fsBit m q = true := by
  intro q hq
  by_cases hpool : q < hi
  · exact fsBit_of_freeCount_eq_zero hfree hpool
  · exact hclosed q (by omega) hq

/-- `*p = fs->alloc_blk()` on an empty slot. -/
theorem allocInto_outcome (h : Ownership lo hi last s) (hi' : i ≤ last) (hσ : σ.Valid)
    (hlive : Live s.mem i σ) (hzero : slotVal s.mem i σ = 0) (hroom : Room hi 1 s.mem) :
    Outcome (INode.allocInto (slotAddr s.mem i σ)) s
      (fun _ s' => Fills lo hi last i (fileSize s.mem i) {σ} s s') (Exhausted hi 1 s.mem) := by
  have hmapped := h.mapped_ge
  have hpool := h.pool_below_metadata
  have hle := h.slotAddr_le hi' hσ hlive
  unfold INode.allocInto
  rcases Nat.eq_zero_or_pos (freeCount hi s.mem) with hfree | hfree
  · have hclosed : Closed hi s.mem := hroom.resolve_right (by omega)
    have hfull := allocBlk_full hmapped (hclosed.all_marked hfree)
    exact Outcome.of_eq_error (bind_eq_error hfull) ⟨rfl, by omega⟩
  · obtain ⟨b, hlo, hhi, hclear, hbefore⟩ := h.exists_first_clear hfree
    refine Outcome.bind_ok (allocBlk_eq hmapped (by omega) hclear hbefore) ?_
    refine Outcome.of_eq_ok (store_eq (by rw [mapped_withMem]; omega)) ?_
    have hval := fun τ hτ =>
      slotVal_allocIntoMem (τ := τ) h hi' hσ hlive hzero hlo hhi hclear hi' hτ
    refine ⟨h.allocInto hi' hσ hlive hzero hlo hhi hclear,
      h.allocInto_grows hi' hσ hlive hzero hlo hhi hclear,
      fileSize_allocIntoMem h hi' hσ hlive hlo hhi hi', ?_, ?_, ?_, ?_⟩
    · intro τ hτ
      rw [Finset.mem_singleton.mp hτ]
      have hself := hval σ hσ
      rw [if_pos ⟨rfl, rfl⟩] at hself
      exact fun hc => by
        have heq := hself.symm.trans hc
        omega
    · intro τ hτ hnot
      have hother := hval τ hτ
      rw [if_neg fun hc => hnot (Finset.mem_singleton.mpr hc.2)] at hother
      exact hother
    · rw [emptySlots_singleton, if_pos hzero]
      exact freeCount_allocIntoMem hpool hhi hle hclear
    · intro _ hne
      exact absurd hzero (hne σ (Finset.mem_singleton_self σ))

/-- `if (*p == BAD_BLOCK) *p = fs->alloc_blk()` on a slot. -/
theorem allocIfBad_outcome (h : Ownership lo hi last s) (hi' : i ≤ last) (hσ : σ.Valid)
    (hlive : Live s.mem i σ) (hroom : Room hi (emptySlots s.mem i {σ}) s.mem) :
    Outcome (INode.allocIfBad (slotAddr s.mem i σ)) s
      (fun _ s' => Fills lo hi last i (fileSize s.mem i) {σ} s s')
      (Exhausted hi (emptySlots s.mem i {σ}) s.mem) := by
  have hle := h.slotAddr_le hi' hσ hlive
  have hmapped := h.mapped_ge
  unfold INode.allocIfBad
  refine Outcome.bind_ok (load_eq (by omega)) ?_
  rw [load_slotAddr hlive]
  refine Outcome.onlyIf (fun hzero => ?_) fun hne => ?_
  · have hone : emptySlots s.mem i {σ} = 1 := by rw [emptySlots_singleton]; exact if_pos hzero
    rw [hone] at hroom ⊢
    exact allocInto_outcome h hi' hσ hlive hzero hroom
  · -- a filled slot is left alone
    refine ⟨h, Grows.refl, rfl, ?_, fun _ _ _ => rfl, ?_, fun _ _ => rfl⟩
    · intro τ hτ
      rw [Finset.mem_singleton.mp hτ]
      exact hne
    · rw [emptySlots_singleton, if_neg (show ¬ slotVal s.mem i σ = 0 from hne), Nat.add_zero]

end Filling

end ParchTestbench
