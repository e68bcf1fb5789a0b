import ParchTestbench.ParchFS.BlockAllocation
import Mathlib.Data.Finset.Image

/-!
# ParchFS: the three-level block map

What `get_blkno` does to a volume whose blocks are owned: a lookup reads the slot
of the block, a call with `create` fills every slot up to that of the block.

Main results:

- Theorem `getBlkno_outcome_of_lt`: below the double-indirect range a call with
  `create` fills exactly the slots that the offset needs.
- Theorem `INode.getBlkno_eq_loop`: where the outer loop stands in a call.
- Theorem `getBlkno_outcome`: for every offset it maps all blocks up to that of
  the offset, or stops with a full block bitmap.
- Theorem `getBlkno_lookup`: a lookup returns the number of a mapped block and
  changes nothing.
-/

namespace ParchTestbench

open ParchFS Program

variable {lo hi last i n off : Nat} {s s' : ParchFS}

/-! ## The slots that an offset needs -/

/-- The first `n` slots of the entries of `f`. -/
def firstSlots (f : Nat → Slot) (n : Nat) : Finset Slot := (Finset.range n).image f

@[simp]
theorem mem_firstSlots {f : Nat → Slot} {σ : Slot} : σ ∈ firstSlots f n ↔ ∃ k, k < n ∧ f k = σ := by
  simp only [firstSlots, Finset.mem_image, Finset.mem_range]

theorem firstSlots_succ {f : Nat → Slot} : firstSlots f (n + 1) = firstSlots f n ∪ {f n} := by
  ext σ
  simp only [Finset.mem_union, mem_firstSlots, Finset.mem_singleton]
  constructor
  · rintro ⟨k, hk, rfl⟩
    rcases Nat.lt_succ_iff_lt_or_eq.mp hk with hlt | rfl
    · exact Or.inl ⟨k, hlt, rfl⟩
    · exact Or.inr rfl
  · rintro (⟨k, hk, rfl⟩ | rfl)
    · exact ⟨k, by omega, rfl⟩
    · exact ⟨n, by omega, rfl⟩

/-- The slots that a file needs to reach offset `off`, below the double-indirect
range. -/
def neededSlots (off : Nat) : Finset Slot :=
  firstSlots .field (min 16 (off / 4096 + 1)) ∪
    if off < 65536 then ∅
    else {.field 16} ∪ firstSlots (.entry (.field 16)) (min 1024 ((off - 65536) / 4096 + 1))

/-! ## The size field -/

theorem fileSize_store {m : Mem} (hn : n < 2 ^ 64) :
    fileSize (m.store (INode.fSize i) 8 n) i = n :=
  Mem.load_store_of_lt (by omega)

/-- Storing a size fills no slot. -/
theorem Ownership.storeSize (h : Ownership lo hi last s) (hi' : i ≤ last) (hn : n < 2 ^ 64) :
    Fills lo hi last i n ∅ s (s.withMem (s.mem.store (INode.fSize i) 8 n)) := by
  have hpool := h.pool_below_metadata
  have hlast := h.last_lt
  have hlow := h.lo_lt
  have hout : ∀ x, x < INode.addr i + 96 ∨ INode.addr i + 104 ≤ x →
      (s.mem.store (INode.fSize i) 8 n) x = s.mem x := by
    intro x hx
    rw [INode.addr_eq] at hx
    exact Mem.store_of_notMem (by rw [INode.fSize_eq]; omega)
  have hblock : ∀ b, b < hi → ∀ x, 4096 * b ≤ x → x < 4096 * b + 4096 →
      (s.mem.store (INode.fSize i) 8 n) x = s.mem x := by
    intro b hb x hx hx'
    exact hout x (by rw [INode.addr_eq]; omega)
  obtain ⟨hown, hslots⟩ := h.of_frame (s.withMem (s.mem.store (INode.fSize i) 8 n)) rfl
    (fun j hj x hx hx' => hout x (by rw [INode.addr_eq] at *; omega))
    (fun j hj p hp _ hv => hblock _ (h.in_pool j hj p hp hv).2)
    (fun x hx hx' => hout x (by rw [INode.addr_eq]; omega))
  simp only [mem_withMem] at hslots
  have hcount : freeCount hi (s.mem.store (INode.fSize i) 8 n) = freeCount hi s.mem :=
    freeCount_congr (by omega) fun x hx hx' => hout x (by rw [INode.addr_eq]; omega)
  have hcontent : ∀ j, j ≤ last →
      content (s.mem.store (INode.fSize i) 8 n) j = content s.mem j := fun j hj =>
    content_congr (hslots j hj) fun k hk hv => hblock _ (h.in_pool j hj _ (dataSlot_valid hk) hv).2
  refine ⟨hown, ⟨⟨rfl, ?_, ?_, ?_, ?_, fun j hj _ => hcontent j hj, ?_, ?_⟩, hcontent i hi'⟩,
    fileSize_store hn, ?_, ?_, ?_, ?_⟩
  all_goals try simp only [mem_withMem]
  · intro x hx
    exact hout x (by rw [INode.addr_eq]; omega)
  · intro x _ _ _ hx
    exact hout x hx
  · intro x hx _
    exact hout x (by rw [INode.addr_eq]; omega)
  · intro j hj σ hσ _
    exact hslots j hj σ hσ
  · intro b _ hb
    exact fsBit_congr hb fun x hx hx' => hout x (by rw [INode.addr_eq]; omega)
  · rw [hcount, Mem.load_congr fun x hx hx' => hout x (by
      rw [SuperBlock.freeBlock_eq] at hx; rw [INode.addr_eq]; omega)]
  · intro σ hσ
    exact absurd hσ (Finset.notMem_empty σ)
  · intro σ hσ _
    exact hslots i hi' σ hσ
  · rw [hcount]
    simp [emptySlots]
  · -- storing the size that is there already changes nothing
    intro hsame _
    have hmem : s.mem.store (INode.fSize i) 8 n = s.mem := by
      rw [← hsame]
      exact Mem.store_load
    rw [hmem, withMem_mem]

/-! ## A loop over slots -/

/-- The loop `if (a[k] == BAD_BLOCK) a[k] = fs->alloc_blk()` over the slots `f k`. -/
theorem fillLoop_outcome {f : Nat → Slot} {a : Nat → Nat} (h : Ownership lo hi last s)
    (hi' : i ≤ last) (hvalid : ∀ k, k < n → (f k).Valid)
    (haddr : ∀ k t, k < n → Grows lo hi last i s t →
      Live t.mem i (f k) ∧ a k = slotAddr t.mem i (f k))
    (hroom : Room hi (emptySlots s.mem i (firstSlots f n)) s.mem) :
    Outcome (forUpTo n fun k => INode.allocIfBad (a k)) s
      (fun _ t => Fills lo hi last i (fileSize s.mem i) (firstSlots f n) s t)
      (Exhausted hi (emptySlots s.mem i (firstSlots f n)) s.mem) := by
  refine Outcome.forUpTo
    (I := fun k t => Fills lo hi last i (fileSize s.mem i) (firstSlots f k) s t)
    (Fills.refl h) ?_
  intro k t hk ht
  obtain ⟨hlive, heq⟩ := haddr k t hk ht.grows
  have hsub : firstSlots f k ∪ {f k} ⊆ firstSlots f n := by
    rw [← firstSlots_succ]
    intro σ
    simp only [mem_firstSlots]
    rintro ⟨l, hl, rfl⟩
    exact ⟨l, by omega, rfl⟩
  have hone : ∀ σ ∈ ({f k} : Finset Slot), σ.Valid := fun σ hσ => by
    rw [Finset.mem_singleton.mp hσ]
    exact hvalid k hk
  have hfirst : ∀ σ ∈ firstSlots f k, σ.Valid := fun σ hσ => by
    obtain ⟨l, hl, rfl⟩ := mem_firstSlots.mp hσ
    exact hvalid l (by omega)
  rw [heq]
  refine (allocIfBad_outcome ht.owned hi' (hvalid k hk) hlive ?_).mono ?_ ?_
  · exact ht.room hone (hroom.mono (emptySlots_mono hsub))
  · intro _ t' ht'
    rw [ht.size] at ht'
    rw [firstSlots_succ]
    exact ht.trans ht' hfirst hone le_rfl le_rfl
  · intro e he
    exact (ht.exhausted hone he).mono (emptySlots_mono hsub)

/-! ## The direct and the indirect range -/

theorem firstSlots_field_valid (hn : n ≤ 18) : ∀ σ ∈ firstSlots .field n, σ.Valid := by
  intro σ hσ
  obtain ⟨k, hk, rfl⟩ := mem_firstSlots.mp hσ
  show k < 18
  omega

theorem firstSlots_entry_valid {p : Slot} (hp : p.Valid) (hidx : p.isIndex) (hn : n ≤ 1024) :
    ∀ σ ∈ firstSlots (.entry p) n, σ.Valid := by
  intro σ hσ
  obtain ⟨k, hk, rfl⟩ := mem_firstSlots.mp hσ
  exact ⟨hp, hidx, by omega⟩

/-- The loop over the direct blocks. -/
theorem fillDirect_outcome (h : Ownership lo hi last s) (hi' : i ≤ last) (hn : n ≤ 16)
    (hroom : Room hi (emptySlots s.mem i (firstSlots .field n)) s.mem) :
    Outcome (forUpTo n fun k => INode.allocIfBad (INode.directBlkNo i k)) s
      (fun _ t => Fills lo hi last i (fileSize s.mem i) (firstSlots .field n) s t)
      (Exhausted hi (emptySlots s.mem i (firstSlots .field n)) s.mem) :=
  fillLoop_outcome h hi' (fun k hk => show k < 18 by omega) (fun _ _ _ _ => ⟨trivial, rfl⟩) hroom

/-- The allocation of an index block and of its first `n` entries. -/
theorem fillIndex_outcome {p : Slot} (h : Ownership lo hi last s) (hi' : i ≤ last) (hp : p.Valid)
    (hidx : p.isIndex) (hlive : Live s.mem i p) (hn : n ≤ 1024)
    (hroom : Room hi (emptySlots s.mem i ({p} ∪ firstSlots (.entry p) n)) s.mem) :
    Outcome (do
        INode.allocIfBad (slotAddr s.mem i p)
        let blks ← getBlk (← load (slotAddr s.mem i p) 4)
        forUpTo n fun k => INode.allocIfBad (blks + 4 * k)) s
      (fun _ t => Fills lo hi last i (fileSize s.mem i) ({p} ∪ firstSlots (.entry p) n) s t)
      (Exhausted hi (emptySlots s.mem i ({p} ∪ firstSlots (.entry p) n)) s.mem) := by
  have hone : ∀ σ ∈ ({p} : Finset Slot), σ.Valid := fun σ hσ => by
    rw [Finset.mem_singleton.mp hσ]
    exact hp
  have hentries := firstSlots_entry_valid hp hidx hn
  have hsub : ({p} : Finset Slot) ⊆ {p} ∪ firstSlots (.entry p) n := Finset.subset_union_left
  refine Outcome.bind ((allocIfBad_outcome h hi' hp hlive
    (hroom.mono (emptySlots_mono hsub))).mono ?_ fun e he => he.mono (emptySlots_mono hsub))
  intro _ t ht
  have hv : slotVal t.mem i p ≠ 0 := ht.filled p (Finset.mem_singleton_self p)
  have haddr : slotAddr s.mem i p = slotAddr t.mem i p := by
    cases p with
    | field k => rfl
    | entry q k =>
        have hq := ht.grows.slots i hi' q hp.1 (Or.inr hlive)
        simp only [slotAddr, hq]
  have hle := ht.owned.slotAddr_le hi' hp (live_of_slotVal_ne_zero hv)
  have hmapped := ht.owned.mapped_ge
  rw [haddr]
  refine Outcome.bind_ok (load_eq (by omega)) ?_
  rw [load_slotAddr (live_of_slotVal_ne_zero hv)]
  refine Outcome.bind_ok (ht.owned.getBlk_slotVal hi' hp hv) ?_
  refine (fillLoop_outcome (f := .entry p) ht.owned hi' (fun k hk => ⟨hp, hidx, by omega⟩)
    ?_ (ht.room hentries hroom)).mono ?_ ?_
  · intro k u _ hu
    have hkeep := hu.slots i hi' p hp (Or.inr hv)
    refine ⟨?_, ?_⟩
    · show slotVal u.mem i p ≠ 0
      rwa [hkeep]
    · simp only [slotAddr, hkeep]
  · intro _ u hu
    rw [ht.size] at hu
    exact ht.trans hu hone hentries le_rfl le_rfl
  · intro e he
    exact ht.exhausted hentries he

/-! ## The double-indirect range -/

/-- From `s` to `s'` inode `i` has been given some blocks, and its size has become
`n`. -/
def Grown (lo hi last i n : Nat) (s s' : ParchFS) : Prop :=
  ∃ T : Finset Slot, (∀ σ ∈ T, σ.Valid) ∧ Fills lo hi last i n T s s'

namespace Grown

variable {n' : Nat} {s'' : ParchFS}

theorem refl (h : Ownership lo hi last s) : Grown lo hi last i (fileSize s.mem i) s s :=
  ⟨∅, fun _ hσ => absurd hσ (Finset.notMem_empty _), Fills.refl h⟩

theorem trans (h : Grown lo hi last i n s s') (h' : Grown lo hi last i n' s' s'')
    (hn : fileSize s.mem i ≤ n) (hn' : n ≤ n') : Grown lo hi last i n' s s'' := by
  obtain ⟨T, hT, hs⟩ := h
  obtain ⟨U, hU, hs'⟩ := h'
  refine ⟨T ∪ U, fun σ hσ => ?_, hs.trans hs' hT hU hn hn'⟩
  exact (Finset.mem_union.mp hσ).elim (hT σ) (hU σ)

theorem owned (h : Grown lo hi last i n s s') : Ownership lo hi last s' := h.choose_spec.2.owned

theorem grows (h : Grown lo hi last i n s s') : Grows lo hi last i s s' := h.choose_spec.2.grows

theorem size (h : Grown lo hi last i n s s') : fileSize s'.mem i = n := h.choose_spec.2.size

theorem keep (h : Grown lo hi last i n s s') (hi' : i ≤ last) {σ : Slot} (hσ : σ.Valid)
    (hv : slotVal s.mem i σ ≠ 0) : slotVal s'.mem i σ = slotVal s.mem i σ :=
  h.grows.keep hi' hσ hv

end Grown

theorem Fills.grown {T : Finset Slot} (h : Fills lo hi last i n T s s') (hT : ∀ σ ∈ T, σ.Valid) :
    Grown lo hi last i n s s' :=
  ⟨T, hT, h⟩

theorem field_valid {k : Nat} (hk : k < 18) : (Slot.field k).Valid := hk

/-- The slot of second-level index block `k`. -/
abbrev indexSlot (k : Nat) : Slot := .entry (.field 17) k

theorem indexSlot_valid {k : Nat} (hk : k < 1024) : (indexSlot k).Valid :=
  ⟨show 17 < 18 by omega, Or.inr rfl, hk⟩

theorem entry_indexSlot_valid {k l : Nat} (hk : k < 1024) (hl : l < 1024) :
    (Slot.entry (indexSlot k) l).Valid :=
  ⟨indexSlot_valid hk, rfl, hl⟩

theorem dataSlot_double {k : Nat} :
    dataSlot (1040 + k) = .entry (indexSlot (k / 1024)) (k % 1024) := by
  unfold dataSlot
  rw [if_neg (by omega), if_neg (by omega)]
  have hsub : 1040 + k - 1040 = k := by omega
  rw [hsub]

/-- The scan at entry `j` of a second-level index block: a fresh entry is allocated, and past
the offset the scan stops there; a filled entry is passed over, whatever the offset. -/
theorem fillIndirect2Block_step {k blks fuel j : Nat} {Q : Bool → ParchFS → Prop}
    {E : Abort → Prop} (h : Ownership lo hi last s) (hi' : i ≤ last) (hk : k < 1024)
    (hindex : slotVal s.mem i (indexSlot k) ≠ 0)
    (hblks : blks = 4096 * slotVal s.mem i (indexSlot k)) (hj : j + (fuel + 1) = 1024)
    (hroom : Room hi 1 s.mem)
    (hfresh : slotVal s.mem i (.entry (indexSlot k) j) = 0 → ∀ t,
      Fills lo hi last i (fileSize s.mem i) {.entry (indexSlot k) j} s t →
        Outcome (if INode.i2Cap k j > off then pure true
          else INode.fillIndirect2Block off k blks fuel) t Q E)
    (hfilled : slotVal s.mem i (.entry (indexSlot k) j) ≠ 0 →
      Outcome (INode.fillIndirect2Block off k blks fuel) s Q E)
    (hE : ∀ e, Exhausted hi 1 s.mem e → E e) :
    Outcome (INode.fillIndirect2Block off k blks (fuel + 1)) s Q E := by
  have hvalid := entry_indexSlot_valid hk (show j < 1024 by omega)
  have hlive : Live s.mem i (.entry (indexSlot k) j) := hindex
  have hentry : blknoPerBlk - (fuel + 1) = j := by
    unfold blknoPerBlk
    omega
  have haddr : blks + 4 * j = slotAddr s.mem i (.entry (indexSlot k) j) := by
    rw [hblks]
    rfl
  have hle := h.slotAddr_le hi' hvalid hlive
  have hmapped := h.mapped_ge
  unfold INode.fillIndirect2Block
  dsimp only
  rw [hentry, haddr]
  refine Outcome.bind_ok (load_eq (by omega)) ?_
  rw [load_slotAddr hlive]
  split
  · rename_i hzero
    exact Outcome.bind ((allocInto_outcome h hi' hvalid hlive hzero hroom).mono
      (fun _ t ht => hfresh hzero t ht) hE)
  · rename_i hne
    exact hfilled hne

/-- The scan of one second-level index block fills its entries up to the first
fresh one past the offset, or to the end. -/
theorem fillIndirect2Block_outcome {k blks fuel : Nat} (h : Ownership lo hi last s)
    (hclosed : Closed hi s.mem) (hi' : i ≤ last) (hk : k < 1024)
    (hindex : slotVal s.mem i (indexSlot k) ≠ 0)
    (hblks : blks = 4096 * slotVal s.mem i (indexSlot k)) (hfuel : fuel ≤ 1024)
    (hbefore : ∀ l, l < 1024 - fuel → slotVal s.mem i (.entry (indexSlot k) l) ≠ 0) :
    Outcome (INode.fillIndirect2Block off k blks fuel) s
      (fun done t => Grown lo hi last i (fileSize s.mem i) s t ∧
        (done = true → ∃ j, j < 1024 ∧ off < INode.i2Cap k j ∧
          ∀ l, l ≤ j → slotVal t.mem i (.entry (indexSlot k) l) ≠ 0) ∧
        (done = false → ∀ l, l < 1024 → slotVal t.mem i (.entry (indexSlot k) l) ≠ 0))
      (fun e => e = blockBitmapFull) := by
  induction fuel generalizing s with
  | zero => exact Outcome.pure ⟨Grown.refl h, nofun, fun _ l hl => hbefore l (by omega)⟩
  | succ fuel ih =>
      obtain ⟨j, hj⟩ : ∃ j, j + (fuel + 1) = 1024 := ⟨1024 - (fuel + 1), by omega⟩
      have hcover : ∀ l, l < 1024 - fuel → l < 1024 - (fuel + 1) ∨ l = j :=
        fun l hl => by omega
      refine fillIndirect2Block_step h hi' hk hindex hblks hj (Or.inl hclosed) ?_ ?_
        fun e he => he.1
      · intro _ t ht
        have hgrown : Grown lo hi last i (fileSize s.mem i) s t := ht.grown fun σ hσ => by
          rw [Finset.mem_singleton.mp hσ]
          exact entry_indexSlot_valid hk (by omega)
        have hfilled : ∀ l, l < 1024 - fuel → slotVal t.mem i (.entry (indexSlot k) l) ≠ 0 := by
          intro l hl
          rcases hcover l hl with hlt | rfl
          · rw [hgrown.keep hi' (entry_indexSlot_valid hk (by omega)) (hbefore l hlt)]
            exact hbefore l hlt
          · exact ht.filled _ (Finset.mem_singleton_self _)
        by_cases hcap : INode.i2Cap k j > off
        · rw [if_pos hcap]
          exact Outcome.pure
            ⟨hgrown, fun _ => ⟨j, by omega, hcap, fun l hl => hfilled l (by omega)⟩, nofun⟩
        · rw [if_neg hcap]
          have hkeep := hgrown.keep hi' (indexSlot_valid hk) hindex
          refine (ih ht.owned (ht.grows.closed hclosed) (by rwa [hkeep]) (by rw [hkeep, hblks])
            (by omega) hfilled).mono ?_ fun _ he => he
          rintro done u ⟨hu, hdone⟩
          rw [hgrown.size] at hu
          exact ⟨hgrown.trans hu le_rfl le_rfl, hdone⟩
      · intro hne
        refine ih h hclosed hindex hblks (by omega) fun l hl => ?_
        rcases hcover l hl with hlt | rfl
        · exact hbefore l hlt
        · exact hne

/-- Full second-level index blocks are few: their entries are distinct blocks. -/
theorem Ownership.index2_lt {k : Nat} (h : Ownership lo hi last s) (hi' : i ≤ last)
    (hfull : ∀ j, j < k → ∀ l, l < 1024 → slotVal s.mem i (.entry (indexSlot j) l) ≠ 0) :
    k < 512 := by
  have hpool := h.pool_below_metadata
  by_contra hge
  have hv : ∀ q, q < 524288 → (Slot.entry (indexSlot (q / 1024)) (q % 1024)).Valid :=
    fun q hq => entry_indexSlot_valid (by omega) (by omega)
  have hmaps : ∀ q ∈ Finset.range 524288,
      slotVal s.mem i (.entry (indexSlot (q / 1024)) (q % 1024)) ∈ Finset.range hi := by
    intro q hq
    have hq' := Finset.mem_range.mp hq
    exact Finset.mem_range.mpr
      (h.in_pool i hi' _ (hv q hq') (hfull _ (by omega) _ (by omega))).2
  have hinj : Set.InjOn (fun q => slotVal s.mem i (.entry (indexSlot (q / 1024)) (q % 1024)))
      (Finset.range 524288) := by
    intro q hq r hr heq
    have hq' := Finset.mem_range.mp hq
    have hr' := Finset.mem_range.mp hr
    have hsame := (h.unique i i hi' hi' _ _ (hv q hq') (hv r hr')
      (hfull _ (by omega) _ (by omega)) heq).2
    simp only [Slot.entry.injEq, true_and] at hsame
    omega
  have hcard := Finset.card_le_card_of_injOn _ hmaps hinj
  simp only [Finset.card_range] at hcard
  omega

namespace INode

/-- Entry `k` of the index block at `indirectBlks`, allocated when it was bad. -/
def indirect2Entry (indirectBlks k : Nat) : ParchM Nat := do
  allocIfBad (indirectBlks + 4 * k)
  load (indirectBlks + 4 * k) 4

/-- One pass of the outer loop. -/
def indirect2Pass (off indirectBlks k : Nat) : ParchM Bool := do
  let indirect2Blks ← getBlk (← indirect2Entry indirectBlks k)
  fillIndirect2Block off k indirect2Blks blknoPerBlk

/-- The outer loop, pass by pass. -/
theorem fillIndirect2_eq (off blks fuel k : Nat) :
    fillIndirect2 off blks fuel k = untilDone .undefined (indirect2Pass off blks) fuel k := by
  induction fuel generalizing k with
  | zero => rfl
  | succ fuel ih =>
      simp only [fillIndirect2, untilDone, indirect2Pass, indirect2Entry, bind_assoc, ih]

end INode

/-- The outer loop has come from `s` to pass `k` in state `t`: the index blocks before `k` are
full. -/
structure Looping (lo hi last i blks : Nat) (s : ParchFS) (k : Nat) (t : ParchFS) : Prop where
  grown : Grown lo hi last i (fileSize s.mem i) s t
  closed : Closed hi t.mem
  index : slotVal t.mem i (.field 17) ≠ 0
  blks_eq : blks = 4096 * slotVal t.mem i (.field 17)
  full : ∀ j, j < k → ∀ l, l < 1024 → slotVal t.mem i (.entry (indexSlot j) l) ≠ 0

namespace Looping

variable {k blks : Nat} {t u : ParchFS}

theorem index_lt (h : Looping lo hi last i blks s k t) (hi' : i ≤ last) : k < 512 :=
  h.grown.owned.index2_lt hi' h.full

/-- More blocks for the inode leave the loop where it is. -/
theorem grow (h : Looping lo hi last i blks s k t) (hi' : i ≤ last)
    (hu : Grown lo hi last i (fileSize s.mem i) t u) : Looping lo hi last i blks s k u := by
  have hk := h.index_lt hi'
  have hbase := hu.keep hi' (field_valid (by omega)) h.index
  refine ⟨h.grown.trans hu le_rfl le_rfl, hu.grows.closed h.closed, ?_, ?_, fun j hj l hl => ?_⟩
  · rw [hbase]
    exact h.index
  · rw [hbase]
    exact h.blks_eq
  · rw [hu.keep hi' (entry_indexSlot_valid (by omega) hl) (h.full j hj l hl)]
    exact h.full j hj l hl

/-- Entry `k` is the number of the inode's second-level index block `k`. -/
theorem entry_outcome (h : Looping lo hi last i blks s k t) (hi' : i ≤ last) :
    Outcome (INode.indirect2Entry blks k) t
      (fun b u => Looping lo hi last i blks s k u ∧ b = slotVal u.mem i (indexSlot k) ∧ b ≠ 0)
      (fun e => e = blockBitmapFull) := by
  have hk := h.index_lt hi'
  have hown := h.grown.owned
  have hvalid := indexSlot_valid (show k < 1024 by omega)
  have haddr : blks + 4 * k = slotAddr t.mem i (indexSlot k) := by
    rw [h.blks_eq]
    rfl
  unfold INode.indirect2Entry
  rw [haddr]
  refine Outcome.bind ((allocIfBad_outcome hown hi' hvalid h.index (Or.inl h.closed)).mono ?_
    fun e he => he.1)
  intro _ u hu
  have hgrown := hu.grown fun σ hσ => by
    rw [Finset.mem_singleton.mp hσ]
    exact hvalid
  have hbase := hgrown.keep hi' (field_valid (by omega)) h.index
  have haddr' : slotAddr t.mem i (indexSlot k) = slotAddr u.mem i (indexSlot k) := by
    simp only [slotAddr, hbase]
  have hv : slotVal u.mem i (indexSlot k) ≠ 0 := hu.filled _ (Finset.mem_singleton_self _)
  have hle := hu.owned.slotAddr_le hi' hvalid (live_of_slotVal_ne_zero hv)
  have hmapped := hu.owned.mapped_ge
  rw [h.grown.size] at hgrown
  rw [haddr']
  refine Outcome.of_eq_ok (load_eq (by omega)) ?_
  rw [load_slotAddr (live_of_slotVal_ne_zero hv)]
  exact ⟨h.grow hi' hgrown, rfl, hv⟩

/-- A pass ends the loop past the offset, or fills its index block. -/
theorem pass_outcome (h : Looping lo hi last i blks s k t) (hi' : i ≤ last) (off : Nat) :
    Outcome (INode.indirect2Pass off blks k) t
      (fun done u => Looping lo hi last i blks s k u ∧
        (done = true → ∃ j, j < 1024 ∧ off < INode.i2Cap k j ∧
          ∀ l, l ≤ j → slotVal u.mem i (.entry (indexSlot k) l) ≠ 0) ∧
        (done = false → Looping lo hi last i blks s (k + 1) u))
      (fun e => e = blockBitmapFull) := by
  have hk := h.index_lt hi'
  have hvalid := indexSlot_valid (show k < 1024 by omega)
  refine Outcome.bind ((h.entry_outcome hi').mono ?_ fun _ he => he)
  rintro _ u ⟨hu, rfl, hv⟩
  refine Outcome.bind_ok (hu.grown.owned.getBlk_slotVal hi' hvalid hv) ?_
  refine (fillIndirect2Block_outcome hu.grown.owned hu.closed hi' (by omega) hv rfl le_rfl
    fun l hl => by simp at hl).mono ?_ fun _ he => he
  rintro done w ⟨hw, hdone, hmore⟩
  rw [hu.grown.size] at hw
  have hloop := hu.grow hi' hw
  refine ⟨hloop, hdone, fun hfalse => ?_⟩
  refine ⟨hloop.grown, hloop.closed, hloop.index, hloop.blks_eq, fun j hj l hl => ?_⟩
  rcases Nat.lt_succ_iff_lt_or_eq.mp hj with hlt | rfl
  · exact hloop.full j hlt l hl
  · exact hmore hfalse l hl

end Looping

/-- The double-indirect loop maps the block of the offset and the one after it. -/
theorem fillIndirect2_outcome (off : Nat) {k blks fuel : Nat} (h : Ownership lo hi last s)
    (hclosed : Closed hi s.mem) (hi' : i ≤ last) (hindex : slotVal s.mem i (.field 17) ≠ 0)
    (hblks : blks = 4096 * slotVal s.mem i (.field 17)) (hfuel : fuel + k = 2 ^ 31)
    (hfull : ∀ j, j < k → ∀ l, l < 1024 → slotVal s.mem i (.entry (indexSlot j) l) ≠ 0) :
    Outcome (INode.fillIndirect2 off blks fuel k) s
      (fun _ t => Grown lo hi last i (fileSize s.mem i) s t ∧
        ∃ K, off / 4096 < K ∧ K < 524288 ∧
          ∀ l, l ≤ K → slotVal t.mem i (dataSlot (1040 + l)) ≠ 0)
      (fun e => e = blockBitmapFull) := by
  rw [INode.fillIndirect2_eq]
  refine Outcome.untilDone (I := Looping lo hi last i blks s) (fun k t ht => ht.index_lt hi')
    (by omega) ⟨Grown.refl h, hclosed, hindex, hblks, hfull⟩ fun k t ht => ?_
  refine (ht.pass_outcome hi' off).mono ?_ fun _ he => he
  rintro done u ⟨hu, hdone, hmore⟩
  have hk := hu.index_lt hi'
  refine ⟨fun htrue => ?_, hmore⟩
  obtain ⟨j, hj, hcap, hupto⟩ := hdone htrue
  simp only [INode.i2Cap, blkSize, blknoPerBlk] at hcap
  refine ⟨hu.grown, 1024 * k + j, by omega, by omega, fun l hl => ?_⟩
  rw [dataSlot_double]
  rcases Nat.lt_or_ge (l / 1024) k with hlt | hge
  · exact hu.full _ hlt _ (Nat.mod_lt _ (by omega))
  · have hdiv : l / 1024 = k := by omega
    rw [hdiv]
    exact hupto _ (by omega)

/-! ## Reading the map -/

theorem fileBlk_direct {m : Mem} {k : Nat} (hk : k < 16) :
    fileBlk m i k = slotVal m i (.field k) := by
  unfold fileBlk dataSlot
  rw [if_pos hk]

theorem fileBlk_indirect {m : Mem} {k : Nat} (hk : k < 1024) :
    fileBlk m i (16 + k) = slotVal m i (.entry (.field 16) k) := by
  unfold fileBlk dataSlot
  have hsub : 16 + k - 16 = k := by omega
  rw [if_neg (by omega), if_pos (by omega), hsub]

theorem fileBlk_double {m : Mem} {k : Nat} :
    fileBlk m i (1040 + k) = slotVal m i (.entry (indexSlot (k / 1024)) (k % 1024)) := by
  unfold fileBlk
  rw [dataSlot_double]

/-- Two index steps: fetch the block of slot `p`, then its entry `k`. -/
theorem loadEntry_eq {p : Slot} {k : Nat} (h : Ownership lo hi last s) (hi' : i ≤ last)
    (hp : p.Valid) (hidx : p.isIndex) (hv : slotVal s.mem i p ≠ 0) (hk : k < 1024) :
    (do
      let blks ← getBlk (← load (slotAddr s.mem i p) 4)
      load (blks + 4 * k) 4 : ParchM Nat) s = .ok (slotVal s.mem i (.entry p k), s) := by
  have hle := h.slotAddr_le hi' hp (live_of_slotVal_ne_zero hv)
  have hle' := h.slotAddr_le (σ := .entry p k) hi' ⟨hp, hidx, hk⟩ hv
  have hmapped := h.mapped_ge
  simp only [slotAddr] at hle'
  rw [bind_eq_ok (load_eq (by omega)), load_slotAddr (live_of_slotVal_ne_zero hv),
    bind_eq_ok (h.getBlk_slotVal hi' hp hv), load_eq (by omega), slotVal_entry hv]

theorem loadDirect_eq (h : Ownership lo hi last s) (hi' : i ≤ last) (hoff : off < 65536) :
    load (INode.directBlkNo i (off / blkSize)) 4 s = .ok (fileBlk s.mem i (off / 4096), s) := by
  have hmapped := h.mapped_ge
  have hlast := h.last_lt
  rw [load_eq (by simp only [INode.directBlkNo_eq, blkSize]; omega), fileBlk_direct (by omega)]
  rfl

theorem loadIndirect_eq (h : Ownership lo hi last s) (hi' : i ≤ last) (hoff : off < 4194304)
    (hv : slotVal s.mem i (.field 16) ≠ 0) :
    (do
      let blks ← getBlk (← load (INode.indirectBlk i) 4)
      load (blks + 4 * (off / blkSize)) 4 : ParchM Nat) s =
      .ok (fileBlk s.mem i (16 + off / 4096), s) := by
  rw [fileBlk_indirect (by omega)]
  exact loadEntry_eq h hi' (field_valid (show 16 < 18 by omega)) (Or.inl rfl) hv
    (show off / 4096 < 1024 by omega)

/-- Three index steps: fetch the second-level index block of the offset, then the
entry in it. -/
theorem loadDouble_eq (h : Ownership lo hi last s) (hi' : i ≤ last) (hoff : off < 4294967296)
    (hv : fileBlk s.mem i (1040 + off / 4096) ≠ 0) :
    (do
      let pageOffset := off / blkSize
      let indirectBlks ← getBlk (← load (INode.indirectBlk2 i) 4)
      let indirectNo ← load (indirectBlks + 4 * (pageOffset / blknoPerBlk)) 4
      let indirect2Blks ← getBlk indirectNo
      load (indirect2Blks + 4 * (pageOffset % blknoPerBlk)) 4 : ParchM Nat) s =
      .ok (fileBlk s.mem i (1040 + off / 4096), s) := by
  have hk : off / 4096 / 1024 < 1024 := by omega
  rw [fileBlk_double] at hv ⊢
  have hindex := live_of_slotVal_ne_zero hv
  have hbase := live_of_slotVal_ne_zero hindex
  have hmapped := h.mapped_ge
  have hlast := h.last_lt
  have hle := h.slotAddr_le (σ := indexSlot (off / 4096 / 1024)) hi' (indexSlot_valid hk) hbase
  have hle' := h.slotAddr_le hi' (entry_indexSlot_valid hk (Nat.mod_lt (off / 4096) (by omega)))
    hindex
  simp only [slotAddr] at hle hle'
  have hload : load (INode.indirectBlk2 i) 4 s = .ok (slotVal s.mem i (.field 17), s) :=
    load_eq (by rw [INode.indirectBlk2_eq]; omega)
  have hentry : load (4096 * slotVal s.mem i (.field 17) + 4 * (off / blkSize / blknoPerBlk)) 4 s =
      .ok (slotVal s.mem i (indexSlot (off / 4096 / 1024)), s) := by
    rw [slotVal_entry hbase]
    exact load_eq (by simp only [blkSize, blknoPerBlk]; omega)
  rw [bind_eq_ok hload, bind_eq_ok (h.getBlk_slotVal hi' (field_valid (by omega)) hbase),
    bind_eq_ok hentry, bind_eq_ok (h.getBlk_slotVal hi' (indexSlot_valid hk) hindex),
    slotVal_entry hindex]
  exact load_eq (by simp only [blkSize, blknoPerBlk]; omega)

/-- A lookup in the double-indirect range. -/
theorem getBlknoIndirect2_lookup (h : Ownership lo hi last s) (hi' : i ≤ last)
    (hoff : off < 4294967296) (hv : fileBlk s.mem i (1040 + off / 4096) ≠ 0) :
    INode.getBlknoIndirect2 i off false s = .ok (fileBlk s.mem i (1040 + off / 4096), s) := by
  unfold INode.getBlknoIndirect2
  rw [onlyIf_bind_neg (by simp), if_pos (by exact hoff)]
  exact loadDouble_eq h hi' hoff hv

/-- A lookup returns the number of a mapped block and changes nothing. -/
theorem getBlkno_lookup (h : Ownership lo hi last s) (hi' : i ≤ last)
    (hoff : off ≤ fileSize s.mem i) (hk : off / 4096 < 1049616)
    (hv : fileBlk s.mem i (off / 4096) ≠ 0) :
    INode.getBlkno i off false s = .ok (fileBlk s.mem i (off / 4096), s) := by
  have hmapped := h.mapped_ge
  have hlast := h.last_lt
  have hsize : load (INode.fSize i) 8 s = .ok (fileSize s.mem i, s) :=
    load_eq (by rw [INode.fSize_eq]; omega)
  unfold INode.getBlkno
  rw [bind_eq_ok hsize, onlyIf_bind_neg (by simp), bind_eq_ok hsize, bind_eq_ok (assert_eq hoff),
    onlyIf_bind_neg (by simp)]
  by_cases hdirect : off < 65536
  · rw [if_pos (by exact hdirect)]
    exact loadDirect_eq h hi' hdirect
  rw [if_neg (by exact hdirect)]
  unfold INode.getBlknoIndirect
  rw [onlyIf_bind_neg (by simp)]
  by_cases hind : off - 65536 < 4194304
  · have hblk : off / 4096 = 16 + (off - 65536) / 4096 := by omega
    rw [if_pos (by exact hind), hblk]
    rw [hblk, fileBlk_indirect (by omega)] at hv
    exact loadIndirect_eq h hi' hind (live_of_slotVal_ne_zero hv)
  · have hblk : off / 4096 = 1040 + (off - 65536 - 4194304) / 4096 := by omega
    rw [hblk] at hv ⊢
    have hlt : off - 65536 - 4194304 < 4294967296 := by omega
    rw [if_neg (by exact hind)]
    exact getBlknoIndirect2_lookup h hi' hlt hv

/-! ## Growing the map -/

theorem neededSlots_valid (off : Nat) : ∀ σ ∈ neededSlots off, σ.Valid := by
  intro σ hσ
  unfold neededSlots at hσ
  rcases Finset.mem_union.mp hσ with hdirect | hrest
  · exact firstSlots_field_valid (by omega) σ hdirect
  · split at hrest
    · exact absurd hrest (Finset.notMem_empty σ)
    · rcases Finset.mem_union.mp hrest with hone | hentry
      · rw [Finset.mem_singleton.mp hone]
        exact field_valid (by omega)
      · exact firstSlots_entry_valid (field_valid (by omega)) (Or.inl rfl) (by omega) σ hentry

theorem neededSlots_mono {off' : Nat} (h : off' ≤ off) : neededSlots off' ⊆ neededSlots off := by
  intro σ hσ
  unfold neededSlots at hσ ⊢
  rw [Finset.mem_union] at hσ ⊢
  rcases hσ with hdirect | hrest
  · obtain ⟨k, hk, rfl⟩ := mem_firstSlots.mp hdirect
    exact Or.inl (mem_firstSlots.mpr ⟨k, by omega, rfl⟩)
  · right
    split at hrest
    · exact absurd hrest (Finset.notMem_empty σ)
    · rw [if_neg (by omega)]
      rcases Finset.mem_union.mp hrest with hone | hentry
      · exact Finset.mem_union_left _ hone
      · obtain ⟨k, hk, rfl⟩ := mem_firstSlots.mp hentry
        have hle : (off' - 65536) / 4096 ≤ (off - 65536) / 4096 :=
          Nat.div_le_div_right (Nat.sub_le_sub_right h _)
        have hk' := lt_of_lt_of_le hk (min_le_min_left 1024 (Nat.succ_le_succ hle))
        exact Finset.mem_union_right _ (mem_firstSlots.mpr ⟨k, hk', rfl⟩)

/-- The first block of a file needs one slot. -/
theorem neededSlots_of_lt (hoff : off < 4096) : neededSlots off = {.field 0} := by
  have hone : min 16 (off / 4096 + 1) = 1 := by omega
  unfold neededSlots
  rw [if_pos (by omega), Finset.union_empty, hone]
  rfl

/-- The part of `get_blkno` before the ranges part: the size and the direct blocks. -/
theorem growDirect_outcome {α : Type} {rest : ParchM α} {Q : α → ParchFS → Prop}
    {E : Abort → Prop} (h : Ownership lo hi last s) (hi' : i ≤ last) (hoff : off < 2 ^ 64)
    (hroom : Room hi (emptySlots s.mem i (firstSlots .field (min 16 (off / 4096 + 1)))) s.mem)
    (hrest : ∀ t, Fills lo hi last i (max (fileSize s.mem i) off)
      (firstSlots .field (min 16 (off / 4096 + 1))) s t → Outcome rest t Q E)
    (hE : ∀ e, Exhausted hi (emptySlots s.mem i (firstSlots .field (min 16 (off / 4096 + 1))))
      s.mem e → E e) :
    Outcome (do
      let size ← load (INode.fSize i) 8
      onlyIf (true = true ∧ size < off) (store (INode.fSize i) 8 off)
      let size ← load (INode.fSize i) 8
      ParchFS.assert (off ≤ size) "off <= this->f_size"
      onlyIf (true = true) do
        forUpTo (min directBlkCount (off / blkSize + 1)) fun k =>
          INode.allocIfBad (INode.directBlkNo i k)
      rest) s Q E := by
  have hlast := h.last_lt
  have hsize : ∀ t, Ownership lo hi last t →
      load (INode.fSize i) 8 t = .ok (fileSize t.mem i, t) := fun t ht => by
    have hmapped := ht.mapped_ge
    exact load_eq (by rw [INode.fSize_eq]; omega)
  have hmapped := h.mapped_ge
  refine Outcome.bind_ok (hsize s h) ?_
  have hstore : Outcome
      (onlyIf (true = true ∧ fileSize s.mem i < off) (store (INode.fSize i) 8 off)) s
      (fun _ t => Fills lo hi last i (max (fileSize s.mem i) off) ∅ s t) E := by
    refine Outcome.onlyIf (fun hlt => ?_) fun hge => ?_
    · refine Outcome.of_eq_ok (store_eq (by rw [INode.fSize_eq]; omega)) ?_
      rw [max_eq_right hlt.2.le]
      exact h.storeSize hi' hoff
    · rw [max_eq_left (Nat.le_of_not_lt fun hlt => hge ⟨rfl, hlt⟩)]
      exact Fills.refl h
  refine Outcome.bind (hstore.mono ?_ fun _ he => he)
  intro _ t ht
  refine Outcome.bind_ok (hsize t ht.owned) ?_
  refine Outcome.bind_ok (assert_eq (by rw [ht.size]; omega)) ?_
  rw [onlyIf_pos rfl]
  have hvalid := firstSlots_field_valid (show min 16 (off / 4096 + 1) ≤ 18 by omega)
  have hunion : (∅ : Finset Slot) ∪ firstSlots .field (min 16 (off / 4096 + 1)) =
      firstSlots .field (min 16 (off / 4096 + 1)) := Finset.empty_union _
  have hfill := fillDirect_outcome (n := min 16 (off / 4096 + 1)) ht.owned hi' (by omega)
    (ht.room hvalid (by rwa [hunion]))
  refine Outcome.bind (hfill.mono ?_ ?_)
  · intro _ u hu
    rw [ht.size] at hu
    have hall := ht.trans hu (fun σ hσ => absurd hσ (Finset.notMem_empty σ)) hvalid
      (le_max_left _ _) le_rfl
    rw [hunion] at hall
    exact hrest u hall
  · intro e he
    have hex := ht.exhausted hvalid he
    rw [hunion] at hex
    exact hE e hex

/-- Below the double-indirect range a call with `create` fills exactly the slots
that the offset needs. -/
theorem getBlkno_outcome_of_lt (h : Ownership lo hi last s) (hi' : i ≤ last)
    (hoff : off < 4259840) (hroom : Room hi (emptySlots s.mem i (neededSlots off)) s.mem) :
    Outcome (INode.getBlkno i off true) s
      (fun b t => Fills lo hi last i (max (fileSize s.mem i) off) (neededSlots off) s t ∧
        b = fileBlk t.mem i (off / 4096))
      (Exhausted hi (emptySlots s.mem i (neededSlots off)) s.mem) := by
  have hsub : firstSlots .field (min 16 (off / 4096 + 1)) ⊆ neededSlots off :=
    Finset.subset_union_left
  refine growDirect_outcome h hi' (by omega) (hroom.mono (emptySlots_mono hsub)) ?_
    fun e he => he.mono (emptySlots_mono hsub)
  intro t ht
  by_cases hdirect : off < 65536
  · have hneeded : neededSlots off = firstSlots .field (min 16 (off / 4096 + 1)) := by
      unfold neededSlots
      rw [if_pos hdirect, Finset.union_empty]
    rw [if_pos (by exact hdirect), hneeded]
    exact Outcome.of_eq_ok (loadDirect_eq ht.owned hi' hdirect) ⟨ht, rfl⟩
  · have hneeded : neededSlots off = firstSlots .field (min 16 (off / 4096 + 1)) ∪
        ({.field 16} ∪ firstSlots (.entry (.field 16)) (min 1024 ((off - 65536) / 4096 + 1))) := by
      unfold neededSlots
      rw [if_neg hdirect]
    have hvalid : ∀ σ ∈ ({.field 16} ∪
        firstSlots (.entry (.field 16)) (min 1024 ((off - 65536) / 4096 + 1)) : Finset Slot),
        σ.Valid := fun σ hσ =>
      neededSlots_valid off σ (by rw [hneeded]; exact Finset.mem_union_right _ hσ)
    rw [hneeded] at hroom ⊢
    rw [if_neg (by exact hdirect)]
    unfold INode.getBlknoIndirect
    rw [onlyIf_pos rfl]
    refine Outcome.bind ((fillIndex_outcome (p := .field 16) ht.owned hi' (field_valid (by omega))
      (Or.inl rfl) trivial (by omega) (ht.room hvalid hroom)).mono ?_ ?_)
    · intro _ u hu
      have hv := hu.filled (.field 16) (Finset.mem_union_left _ (Finset.mem_singleton_self _))
      rw [ht.size] at hu
      have hind : off - 65536 < 4194304 := by omega
      have hblk : off / 4096 = 16 + (off - 65536) / 4096 := by omega
      rw [if_pos (by exact hind)]
      refine Outcome.of_eq_ok (loadIndirect_eq hu.owned hi' hind hv) ⟨?_, by rw [hblk]; rfl⟩
      exact ht.trans hu (firstSlots_field_valid (by omega)) hvalid (le_max_left _ _) le_rfl
    · intro e he
      exact ht.exhausted hvalid he

/-- The slot of block `k` is needed exactly up to the block of the offset. -/
theorem dataSlot_mem_neededSlots {k : Nat} (hoff : off < 4259840) :
    dataSlot k ∈ neededSlots off ↔ k ≤ off / 4096 := by
  unfold neededSlots dataSlot
  rw [Finset.mem_union]
  constructor
  · rintro (hdirect | hrest)
    · obtain ⟨l, hl, heq⟩ := mem_firstSlots.mp hdirect
      split at heq
      · cases heq
        omega
      · split at heq <;> cases heq
    split at hrest
    · exact absurd hrest (Finset.notMem_empty _)
    rcases Finset.mem_union.mp hrest with hone | hentry
    · have heq := Finset.mem_singleton.mp hone
      split at heq
      · cases heq
        omega
      · split at heq <;> cases heq
    · obtain ⟨l, hl, heq⟩ := mem_firstSlots.mp hentry
      split at heq
      · cases heq
      split at heq
      · cases heq
        omega
      · cases heq
  · intro hk
    rcases Nat.lt_or_ge k 16 with hlt | hge
    · rw [if_pos hlt]
      exact Or.inl (mem_firstSlots.mpr ⟨k, by omega, rfl⟩)
    · rw [if_neg (show ¬ k < 16 by omega), if_pos (show k < 1040 by omega),
        if_neg (show ¬ off < 65536 by omega)]
      exact Or.inr (Finset.mem_union_right _ (mem_firstSlots.mpr ⟨k - 16, by omega, rfl⟩))

theorem fileBlk_ne_zero_of_needed {m : Mem} {k : Nat} (hoff : off < 4259840)
    (hfilled : ∀ σ ∈ neededSlots off, slotVal m i σ ≠ 0) (hk : k ≤ off / 4096) :
    fileBlk m i k ≠ 0 :=
  hfilled _ ((dataSlot_mem_neededSlots hoff).mpr hk)

/-- A file whose blocks are mapped has the slots that lead to them. -/
theorem filled_of_mapped {m : Mem} (hoff : off < 4259840)
    (hmapped : ∀ k, k ≤ off / 4096 → fileBlk m i k ≠ 0) :
    ∀ σ ∈ neededSlots off, slotVal m i σ ≠ 0 := by
  intro σ hσ
  have hentry : ∀ k, k < 1024 → 16 + k ≤ off / 4096 →
      slotVal m i (.entry (.field 16) k) ≠ 0 := fun k hk hle => by
    have hblk := hmapped (16 + k) hle
    rwa [fileBlk, dataSlot, if_neg (by omega), if_pos (by omega), Nat.add_sub_cancel_left] at hblk
  unfold neededSlots at hσ
  rcases Finset.mem_union.mp hσ with hdirect | hrest
  · obtain ⟨k, hk, rfl⟩ := mem_firstSlots.mp hdirect
    have hblk := hmapped k (by omega)
    rwa [fileBlk, dataSlot, if_pos (by omega)] at hblk
  split at hrest
  · exact absurd hrest (Finset.notMem_empty σ)
  rcases Finset.mem_union.mp hrest with hone | hmore
  · -- an entry of the index block leads through its number
    rw [Finset.mem_singleton.mp hone]
    intro hzero
    exact hentry 0 (by omega) (by omega) (slotVal_entry_of_zero hzero)
  · obtain ⟨k, hk, rfl⟩ := mem_firstSlots.mp hmore
    exact hentry k (by omega) (by omega)

/-- Inode `i` reaches offset `off`, below the double-indirect range, with all the
slots that it needs. -/
structure Covered (m : Mem) (i off : Nat) : Prop where
  off_lt : off < 4259840
  off_le : off ≤ fileSize m i
  filled : ∀ σ ∈ neededSlots off, slotVal m i σ ≠ 0

theorem Covered.mono {m : Mem} {off' : Nat} (h : Covered m i off) (hle : off' ≤ off) :
    Covered m i off' :=
  ⟨hle.trans_lt h.off_lt, hle.trans h.off_le, fun σ hσ => h.filled σ (neededSlots_mono hle hσ)⟩

/-- A call with `create` for an offset that is covered changes nothing. -/
theorem getBlkno_covered (h : Ownership lo hi last s) (hi' : i ≤ last)
    (hcov : Covered s.mem i off) :
    INode.getBlkno i off true s = .ok (fileBlk s.mem i (off / 4096), s) := by
  have hnone : emptySlots s.mem i (neededSlots off) = 0 := emptySlots_of_filled hcov.filled
  have hout := getBlkno_outcome_of_lt h hi' hcov.off_lt (Or.inr (by omega))
  obtain ⟨b, t, hrun, ht, hb⟩ := (hout.mono (fun _ _ hq => hq) fun e he => by
    have hlt := he.2
    omega).exists_ok
  have hsame := ht.same (max_eq_left hcov.off_le).symm hcov.filled
  rw [hrun, hb, hsame]

/-! ## Calls that come to the outer loop -/

namespace INode

/-- The offset from which on a call of `get_blkno` comes to the loop. -/
def indirect2Start : Nat := blkSize * directBlkCount + blkSize * blknoPerBlk

theorem indirect2Start_eq : indirect2Start = 4259840 := rfl

/-- The steps of `get_blkno` in front of the loop; the result is the address of
`indirect_blks`. -/
def toIndirect2 (this off : Nat) (create : Bool) : ParchM Nat := do
  let size ← load (fSize this) 8
  onlyIf (create = true ∧ size < off) (store (fSize this) 8 off)
  let size ← load (fSize this) 8
  assert (off ≤ size) "off <= this->f_size"
  onlyIf (create = true) do
    forUpTo (min directBlkCount (off / blkSize + 1)) fun i => allocIfBad (directBlkNo this i)
  onlyIf (create = true) do
    allocIfBad (indirectBlk this)
    let blks ← getBlk (← load (indirectBlk this) 4)
    forUpTo (min blknoPerBlk ((off - blkSize * directBlkCount) / blkSize + 1)) fun i =>
      allocIfBad (blks + 4 * i)
  onlyIf (create = true) (allocIfBad (indirectBlk2 this))
  getBlk (← load (indirectBlk2 this) 4)

/-- From the double-indirect range on a call is its steps up to the loop, the loop, and a
lookup. -/
theorem getBlkno_eq_loop (this : Nat) (h : indirect2Start ≤ off) :
    getBlkno this off true = (do
      let indirectBlks ← toIndirect2 this off true
      fillIndirect2 (off - indirect2Start) indirectBlks (2 ^ 31) 0
      getBlknoIndirect2 this (off - indirect2Start) false) := by
  rw [indirect2Start_eq] at h
  have hdirect : ¬ off < blkSize * directBlkCount := by
    simp only [blkSize, directBlkCount]
    omega
  have hindirect : ¬ off - blkSize * directBlkCount < blkSize * blknoPerBlk := by
    simp only [blkSize, directBlkCount, blknoPerBlk]
    omega
  have hrest : off - blkSize * directBlkCount - blkSize * blknoPerBlk = off - indirect2Start :=
    Nat.sub_sub _ _ _
  simp only [getBlkno, getBlknoIndirect, if_neg hdirect, if_neg hindirect, hrest, toIndirect2,
    getBlknoIndirect2, bind_assoc, onlyIf_pos, onlyIf_neg, Bool.false_eq_true, not_false_eq_true,
    pure_bind]

end INode

/-- The steps in front of the loop map the blocks in front of its range, and lead to the
inode's own index block. -/
theorem toIndirect2_outcome (h : Ownership lo hi last s) (hclosed : Closed hi s.mem)
    (hi' : i ≤ last) (hoff : off < 2 ^ 64) (hge : INode.indirect2Start ≤ off) :
    Outcome (INode.toIndirect2 i off true) s
      (fun blks t => Looping lo hi last i blks t 0 t ∧
        Grown lo hi last i (max (fileSize s.mem i) off) s t ∧
        ∀ k, k < 1040 → fileBlk t.mem i k ≠ 0)
      (fun e => e = blockBitmapFull) := by
  rw [INode.indirect2Start_eq] at hge
  have hlast := h.last_lt
  have hsixteen := field_valid (show 16 < 18 by omega)
  have hseventeen := field_valid (show 17 < 18 by omega)
  have hmin : min blknoPerBlk ((off - blkSize * directBlkCount) / blkSize + 1) = 1024 :=
    min_eq_left (by simp only [blknoPerBlk, blkSize, directBlkCount]; omega)
  refine growDirect_outcome h hi' hoff (Or.inl hclosed) (fun r hr => ?_) fun e he => he.1
  have hgr := hr.grown (firstSlots_field_valid (by omega))
  rw [onlyIf_pos rfl, hmin]
  refine Outcome.bind ((fillIndex_outcome (p := .field 16) hgr.owned hi' hsixteen (Or.inl rfl)
    trivial le_rfl (Or.inl (hgr.grows.closed hclosed))).mono ?_ fun e he => he.1)
  intro _ t ht
  have hgt := ht.grown fun σ hσ => (Finset.mem_union.mp hσ).elim
    (fun hone => by rw [Finset.mem_singleton.mp hone]; exact hsixteen)
    (firstSlots_entry_valid hsixteen (Or.inl rfl) le_rfl σ)
  have hclosed' := ht.grows.closed (hgr.grows.closed hclosed)
  rw [hgr.size] at hgt
  rw [onlyIf_pos rfl]
  refine Outcome.bind ((allocIfBad_outcome (σ := .field 17) ht.owned hi' hseventeen trivial
    (Or.inl hclosed')).mono ?_ fun e he => he.1)
  intro _ u hu
  have hgu := hu.grown fun σ hσ => by
    rw [Finset.mem_singleton.mp hσ]
    exact hseventeen
  have hbase := hu.filled (.field 17) (Finset.mem_singleton_self _)
  have hmapped := hu.owned.mapped_ge
  have hload : load (INode.indirectBlk2 i) 4 u = .ok (slotVal u.mem i (.field 17), u) :=
    load_eq (by rw [INode.indirectBlk2_eq]; omega)
  refine Outcome.bind_ok hload ?_
  refine Outcome.of_eq_ok (hu.owned.getBlk_slotVal hi' hseventeen hbase) ?_
  rw [hgt.size] at hgu
  have hrest := hgt.trans hgu hgr.size.le le_rfl
  refine ⟨⟨Grown.refl hu.owned, hu.grows.closed hclosed', hbase, rfl,
    fun j hj => absurd hj (Nat.not_lt_zero j)⟩, hgr.trans hrest (le_max_left _ _) le_rfl,
    fun k hk => ?_⟩
  rcases Nat.lt_or_ge k 16 with hdirect | hind
  · have hv := hr.filled (.field k) (mem_firstSlots.mpr ⟨k, by omega, rfl⟩)
    rw [fileBlk_direct hdirect, hrest.keep hi' (field_valid (by omega)) hv]
    exact hv
  · have hentry : (Slot.entry (.field 16) (k - 16)).Valid :=
      ⟨hsixteen, Or.inl rfl, show k - 16 < 1024 by omega⟩
    have hv := ht.filled _ (Finset.mem_union_right _ (mem_firstSlots.mpr ⟨k - 16, by omega, rfl⟩))
    rw [show k = 16 + (k - 16) by omega, fileBlk_indirect (by omega), hgu.keep hi' hentry hv]
    exact hv

/-- What a call with `create` for offset `off` leaves behind on inode `i`. -/
structure Mapped (lo hi last i off : Nat) (s t : ParchFS) : Prop where
  grown : Grown lo hi last i (max (fileSize s.mem i) off) s t
  mapped : ∀ k, k ≤ off / 4096 → fileBlk t.mem i k ≠ 0
  beyond : 4259840 ≤ off → fileBlk t.mem i (off / 4096 + 1) ≠ 0
  off_lt : off < 2151743488

/-- For every offset a call with `create` maps all blocks up to that of the
offset, and from the double-indirect range on one more. -/
theorem getBlkno_outcome (h : Ownership lo hi last s) (hclosed : Closed hi s.mem)
    (hi' : i ≤ last) (hoff : off < 2 ^ 64) :
    Outcome (INode.getBlkno i off true) s
      (fun b t => Mapped lo hi last i off s t ∧ b = fileBlk t.mem i (off / 4096))
      (fun e => e = blockBitmapFull) := by
  by_cases hsmall : off < 4259840
  · refine (getBlkno_outcome_of_lt h hi' hsmall (Or.inl hclosed)).mono ?_ fun e he => he.1
    rintro b t ⟨ht, hb⟩
    refine ⟨⟨ht.grown (neededSlots_valid off), ?_, fun hge => by omega, by omega⟩, hb⟩
    intro k hk
    exact fileBlk_ne_zero_of_needed hsmall ht.filled hk
  · have hge : 4259840 ≤ off := by omega
    rw [INode.getBlkno_eq_loop i hge]
    refine Outcome.bind ((toIndirect2_outcome h hclosed hi' hoff hge).mono ?_ fun _ he => he)
    rintro blks t ⟨hloop, hgt, hbelow⟩
    refine Outcome.bind ((fillIndirect2_outcome (off - 4259840) hgt.owned hloop.closed hi'
      hloop.index hloop.blks_eq (Nat.add_zero (2 ^ 31)) hloop.full).mono ?_ fun _ he => he)
    rintro _ u ⟨hgu, K, hK, hK', hupto⟩
    rw [hgt.size] at hgu
    have hdouble : ∀ k, 1040 ≤ k → k ≤ off / 4096 + 1 → fileBlk u.mem i k ≠ 0 := fun k hk hk' => by
      have hv := hupto (k - 1040) (by omega)
      rwa [show 1040 + (k - 1040) = k by omega] at hv
    have hblk : 1040 + (off - 4259840) / 4096 = off / 4096 := by omega
    have hsmall' : off - 4259840 < 4294967296 := by omega
    have hlookup := getBlknoIndirect2_lookup hgu.owned hi' hsmall' (hupto _ hK.le)
    rw [hblk] at hlookup
    refine Outcome.of_eq_ok hlookup
      ⟨⟨hgt.trans hgu (le_max_left _ _) le_rfl, fun k hk => ?_, fun _ => ?_, ?_⟩, rfl⟩
    · rcases Nat.lt_or_ge k 1040 with hlt | hge
      · have hv := hbelow k hlt
        rw [fileBlk, hgu.keep hi' (dataSlot_valid (by omega)) hv]
        exact hv
      · exact hdouble k hge (by omega)
    · exact hdouble _ (by omega) le_rfl
    · omega

end ParchTestbench
