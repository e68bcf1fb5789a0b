import ParchTestbench.ParchFS.FileContents

/-!
# ParchFS: the block map is stable and one-to-one

A block that `get_blkno` has handed out for an offset stays the block of that offset, and no
two offsets of an inode share one.  A lookup finds it again, and so does a further call with
`create`, as long as the bitmap has what the call takes: in the double-indirect range every
call allocates one more block behind the file.

Main results:

- Theorem `getBlkno_repeated`: a call with `create` for a mapped offset of the double-indirect
  range fills the first empty entry behind it, or stops with a full block bitmap.
- Theorem `mapping_stable`: on a volume with a marked reserve, after every run of calls.
-/

namespace ParchTestbench

open ParchFS Program

variable {lo hi last i n off j k : Nat} {base s t u v : ParchFS} {T : Finset Slot}

/-! ## Calls that find their slots filled -/

/-- Filling slots that are filled changes the size only. -/
theorem Fills.of_filled (h : Fills lo hi last i n T s t) (hi' : i ≤ last)
    (hfull : ∀ σ ∈ T, slotVal s.mem i σ ≠ 0) : Fills lo hi last i n ∅ s t where
  owned := h.owned
  grows := h.grows
  size := h.size
  filled σ hσ := absurd hσ (Finset.notMem_empty σ)
  others σ hσ _ := by
    by_cases hmem : σ ∈ T
    · exact h.grows.keep hi' hσ (hfull σ hmem)
    · exact h.others σ hσ hmem
  count := by
    rw [h.count, emptySlots_of_filled hfull]
    simp [emptySlots]
  same hsize _ := h.same hsize hfull

/-- There is always room for slots that are filled. -/
theorem room_of_filled {m : Mem} (hfull : ∀ σ ∈ T, slotVal m i σ ≠ 0) :
    Room hi (emptySlots m i T) m := by
  rw [emptySlots_of_filled hfull]
  exact Or.inr (Nat.zero_le _)

/-- No call stops for slots that are filled. -/
theorem Exhausted.elim_filled {m : Mem} {e : Abort} (h : Exhausted hi (emptySlots m i T) m e)
    (hfull : ∀ σ ∈ T, slotVal m i σ ≠ 0) : False := by
  rw [emptySlots_of_filled hfull] at h
  exact absurd h.2 (Nat.not_lt_zero _)

/-- The steps in front of the loop, when all their slots are filled. -/
theorem toIndirect2_filled (h : Ownership lo hi last s) (hi' : i ≤ last) (hoff : off < 2 ^ 64)
    (hge : INode.indirect2Start ≤ off)
    (hbefore : ∀ σ ∈ neededSlots 4259839, slotVal s.mem i σ ≠ 0)
    (hbase : slotVal s.mem i (.field 17) ≠ 0) :
    Outcome (INode.toIndirect2 i off true) s
      (fun blks t => Fills lo hi last i (max (fileSize s.mem i) off) ∅ s t ∧
        blks = 4096 * slotVal t.mem i (.field 17))
      (fun _ => False) := by
  rw [INode.indirect2Start_eq] at hge
  have hlast := h.last_lt
  have hsixteen := field_valid (show 16 < 18 by omega)
  have hseventeen := field_valid (show 17 < 18 by omega)
  have hfields : min 16 (off / 4096 + 1) = 16 := by omega
  have hentries : min blknoPerBlk ((off - blkSize * directBlkCount) / blkSize + 1) = 1024 :=
    min_eq_left (by simp only [blknoPerBlk, blkSize, directBlkCount]; omega)
  have hneeded : neededSlots 4259839 = firstSlots .field 16 ∪
      ({.field 16} ∪ firstSlots (.entry (.field 16)) 1024) := rfl
  have hdirect : ∀ σ ∈ firstSlots .field 16, slotVal s.mem i σ ≠ 0 := fun σ hσ =>
    hbefore σ (by rw [hneeded]; exact Finset.mem_union_left _ hσ)
  have hrest : ∀ σ ∈ ({.field 16} ∪ firstSlots (.entry (.field 16)) 1024 : Finset Slot),
      slotVal s.mem i σ ≠ 0 := fun σ hσ =>
    hbefore σ (by rw [hneeded]; exact Finset.mem_union_right _ hσ)
  have hvalid : ∀ σ ∈ ({.field 16} ∪ firstSlots (.entry (.field 16)) 1024 : Finset Slot),
      σ.Valid := fun σ hσ =>
    neededSlots_valid 4259839 σ (by rw [hneeded]; exact Finset.mem_union_right _ hσ)
  have hnone : ∀ σ ∈ (∅ : Finset Slot), σ.Valid := fun σ hσ => absurd hσ (Finset.notMem_empty σ)
  unfold INode.toIndirect2
  rw [← hfields] at hdirect
  refine growDirect_outcome h hi' hoff (room_of_filled hdirect) (fun r hr => ?_)
    fun e he => he.elim_filled hdirect
  have hr' := hr.of_filled hi' hdirect
  have hrest' : ∀ σ ∈ ({.field 16} ∪ firstSlots (.entry (.field 16)) 1024 : Finset Slot),
      slotVal r.mem i σ ≠ 0 := fun σ hσ => by
    rw [hr'.others σ (hvalid σ hσ) (Finset.notMem_empty σ)]
    exact hrest σ hσ
  rw [onlyIf_pos rfl, hentries]
  refine Outcome.bind ((fillIndex_outcome (p := .field 16) hr'.owned hi' hsixteen (Or.inl rfl)
    trivial le_rfl (room_of_filled hrest')).mono ?_ fun e he => he.elim_filled hrest')
  intro _ t ht
  have ht' := ht.of_filled hi' hrest'
  have hbase' : ∀ σ ∈ ({.field 17} : Finset Slot), slotVal t.mem i σ ≠ 0 := fun σ hσ => by
    rw [Finset.mem_singleton.mp hσ, ht'.others _ hseventeen (Finset.notMem_empty _),
      hr'.others _ hseventeen (Finset.notMem_empty _)]
    exact hbase
  rw [onlyIf_pos rfl]
  refine Outcome.bind ((allocIfBad_outcome (σ := .field 17) ht'.owned hi' hseventeen trivial
    (room_of_filled hbase')).mono ?_ fun e he => he.elim_filled hbase')
  intro _ u hu
  have hu' := hu.of_filled hi' hbase'
  have hindex := hu.filled (.field 17) (Finset.mem_singleton_self _)
  have hmapped := hu.owned.mapped_ge
  have hload : load (INode.indirectBlk2 i) 4 u = .ok (slotVal u.mem i (.field 17), u) :=
    load_eq (by rw [INode.indirectBlk2_eq]; omega)
  refine Outcome.bind_ok hload ?_
  refine Outcome.of_eq_ok (hu.owned.getBlk_slotVal hi' hseventeen hindex) ⟨?_, rfl⟩
  rw [hr'.size] at ht'
  have hall := hr'.trans ht' hnone hnone (le_max_left _ _) le_rfl
  rw [ht'.size] at hu'
  exact hall.trans hu' hnone hnone (le_max_left _ _) le_rfl

/-! ## The first empty entry -/

/-- Entry `j` of the double-indirect range is the first one of inode `i` that holds no block. -/
structure FirstEmpty (m : Mem) (i j : Nat) : Prop where
  empty : fileBlk m i (1040 + j) = 0
  before : ∀ k, k < 1040 + j → fileBlk m i k ≠ 0

/-- The blocks that entry `j` takes: one for itself and one for its index block, when that is
missing. -/
def entryTakes (m : Mem) (i j : Nat) : Nat :=
  if slotVal m i (indexSlot (j / 1024)) = 0 then 2 else 1

namespace FirstEmpty

variable {m m' : Mem}

theorem congr (h : FirstEmpty m i j) (hsame : ∀ k, k ≤ 1040 + j → fileBlk m' i k = fileBlk m i k) :
    FirstEmpty m' i j where
  empty := (hsame _ le_rfl).trans h.empty
  before k hk := by
    rw [hsame k hk.le]
    exact h.before k hk

theorem entry_eq (h : FirstEmpty m i j) :
    slotVal m i (.entry (indexSlot (j / 1024)) (j % 1024)) = 0 := by
  rw [← fileBlk_double]
  exact h.empty

theorem entry_ne (h : FirstEmpty m i j) {l : Nat} (hl : l < 1024) (hlt : 1024 * k + l < j) :
    slotVal m i (.entry (indexSlot k) l) ≠ 0 := by
  have hne := h.before (1040 + (1024 * k + l)) (by omega)
  rwa [fileBlk_double, show (1024 * k + l) / 1024 = k by omega,
    show (1024 * k + l) % 1024 = l by omega] at hne

/-- The slots of the entry and of its index block that are empty are those that it takes. -/
theorem emptySlots_eq (h : FirstEmpty m i j) :
    emptySlots m i ({indexSlot (j / 1024)} ∪ {dataSlot (1040 + j)}) = entryTakes m i j := by
  have hne : indexSlot (j / 1024) ≠ dataSlot (1040 + j) := by
    rw [dataSlot_double]
    simp
  have hzero : slotVal m i (dataSlot (1040 + j)) = 0 := h.empty
  unfold emptySlots entryTakes
  rw [Finset.filter_union, Finset.filter_singleton, Finset.filter_singleton, if_pos hzero]
  split
  · rw [Finset.card_union_of_disjoint (Finset.disjoint_singleton.mpr hne)]
    rfl
  · rw [Finset.empty_union, Finset.card_singleton]

/-- The blocks of an inode are fewer than half a million. -/
theorem lt (h : FirstEmpty s.mem i j) (hown : Ownership lo hi last s) (hi' : i ≤ last) :
    j / 1024 < 512 :=
  hown.index2_lt hi' fun k hk l hl => h.entry_ne hl (by omega)

end FirstEmpty

/-! ## The loop up to the first empty entry -/

/-- The scan passes over filled entries. -/
theorem fillIndirect2Block_skip {blks fuel : Nat} (h : Ownership lo hi last s) (hi' : i ≤ last)
    (hk : k < 1024) (hindex : slotVal s.mem i (indexSlot k) ≠ 0)
    (hblks : blks = 4096 * slotVal s.mem i (indexSlot k)) (hfuel : n + fuel ≤ 1024)
    (hfilled : ∀ l, 1024 - (n + fuel) ≤ l → l < 1024 - fuel →
      slotVal s.mem i (.entry (indexSlot k) l) ≠ 0) :
    INode.fillIndirect2Block off k blks (n + fuel) s =
      INode.fillIndirect2Block off k blks fuel s := by
  induction n with
  | zero => rw [Nat.zero_add]
  | succ n ih =>
      obtain ⟨l, hl⟩ : ∃ l, l + (n + fuel + 1) = 1024 := ⟨1024 - (n + fuel + 1), by omega⟩
      have hvalid := entry_indexSlot_valid hk (show l < 1024 by omega)
      have hlive : Live s.mem i (.entry (indexSlot k) l) := hindex
      have hentry : blknoPerBlk - (n + fuel + 1) = l := by
        unfold blknoPerBlk
        omega
      have haddr : blks + 4 * l = slotAddr s.mem i (.entry (indexSlot k) l) := by
        rw [hblks]
        rfl
      have hle := h.slotAddr_le hi' hvalid hlive
      have hmapped := h.mapped_ge
      have hne : ¬ slotVal s.mem i (.entry (indexSlot k) l) = badBlock :=
        hfilled l (by omega) (by omega)
      have hrest := ih (by omega) fun m hm hm' => hfilled m (by omega) hm'
      rw [show n + 1 + fuel = n + fuel + 1 by omega, INode.fillIndirect2Block]
      rw [hentry, haddr, bind_eq_ok (load_eq (by omega)), load_slotAddr hlive, if_neg hne]
      exact hrest

/-- A pass over a full index block changes nothing. -/
theorem indirect2Pass_full {blks : Nat} (h : Ownership lo hi last s) (hi' : i ≤ last)
    (hk : k < 1024) (hbase : slotVal s.mem i (.field 17) ≠ 0)
    (hblks : blks = 4096 * slotVal s.mem i (.field 17))
    (hfull : ∀ l, l < 1024 → slotVal s.mem i (.entry (indexSlot k) l) ≠ 0) :
    INode.indirect2Pass off blks k s = .ok (false, s) := by
  have hvalid := indexSlot_valid hk
  have hindex : slotVal s.mem i (indexSlot k) ≠ 0 :=
    live_of_slotVal_ne_zero (hfull 0 (by omega))
  have haddr : blks + 4 * k = slotAddr s.mem i (indexSlot k) := by
    rw [hblks]
    rfl
  have hle := h.slotAddr_le hi' hvalid hbase
  have hmapped := h.mapped_ge
  have hload : load (slotAddr s.mem i (indexSlot k)) 4 s =
      .ok (slotVal s.mem i (indexSlot k), s) := by
    rw [load_eq (by omega), load_slotAddr (σ := indexSlot k) hbase]
  have hentry : INode.indirect2Entry blks k s = .ok (slotVal s.mem i (indexSlot k), s) := by
    unfold INode.indirect2Entry INode.allocIfBad
    rw [haddr, bind_assoc, bind_eq_ok hload, onlyIf_bind_neg (show ¬ _ = badBlock from hindex),
      hload]
  unfold INode.indirect2Pass
  rw [bind_eq_ok hentry, bind_eq_ok (h.getBlk_slotVal hi' hvalid hindex)]
  exact @fillIndirect2Block_skip _ _ _ _ _ off k s _ 0 h hi' hk hindex rfl le_rfl
    fun l _ hl => hfull l hl

/-- The pass that comes to the first empty entry fills it and ends the loop. -/
theorem indirect2Pass_first {blks : Nat} (h : Ownership lo hi last s) (hclosed : Closed hi s.mem)
    (hi' : i ≤ last) (hj : FirstEmpty s.mem i j) (hbase : slotVal s.mem i (.field 17) ≠ 0)
    (hblks : blks = 4096 * slotVal s.mem i (.field 17)) (hbehind : off < 4096 * j) :
    Outcome (INode.indirect2Pass off blks (j / 1024)) s
      (fun done t => done = true ∧ Fills lo hi last i (fileSize s.mem i)
        ({indexSlot (j / 1024)} ∪ {dataSlot (1040 + j)}) s t)
      (Exhausted hi (entryTakes s.mem i j) s.mem) := by
  have hk := hj.lt h hi'
  have hvalid := indexSlot_valid (show j / 1024 < 1024 by omega)
  have hvalid' : ∀ σ ∈ ({dataSlot (1040 + j)} : Finset Slot), σ.Valid := fun σ hσ => by
    rw [Finset.mem_singleton.mp hσ]
    exact dataSlot_valid (by omega)
  have hone : ∀ σ ∈ ({indexSlot (j / 1024)} : Finset Slot), σ.Valid := fun σ hσ => by
    rw [Finset.mem_singleton.mp hσ]
    exact hvalid
  have haddr : blks + 4 * (j / 1024) = slotAddr s.mem i (indexSlot (j / 1024)) := by
    rw [hblks]
    rfl
  have htakes := hj.emptySlots_eq
  unfold INode.indirect2Pass INode.indirect2Entry
  rw [haddr, bind_assoc]
  refine Outcome.bind ((allocIfBad_outcome h hi' hvalid hbase (Or.inl hclosed)).mono ?_
    fun e he => ?_)
  · intro _ t ht
    have hindex := ht.filled _ (Finset.mem_singleton_self _)
    have hblk : ∀ k, k ≤ 1040 + j → fileBlk t.mem i k = fileBlk s.mem i k := fun k hk =>
      ht.others _ (dataSlot_valid (by omega)) fun hmem =>
        dataSlot_not_isIndex k (by rw [Finset.mem_singleton.mp hmem]; rfl)
    have hjt := hj.congr hblk
    have haddr' : slotAddr s.mem i (indexSlot (j / 1024)) =
        slotAddr t.mem i (indexSlot (j / 1024)) := by
      simp only [slotAddr, ht.grows.keep hi' (field_valid (show 17 < 18 by omega)) hbase]
    have hle := ht.owned.slotAddr_le hi' hvalid (live_of_slotVal_ne_zero hindex)
    have hmapped := ht.owned.mapped_ge
    rw [haddr']
    refine Outcome.bind_ok (load_eq (by omega)) ?_
    rw [load_slotAddr (live_of_slotVal_ne_zero hindex)]
    refine Outcome.bind_ok (ht.owned.getBlk_slotVal hi' hvalid hindex) ?_
    obtain ⟨fuel, hfuel⟩ : ∃ fuel, j % 1024 + (fuel + 1) = 1024 := ⟨1023 - j % 1024, by omega⟩
    have hskip : INode.fillIndirect2Block off (j / 1024)
        (4096 * slotVal t.mem i (indexSlot (j / 1024))) (j % 1024 + (fuel + 1)) t =
          INode.fillIndirect2Block off (j / 1024) _ (fuel + 1) t :=
      fillIndirect2Block_skip ht.owned hi' (show j / 1024 < 1024 by omega) hindex rfl (by omega)
        fun l _ hl => hjt.entry_ne (by omega) (by omega)
    rw [hfuel] at hskip
    refine Outcome.congr hskip ?_
    have hroom : Room hi 1 t.mem := Or.inl (ht.grows.closed hclosed)
    have hsum := ht.emptySlots_union hvalid'
    have hempty : emptySlots t.mem i {dataSlot (1040 + j)} = 1 := by
      rw [emptySlots_singleton]
      exact if_pos hjt.empty
    have hexhausted : ∀ e, Exhausted hi 1 t.mem e → Exhausted hi (entryTakes s.mem i j) s.mem e :=
      fun e he => by
        rw [← hempty] at he
        rw [← htakes]
        exact ht.exhausted hvalid' he
    refine fillIndirect2Block_step ht.owned hi' (by omega) hindex rfl hfuel hroom ?_
      (fun hne => absurd hjt.entry_eq hne) hexhausted
    intro _ u hu
    have hcap : INode.i2Cap (j / 1024) (j % 1024) > off := by
      simp only [INode.i2Cap, blkSize, blknoPerBlk]
      omega
    rw [if_pos hcap]
    rw [← dataSlot_double, ht.size] at hu
    exact Outcome.pure ⟨rfl, ht.trans hu hone hvalid' le_rfl le_rfl⟩
  · rw [← htakes]
    exact he.mono (emptySlots_mono Finset.subset_union_left)

/-- The loop fills the first empty entry and its index block, and nothing else. -/
theorem fillIndirect2_first {blks : Nat} (h : Ownership lo hi last s) (hclosed : Closed hi s.mem)
    (hi' : i ≤ last) (hj : FirstEmpty s.mem i j) (hbase : slotVal s.mem i (.field 17) ≠ 0)
    (hblks : blks = 4096 * slotVal s.mem i (.field 17)) (hbehind : off < 4096 * j) :
    Outcome (INode.fillIndirect2 off blks (2 ^ 31) 0) s
      (fun _ t => Fills lo hi last i (fileSize s.mem i)
        ({indexSlot (j / 1024)} ∪ {dataSlot (1040 + j)}) s t)
      (Exhausted hi (entryTakes s.mem i j) s.mem) := by
  have hk := hj.lt h hi'
  rw [INode.fillIndirect2_eq]
  have hbound : ∀ k (t : ParchFS), k ≤ j / 1024 ∧ t = s → k < 512 := fun k t ht => by omega
  refine Outcome.untilDone hbound (by omega) ⟨Nat.zero_le _, rfl⟩ ?_
  rintro k t ⟨hle, rfl⟩
  rcases Nat.lt_or_ge k (j / 1024) with hlt | hge
  · have hpass : INode.indirect2Pass off blks k t = .ok (false, t) :=
      indirect2Pass_full h hi' (by omega) hbase hblks fun l hl => hj.entry_ne hl (by omega)
    exact Outcome.of_eq_ok hpass ⟨nofun, fun _ => ⟨hlt, rfl⟩⟩
  · obtain rfl : k = j / 1024 := by omega
    refine (indirect2Pass_first h hclosed hi' hj hbase hblks hbehind).mono ?_ fun _ he => he
    rintro done u ⟨rfl, hu⟩
    exact ⟨fun _ => hu, nofun⟩

/-- A call with `create` for a mapped offset of the double-indirect range returns the block of
the offset, after it has filled the first empty entry behind it. -/
theorem getBlkno_repeated (h : Ownership lo hi last s) (hclosed : Closed hi s.mem) (hi' : i ≤ last)
    (hoff : off < 2 ^ 64) (hge : 4259840 ≤ off) (hj : FirstEmpty s.mem i j)
    (hbehind : off < 4259840 + 4096 * j) :
    Outcome (INode.getBlkno i off true) s
      (fun b t => Fills lo hi last i (max (fileSize s.mem i) off)
        ({indexSlot (j / 1024)} ∪ {dataSlot (1040 + j)}) s t ∧ b = fileBlk s.mem i (off / 4096))
      (Exhausted hi (entryTakes s.mem i j) s.mem) := by
  have hk := hj.lt h hi'
  have hnone : ∀ σ ∈ (∅ : Finset Slot), σ.Valid := fun σ hσ => absurd hσ (Finset.notMem_empty σ)
  have hvalid : ∀ σ ∈ ({indexSlot (j / 1024)} ∪ {dataSlot (1040 + j)} : Finset Slot), σ.Valid := by
    intro σ hσ
    rcases Finset.mem_union.mp hσ with hindex | hdata
    · rw [Finset.mem_singleton.mp hindex]
      exact indexSlot_valid (by omega)
    · rw [Finset.mem_singleton.mp hdata]
      exact dataSlot_valid (by omega)
  have hbase : slotVal s.mem i (.field 17) ≠ 0 :=
    live_of_slotVal_ne_zero (live_of_slotVal_ne_zero (hj.entry_ne (k := 0) (l := 0) (by omega)
      (by omega)))
  have hbefore := filled_of_mapped (i := i) (m := s.mem) (show 4259839 < 4259840 by omega)
    fun k hk => hj.before k (by omega)
  rw [INode.getBlkno_eq_loop i hge]
  refine Outcome.bind ((toIndirect2_filled h hi' hoff hge hbefore hbase).mono ?_
    fun _ he => he.elim)
  rintro blks t ⟨ht, hblks⟩
  have hblk : ∀ k, k < 1049616 → fileBlk t.mem i k = fileBlk s.mem i k := fun k hk =>
    ht.others _ (dataSlot_valid hk) (Finset.notMem_empty _)
  have hjt := hj.congr fun k hk => hblk k (by omega)
  have hbase' : slotVal t.mem i (.field 17) ≠ 0 := by
    rw [ht.others _ (field_valid (by omega)) (Finset.notMem_empty _)]
    exact hbase
  have hclosed' := ht.grows.closed hclosed
  have hsub : off - INode.indirect2Start = off - 4259840 := rfl
  rw [hsub]
  refine Outcome.bind ((fillIndirect2_first ht.owned hclosed' hi' hjt hbase' hblks
    (show off - 4259840 < 4096 * j by omega)).mono ?_ fun e he => ?_)
  · intro _ u hu
    have hpage : 1040 + (off - 4259840) / 4096 = off / 4096 := by omega
    have hmapped : fileBlk t.mem i (off / 4096) ≠ 0 := hjt.before _ (by omega)
    have hsame : fileBlk u.mem i (off / 4096) = fileBlk t.mem i (off / 4096) :=
      hu.grows.keep hi' (dataSlot_valid (by omega)) hmapped
    have hlookup := getBlknoIndirect2_lookup hu.owned hi' (show off - 4259840 < 4294967296 by omega)
      (by rw [hpage, hsame]; exact hmapped)
    rw [hpage] at hlookup
    rw [ht.size] at hu
    have hall := ht.trans hu hnone hvalid (le_max_left _ _) le_rfl
    rw [Finset.empty_union] at hall
    exact Outcome.of_eq_ok hlookup ⟨hall, by rw [hsame, hblk _ (by omega)]⟩
  · rw [← hjt.emptySlots_eq] at he
    have hall := ht.exhausted hvalid he
    rwa [Finset.empty_union, hj.emptySlots_eq] at hall

/-- Such a call returns exactly when the pool has the blocks that the entry takes. -/
theorem getBlkno_repeated_iff (h : Ownership lo hi last s) (hclosed : Closed hi s.mem)
    (hi' : i ≤ last) (hoff : off < 2 ^ 64) (hge : 4259840 ≤ off) (hj : FirstEmpty s.mem i j)
    (hbehind : off < 4259840 + 4096 * j) :
    (∃ t, INode.getBlkno i off true s = .ok (fileBlk s.mem i (off / 4096), t)) ↔
      entryTakes s.mem i j ≤ freeCount hi s.mem := by
  have hcall := getBlkno_repeated h hclosed hi' hoff hge hj hbehind
  constructor
  · rintro ⟨t, hrun⟩
    have hcount := (hcall.of_ok hrun).1.count
    rw [hj.emptySlots_eq] at hcount
    omega
  · intro hroom
    obtain ⟨b, t, hrun, -, rfl⟩ := (hcall.mono (fun _ _ hq => hq) fun e he =>
      absurd he.2 (Nat.not_lt.mpr hroom)).exists_ok
    exact ⟨t, hrun⟩

/-! ## Blocks that stay -/

/-- Inode `i` has a block for every offset up to `off`, and from the double-indirect range on
one more. -/
structure Reaches (m : Mem) (i off : Nat) : Prop where
  mapped : ∀ k, k ≤ off / 4096 → fileBlk m i k ≠ 0
  beyond : 4259840 ≤ off → fileBlk m i (off / 4096 + 1) ≠ 0
  off_lt : off < 2151743488

namespace Reaches

variable {m m' : Mem}

theorem keep (h : Reaches m i off)
    (hkeep : ∀ k, k < 1049616 → fileBlk m i k ≠ 0 → fileBlk m' i k = fileBlk m i k) :
    Reaches m' i off where
  mapped k hk := by
    have hlt := h.off_lt
    rw [hkeep k (by omega) (h.mapped k hk)]
    exact h.mapped k hk
  beyond hge := by
    have hlt := h.off_lt
    rw [hkeep _ (by omega) (h.beyond hge)]
    exact h.beyond hge
  off_lt := h.off_lt

/-- Some entry behind the offset is empty. -/
theorem exists_firstEmpty (h : Reaches s.mem i off) (hown : Ownership lo hi last s)
    (hi' : i ≤ last) (hge : 4259840 ≤ off) :
    ∃ j, FirstEmpty s.mem i j ∧ off / 4096 + 2 ≤ 1040 + j := by
  have hex : ∃ k, fileBlk s.mem i k = 0 := by
    by_contra hall
    have hlt := hown.index2_lt (k := 512) hi' fun q hq l hl => by
      have hne : fileBlk s.mem i (1040 + (1024 * q + l)) ≠ 0 := fun hc => hall ⟨_, hc⟩
      rwa [fileBlk_double, show (1024 * q + l) / 1024 = q by omega,
        show (1024 * q + l) % 1024 = l by omega] at hne
    omega
  have hbehind : off / 4096 + 2 ≤ Nat.find hex := by
    by_contra hlt
    have hzero := Nat.find_spec hex
    rcases Nat.lt_or_ge (Nat.find hex) (off / 4096 + 1) with hbefore | hafter
    · exact h.mapped _ (by omega) hzero
    · rw [show Nat.find hex = off / 4096 + 1 by omega] at hzero
      exact h.beyond hge hzero
  obtain ⟨j, hj⟩ : ∃ j, Nat.find hex = 1040 + j := ⟨Nat.find hex - 1040, by omega⟩
  refine ⟨j, ⟨?_, fun k hk => ?_⟩, by omega⟩
  · rw [← hj]
    exact Nat.find_spec hex
  · exact Nat.find_min hex (by omega)

end Reaches

/-- A call keeps every block that it finds in a slot. -/
theorem ParchFS.Op.Effect.keep {op : Op} (heff : op.Effect lo hi last s t)
    (hlast : last + op.added < 8192) (hi' : i ≤ last) {σ : Slot} (hσ : σ.Valid)
    (hv : slotVal s.mem i σ ≠ 0) : slotVal t.mem i σ = slotVal s.mem i σ := by
  cases op with
  | makeDir env p name =>
      rcases heff with ⟨-, -, -, v, w, k, hs, hw, hk⟩
      have hspawn := hs.slots i hi' σ hσ
      have hdots := hw.touches.slots i (by omega) σ hσ (Or.inl (by omega))
      rw [hk.touches.keep (by omega) hσ (by rw [hdots, hspawn]; exact hv), hdots, hspawn]
  | makeFile env p name =>
      rcases heff with ⟨-, v, k, hs, hk⟩
      have hspawn := hs.slots i hi' σ hσ
      rw [hk.touches.keep (by omega) hσ (by rw [hspawn]; exact hv), hspawn]
  | write j off buf => exact heff.2.touches.keep hi' hσ hv
  | getBlkno j off => exact heff.2.grown.grows.toTouches.keep hi' hσ hv
  | getDentry j pos => exact heff.2.2.grown.grows.toTouches.keep hi' hσ hv
  | addDentry j d =>
      rcases heff with ⟨-, -, k, hk⟩
      exact hk.touches.keep hi' hσ hv

/-! ## What the map promises -/

/-- Inode `i` maps the block of offset `off` to block `b`. -/
structure Maps (m : Mem) (i off b : Nat) : Prop where
  below_limit : off / 4096 < maxBlocks
  blk_eq : fileBlk m i (off / 4096) = b
  blk_ne : b ≠ 0

/-- The bitmap has the blocks that the first empty entry of inode `i` takes. -/
def HasSpare (m : Mem) (i : Nat) : Prop :=
  ∃ j, FirstEmpty m i j ∧ entryTakes m i j ≤ freeCount 524288 m

/-- Every call on inode `i` for an offset in the block of `off` returns `b`; with `create` and
in the double-indirect range, exactly when the bitmap has the blocks that one more entry takes. -/
structure KeepsBlock (i off b : Nat) (s : ParchFS) : Prop where
  maps : Maps s.mem i off b
  call_iff : ∀ off' create, off' / 4096 = off / 4096 →
    (create = false → off' ≤ fileSize s.mem i) →
      ((∃ t, INode.getBlkno i off' create s = .ok (b, t)) ↔
        (create = true → 4259840 ≤ off' → HasSpare s.mem i))

/-- Mapped offsets of inode `i` in different blocks have different blocks, and a lookup finds
them. -/
structure OneToOne (i : Nat) (s : ParchFS) : Prop where
  injective : ∀ off off' b, Maps s.mem i off b → Maps s.mem i off' b → off / 4096 = off' / 4096
  lookup : ∀ off b, Maps s.mem i off b → off ≤ fileSize s.mem i →
    INode.getBlkno i off false s = .ok (b, s)

theorem Closed.freeCount_eq {m : Mem} (h : Closed hi m) (hle : hi ≤ n) (hn : n ≤ 524288) :
    freeCount n m = freeCount hi m := by
  refine congrArg Finset.card (Finset.ext fun b => ?_)
  rw [Finset.mem_filter, Finset.mem_filter, Finset.mem_range, Finset.mem_range]
  constructor
  · rintro ⟨hb, hclear⟩
    refine ⟨?_, hclear⟩
    by_contra hge
    rw [h b (by omega) (by omega)] at hclear
    cases hclear
  · rintro ⟨hb, hclear⟩
    exact ⟨by omega, hclear⟩

theorem FirstEmpty.unique {m : Mem} {j' : Nat} (h : FirstEmpty m i j) (h' : FirstEmpty m i j') :
    j = j' := by
  rcases Nat.lt_trichotomy j j' with hlt | heq | hgt
  · exact absurd h.empty (h'.before _ (by omega))
  · exact heq
  · exact absurd h'.empty (h.before _ (by omega))

theorem FirstEmpty.hasSpare_iff {m : Mem} (h : FirstEmpty m i j) :
    HasSpare m i ↔ entryTakes m i j ≤ freeCount 524288 m := by
  constructor
  · rintro ⟨j', hj', hle⟩
    rwa [h.unique hj']
  · intro hle
    exact ⟨j, h, hle⟩

theorem Ownership.oneToOne (h : Ownership lo hi last s) (hi' : i ≤ last) : OneToOne i s where
  injective off off' b hb hb' := by
    have hne : fileBlk s.mem i (off / 4096) ≠ 0 := by
      rw [hb.blk_eq]
      exact hb.blk_ne
    exact dataSlot_injective (h.unique i i hi' hi' _ _ (dataSlot_valid hb.below_limit)
      (dataSlot_valid hb'.below_limit) hne (hb.blk_eq.trans hb'.blk_eq.symm)).2
  lookup off b hb hsize := by
    have hne : fileBlk s.mem i (off / 4096) ≠ 0 := by
      rw [hb.blk_eq]
      exact hb.blk_ne
    rw [getBlkno_lookup h hi' hsize hb.below_limit hne, hb.blk_eq]

/-- An inode that reaches the offset keeps its block. -/
theorem Reaches.keepsBlock (h : Reaches s.mem i off) (hown : Ownership lo hi last s)
    (hclosed : Closed hi s.mem) (hi' : i ≤ last) :
    KeepsBlock i off (fileBlk s.mem i (off / 4096)) s := by
  have hlt := h.off_lt
  have hpool := hown.pool_below_metadata
  have hne := h.mapped _ le_rfl
  refine ⟨⟨show _ < 1049616 by omega, rfl, hne⟩, fun off' create hpage hsize => ?_⟩
  rw [← hpage] at hne ⊢
  cases create with
  | false =>
      exact iff_of_true ⟨s, getBlkno_lookup hown hi' (hsize rfl) (by omega) hne⟩ nofun
  | true =>
      rcases Nat.lt_or_ge off' 4259840 with hsmall | hge
      · -- all the slots that the offset needs are filled
        have hfilled := filled_of_mapped (i := i) (m := s.mem) hsmall fun k hk =>
          h.mapped k (by omega)
        obtain ⟨b, t, hrun, ht, hb⟩ := ((getBlkno_outcome_of_lt hown hi' hsmall
          (room_of_filled hfilled)).mono (fun _ _ hq => hq)
            fun e he => he.elim_filled hfilled).exists_ok
        rw [fileBlk, ht.grows.keep hi' (dataSlot_valid (by omega)) hne] at hb
        exact iff_of_true ⟨t, by rw [hrun, hb]; rfl⟩ fun _ hge => by omega
      · obtain ⟨j, hj, hbehind⟩ := h.exists_firstEmpty hown hi' (by omega)
        rw [getBlkno_repeated_iff hown hclosed hi' (by omega) hge hj (by omega),
          hj.hasSpare_iff, hclosed.freeCount_eq (by omega) le_rfl]
        exact ⟨fun hroom _ _ => hroom, fun hroom => hroom rfl hge⟩

/-! ## Every run -/

section Runs

variable {bin : MMAPBinContent} {lines : List (List Char)} {syms : Symbols} {env : Env}

/-- The block map of a new volume `s` is stable and one-to-one: after every run a block that
`get_blkno` has handed out is the block of its offset, and every inode in use maps its blocks
one-to-one. -/
structure StableMapping (s : ParchFS) : Prop where
  keeps : ∀ pre post i off b t v u, Admissible 1 [] (pre ++ Op.getBlkno i off :: post) →
    runAll Op.exec pre s = .ok ((), t) → Allocated t i →
    INode.getBlkno i off true t = .ok (b, v) → runAll Op.exec post v = .ok ((), u) →
    KeepsBlock i off b u
  one_to_one : ∀ ops i u, Admissible 1 [] ops → runAll Op.exec ops s = .ok ((), u) →
    Allocated u i → OneToOne i u

/-- On a volume with a marked reserve the block map is stable and one-to-one. -/
theorem mapping_stable (hread : Symbols.read env lines = .ok syms)
    (hrun : construct env bin lines = .ok s)
    (hreserve : reserveStart (ofSymbols bin syms) ≤ 0x7FDDE) : StableMapping s := by
  have hstart := healthy_of_init (init_of_construct hread hrun) hreserve
  refine ⟨fun pre post i off b t v u hops hpre halloc hcall hpost => ?_,
    fun ops i u hops hcalls halloc => ?_⟩
  · have hbefore := run_healthy hstart (by omega) hops.left hpre
    have hi' := hbefore.owned.allocated_iff.mp halloc
    have htyped := hops.wellTyped (.getBlkno i off)
      (List.mem_append_right _ List.mem_cons_self)
    obtain ⟨hmapped, rfl⟩ :=
      (getBlkno_outcome hbefore.owned hbefore.closed hi' htyped.2).of_ok hcall
    have hafter := hbefore.touches hmapped.grown.owned hmapped.grown.grows.toTouches
    have hlt := hmapped.off_lt
    have hops' : Admissible (1 + creations pre) [] post :=
      Admissible.right [.getBlkno i off] (hops.right pre)
    have hrest := run_induct
      (I := fun _ w => Reaches w.mem i off ∧
        fileBlk w.mem i (off / 4096) = fileBlk v.mem i (off / 4096))
      hafter (by omega) ⟨⟨hmapped.mapped, hmapped.beyond, hlt⟩, rfl⟩
      (fun done op w w' _ hroom _ _ heff hI => by
        have hkeep : ∀ k, k < 1049616 → fileBlk w.mem i k ≠ 0 →
            fileBlk w'.mem i k = fileBlk w.mem i k := fun k hk hv =>
          heff.keep hroom (by omega) (dataSlot_valid hk) hv
        exact ⟨hI.1.keep hkeep, (hkeep _ (by omega) (hI.1.mapped _ le_rfl)).trans hI.2⟩)
      hops' hpost
    obtain ⟨hend, hreach, hsame⟩ := hrest
    rw [← hsame]
    exact hreach.keepsBlock hend.owned hend.closed (by omega)
  · have hend := run_healthy hstart (by omega) hops hcalls
    exact hend.owned.oneToOne (hend.owned.allocated_iff.mp halloc)

theorem mapping_stable_sample : ∃ s, construct blankEnv blankImage sampleLines = .ok s ∧
    StableMapping s := by
  obtain ⟨s, hrun⟩ := exists_sample
  exact ⟨s, hrun, mapping_stable sample_read hrun (by decide)⟩

end Runs

/-- On the layout with a pool of one block, the write of one byte to a new file takes the block
of the root's first entries away from it. -/
theorem not_keepsBlock : ∃ s b u, construct blankEnv blankImage tightLines = .ok s ∧
    Admissible 1 [] [.getBlkno 1 0, .makeFile blankEnv rootInode [], .write 2 0 [0]] ∧
    Allocated s 1 ∧ INode.getBlkno 1 0 true s = .ok (b, s) ∧ b ≠ 0 ∧
    runAll Op.exec [.makeFile blankEnv rootInode [], .write 2 0 [0]] s = .ok ((), u) ∧
    INode.getBlkno 1 0 false u = .ok (0, u) ∧ ¬ KeepsBlock 1 0 b u := by
  obtain ⟨s, hrun, htight⟩ := exists_tight
  obtain ⟨t, hmake, hflat, hvacant⟩ := htight.flat.exists_first (by decide)
  have hfree : freeCount 0x7FDDE t.mem = 0 := by
    have hbudget := hflat.budget
    have hcost : blockCost (128 * (1 + 2)) = 1 := rfl
    omega
  have hclear : fsBit t.mem 0x7FDDE = false := by
    rw [hflat.marks _ le_rfl (by omega), htight.clear]
  have hwrite := overrun_write hflat.owned hfree hclear (by omega) hvacant
  have hget := getInode_eq hflat.owned.mapped_ge (show 2 < 32768 by omega)
    ((hflat.owned.inodeBit_iff _ (by omega)).mpr le_rfl)
  have hexec : (Op.write 2 0 [0]).exec t = .ok ((), t.withMem (overrunMem t.mem 2)) :=
    (bind_eq_ok hget).trans hwrite
  have hslot : slotVal s.mem 1 (.field 0) ≠ 0 :=
    (htight.filled_iff _ (field_valid (by omega))).mpr rfl
  have hcov : Covered s.mem 1 0 := ⟨by omega, Nat.zero_le _, fun σ hσ => by
    rw [neededSlots_of_lt (by omega), Finset.mem_singleton] at hσ
    rw [hσ]
    exact hslot⟩
  -- the page of the root inode is cleared
  have hzero : ∀ x, INode.addr 1 ≤ x → x < INode.addr 1 + 256 → overrunMem t.mem 2 x = 0 := by
    intro x hx hx'
    rw [INode.addr_eq] at hx hx'
    exact overrunMem_of_mem (by omega) (by omega) (by rw [INode.directBlkNo_eq]; omega)
  have hload : ∀ a n, INode.addr 1 ≤ a → a + n ≤ INode.addr 1 + 256 →
      load a n (t.withMem (overrunMem t.mem 2)) = .ok (0, t.withMem (overrunMem t.mem 2)) := by
    intro a n ha hn
    have hmapped := hflat.owned.mapped_ge
    rw [load_eq (by rw [mapped_withMem]; rw [INode.addr_eq] at hn; omega), mem_withMem,
      Mem.load_eq_zero fun x hx hx' => hzero x (by omega) (by omega)]
  have hsize := hload (INode.fSize 1) 8 (by rw [INode.fSize_eq, INode.addr_eq]; omega)
    (by rw [INode.fSize_eq, INode.addr_eq]; omega)
  have hblk := hload (INode.directBlkNo 1 0) 4 (by rw [INode.directBlkNo_eq, INode.addr_eq]; omega)
    (by rw [INode.directBlkNo_eq, INode.addr_eq]; omega)
  have hlookup : INode.getBlkno 1 0 false (t.withMem (overrunMem t.mem 2)) =
      .ok (0, t.withMem (overrunMem t.mem 2)) := by
    unfold INode.getBlkno
    rw [bind_eq_ok hsize, onlyIf_bind_neg (by simp), bind_eq_ok hsize,
      bind_eq_ok (assert_eq le_rfl), onlyIf_bind_neg (by simp), if_pos (by decide)]
    exact hblk
  have hadmissible : Admissible 1 []
      [.getBlkno 1 0, .makeFile blankEnv rootInode [], .write 2 0 [0]] := by
    refine ⟨fun op hop => ?_, by decide⟩
    simp only [List.mem_cons, List.not_mem_nil, or_false] at hop
    rcases hop with rfl | rfl | rfl
    · exact ⟨by decide, by decide⟩
    · exact show rootInode < 8192 by decide
    · exact ⟨by decide, by decide, by decide⟩
  have hbit : inodeBit s.mem 1 = true := (htight.owned.inodeBit_iff 1 (by omega)).mpr le_rfl
  refine ⟨s, fileBlk s.mem 1 0, _, hrun, hadmissible, ⟨by omega, hbit⟩,
    getBlkno_covered htight.owned le_rfl hcov, hslot,
    (bind_eq_ok (bind_eq_ok hmake)).trans ((bind_eq_ok hexec).trans rfl), hlookup, fun hkeeps => ?_⟩
  obtain ⟨w, hw⟩ := (hkeeps.call_iff 0 false rfl fun _ => Nat.zero_le _).mpr nofun
  have hpair := Except.ok.inj (hlookup.symm.trans hw)
  exact hslot (congrArg Prod.fst hpair).symm

end ParchTestbench
