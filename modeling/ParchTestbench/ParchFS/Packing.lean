import ParchTestbench.ParchFS.SlotRank

/-!
# ParchFS: packed volumes

The allocator hands out the first clear block, and nothing is ever given back, so the marked
blocks of the pool are an initial segment and a file that grows takes the blocks right behind
it, slot by slot.

Main results:

- Theorem `allocInto_takes`: the block of the next slot is the one at the cursor.
- Theorem `getBlkno_takes`: a call with `create` places the missing slots one behind the
  other at the cursor, or finds fewer blocks than it needs.
-/

namespace ParchTestbench

open ParchFS Program
open SerialPlacement (Filled Placed)

variable {lo hi last i c d d' e n off : Nat} {s t u : ParchFS} {σ : Slot} {err : Abort}

/-! ## Packed volumes -/

/-- Inode `i` has the blocks of its first `c` slots, and the marked blocks of the volume are
those below the cursor `e`. -/
structure Packed (lo hi last i c e : Nat) (s : ParchFS) : Prop where
  owned : Ownership lo hi last s
  closed : Closed hi s.mem
  filled : Filled Slot.rank Slot.Valid c (slotVal s.mem i)
  bit_eq : ∀ b, b < hi → fsBit s.mem b = decide (b < e)
  lo_lt : lo < e
  le_hi : e ≤ hi

/-- From `s` to `t` the slots of inode `i` of the ranks from `c` to `d` have been given the
blocks from the cursor `e` on, and the blocks behind them are untouched. -/
structure Takes (lo hi last i c d e : Nat) (s t : ParchFS) : Prop where
  packed : Packed lo hi last i d (e + (d - c)) t
  touches : Touches lo hi last i s t
  placed : Placed Slot.rank Slot.Valid c d e (slotVal s.mem i) (slotVal t.mem i)
  untouched : ∀ x, 4096 * (e + (d - c)) ≤ x → x < 0x7FDDE000 → t.mem x = s.mem x
  le : c ≤ d

/-- The reason and the condition for which filling the slots up to rank `d` aborts. -/
def Shortage (hi c d e : Nat) (err : Abort) : Prop := err = blockBitmapFull ∧ hi < e + (d - c)

theorem Shortage.mono (h : Shortage hi c d e err) (hd : d ≤ d') : Shortage hi c d' e err :=
  ⟨h.1, lt_of_lt_of_le h.2 (by omega)⟩

namespace Packed

theorem lt_iff (h : Packed lo hi last i c e s) (hσ : σ.Valid) :
    slotVal s.mem i σ ≠ 0 ↔ σ.rank < c :=
  h.filled σ hσ

theorem slotVal_eq_zero (h : Packed lo hi last i c e s) (hσ : σ.Valid) (hrank : c ≤ σ.rank) :
    slotVal s.mem i σ = 0 := by
  by_contra hne
  have hlt := (h.lt_iff hσ).mp hne
  omega

/-- The next slot is there to be filled. -/
theorem live (h : Packed lo hi last i c e s) (hσ : σ.Valid) (hrank : σ.rank ≤ c) :
    Live s.mem i σ := by
  cases σ with
  | field k => trivial
  | entry p k =>
      have hlt := Slot.rank_lt_entry hσ
      exact (h.lt_iff hσ.1).mpr (by omega)

theorem slotVal_lt (h : Packed lo hi last i c e s) {j : Nat} (hj : j ≤ last) (hσ : σ.Valid) :
    slotVal s.mem j σ < e := by
  have hlo := h.lo_lt
  by_cases hv : slotVal s.mem j σ = 0
  · omega
  · obtain ⟨-, hlt⟩ := h.owned.in_pool j hj σ hσ hv
    have hset := h.owned.marked j hj σ hσ hv
    rw [h.bit_eq _ hlt, decide_eq_true_iff] at hset
    exact hset

/-- A change that leaves all slots alone leaves the volume packed. -/
theorem of_slots (h : Packed lo hi last i c e s) (hi' : i ≤ last) (hown : Ownership lo hi last t)
    (hclosed : Closed hi t.mem)
    (hslots : ∀ j, j ≤ last → ∀ σ : Slot, σ.Valid → slotVal t.mem j σ = slotVal s.mem j σ) :
    Packed lo hi last i c e t where
  owned := hown
  closed := hclosed
  filled σ hσ := by
    rw [hslots i hi' σ hσ]
    exact h.filled σ hσ
  bit_eq b hb := by
    have hpool := hown.pool_below_metadata
    rw [← h.bit_eq b hb]
    rcases Nat.lt_or_ge lo b with hlo | hlow
    · -- a block of the pool is marked when a slot holds it
      rw [Bool.eq_iff_iff]
      constructor
      · intro hset
        obtain ⟨j, σ, hj, hσ, hv⟩ := hown.no_leak b hlo hb hset
        rw [hslots j hj σ hσ] at hv
        rw [← hv]
        exact h.owned.marked j hj σ hσ (by omega)
      · intro hset
        obtain ⟨j, σ, hj, hσ, hv⟩ := h.owned.no_leak b hlo hb hset
        rw [← hslots j hj σ hσ] at hv
        rw [← hv]
        exact hown.marked j hj σ hσ (by omega)
    · rw [hown.low_marked b hlow (by omega), h.owned.low_marked b hlow (by omega)]
  lo_lt := h.lo_lt
  le_hi := h.le_hi

end Packed

namespace Takes

theorem refl (h : Packed lo hi last i c e s) : Takes lo hi last i c c e s s where
  packed := by rwa [Nat.sub_self, Nat.add_zero]
  touches := Touches.refl
  placed := Placed.refl
  untouched _ _ _ := rfl
  le := le_rfl

theorem trans (h : Takes lo hi last i c d e s t)
    (h' : Takes lo hi last i d d' (e + (d - c)) t u) : Takes lo hi last i c d' e s u := by
  have hle := h.le
  have hle' := h'.le
  have hcursor : e + (d - c) + (d' - d) = e + (d' - c) := by omega
  have hpacked := h'.packed
  rw [hcursor] at hpacked
  refine ⟨hpacked, h.touches.trans h'.touches, h.placed.trans h'.placed hle hle',
    fun x hx hx' => ?_, by omega⟩
  rw [h'.untouched x (by omega) hx', h.untouched x (by omega) hx']

/-- What a later step lacks is lacking from the start. -/
theorem shortage (h : Takes lo hi last i c d e s t)
    (herr : Shortage hi d d' (e + (d - c)) err) : Shortage hi c d' e err := by
  refine ⟨herr.1, ?_⟩
  have hlt := herr.2
  have hle := h.le
  have hfit := h.packed.le_hi
  omega

/-- A change that leaves all slots alone, and all blocks behind the cursor. -/
theorem of_slots (h : Packed lo hi last i c e s) (hi' : i ≤ last) (hown : Ownership lo hi last t)
    (htouches : Touches lo hi last i s t)
    (hslots : ∀ j, j ≤ last → ∀ σ : Slot, σ.Valid → slotVal t.mem j σ = slotVal s.mem j σ)
    (huntouched : ∀ x, 4096 * e ≤ x → x < 0x7FDDE000 → t.mem x = s.mem x) :
    Takes lo hi last i c c e s t where
  packed := by
    rw [Nat.sub_self, Nat.add_zero]
    exact h.of_slots hi' hown (htouches.closed h.closed) hslots
  touches := htouches
  placed := ⟨fun σ hσ _ => hslots i hi' σ hσ, fun _ _ hge hlt => by omega⟩
  untouched x hx hx' := huntouched x (by omega) hx'
  le := le_rfl

end Takes

/-! ## One block -/

/-- The block at the cursor goes into the next slot. -/
theorem Packed.alloc (h : Packed lo hi last i c e s) (hi' : i ≤ last) (hσ : σ.Valid)
    (hrank : σ.rank = c) (hroom : e < hi) :
    Takes lo hi last i c (c + 1) e s
      (s.withMem (allocIntoMem s.mem (slotAddr s.mem i σ) e)) := by
  have hown := h.owned
  have hpool := hown.pool_below_metadata
  have hlo := h.lo_lt
  have hlive := h.live hσ hrank.le
  have hle := hown.slotAddr_le hi' hσ hlive
  have hzero := h.slotVal_eq_zero hσ hrank.ge
  have hclear : fsBit s.mem e = false := by
    rw [h.bit_eq e hroom, decide_eq_false_iff_not]
    omega
  have htouches := (hown.allocInto_grows hi' hσ hlive hzero hlo hroom hclear).toTouches
  have hdisj := hown.slotAddr_disjoint hi' hσ hlive hlo hroom hclear
  have hval := fun τ hτ =>
    slotVal_allocIntoMem (τ := τ) hown hi' hσ hlive hzero hlo hroom hclear hi' hτ
  have hplaced : Placed Slot.rank Slot.Valid c (c + 1) e (slotVal s.mem i)
      (slotVal (allocIntoMem s.mem (slotAddr s.mem i σ) e) i) := by
    refine Placed.single (k := σ) (fun τ hτ => ?_) ?_ fun τ hτ hne => ?_
    · rw [← hrank]
      exact Slot.rank_eq_iff hσ hτ
    · rw [hval σ hσ, if_pos ⟨rfl, rfl⟩]
    · rw [hval τ hτ, if_neg fun hc => hne hc.2]
  refine ⟨⟨hown.allocInto hi' hσ hlive hzero hlo hroom hclear, htouches.closed h.closed,
    hplaced.filled h.filled (by omega) (by omega), fun b hb => ?_, by omega, by omega⟩,
    htouches, hplaced, fun x hx hx' => ?_, by omega⟩
  · rw [mem_withMem, fsBit_allocIntoMem (by omega) hle (by omega), h.bit_eq b hb,
      ← Bool.decide_or, decide_eq_decide]
    omega
  · -- the slot lies in the inode table or in a block that is marked
    rw [mem_withMem]
    refine allocIntoMem_of_notMem (by omega) (by omega) (by omega) (by omega) ?_
    obtain ⟨k, -, hk, heq⟩ | ⟨p, k, -, hp, -, hk, hpv, -, -, heq⟩ :=
      hown.slotAddr_cases hi' hσ hlive
    · rw [heq, INode.addr_eq]
      omega
    · have hlt := h.slotVal_lt hi' hp
      rw [heq]
      omega

/-- `*p = fs->alloc_blk()` on the next slot. -/
theorem allocInto_takes (h : Packed lo hi last i c e s) (hi' : i ≤ last) (hσ : σ.Valid)
    (hrank : σ.rank = c) :
    Outcome (INode.allocInto (slotAddr s.mem i σ)) s
      (fun _ t => Takes lo hi last i c (c + 1) e s t) (Shortage hi c (c + 1) e) := by
  have hmapped := h.owned.mapped_ge
  have hpool := h.owned.pool_below_metadata
  have hle := h.owned.slotAddr_le hi' hσ (h.live hσ hrank.le)
  unfold INode.allocInto
  rcases Nat.lt_or_ge e hi with hroom | hfull
  · have hclear : fsBit s.mem e = false := by
      rw [h.bit_eq e hroom, decide_eq_false_iff_not]
      omega
    have hbefore : ∀ q, q < e → fsBit s.mem q = true := fun q hq => by
      rw [h.bit_eq q (by omega), decide_eq_true_iff]
      exact hq
    refine Outcome.bind_ok (allocBlk_eq hmapped (by omega) hclear hbefore) ?_
    exact Outcome.of_eq_ok (store_eq (by rw [mapped_withMem]; omega))
      (h.alloc hi' hσ hrank hroom)
  · have hall : ∀ q, q < 524288 → fsBit s.mem q = true := fun q hq => by
      rcases Nat.lt_or_ge q hi with hlt | hge
      · rw [h.bit_eq q hlt, decide_eq_true_iff]
        omega
      · exact h.closed q hge hq
    exact Outcome.of_eq_error (bind_eq_error (allocBlk_full hmapped hall)) ⟨rfl, by omega⟩

/-- `if (*p == BAD_BLOCK) *p = fs->alloc_blk()` on a slot whose turn has come. -/
theorem allocIfBad_takes (h : Packed lo hi last i c e s) (hi' : i ≤ last) (hσ : σ.Valid)
    (hrank : σ.rank ≤ c) :
    Outcome (INode.allocIfBad (slotAddr s.mem i σ)) s
      (fun _ t => Takes lo hi last i c (max c (σ.rank + 1)) e s t)
      (Shortage hi c (max c (σ.rank + 1)) e) := by
  have hlive := h.live hσ hrank
  have hle := h.owned.slotAddr_le hi' hσ hlive
  have hmapped := h.owned.mapped_ge
  unfold INode.allocIfBad
  refine Outcome.bind_ok (load_eq (by omega)) ?_
  rw [load_slotAddr hlive]
  refine Outcome.onlyIf (fun hzero => ?_) fun hne => ?_
  · have hnext : σ.rank = c := by
      by_contra hne
      exact (h.lt_iff hσ).mpr (by omega) hzero
    rw [max_eq_right (by omega), hnext]
    exact allocInto_takes h hi' hσ hnext
  · rw [max_eq_left ((h.lt_iff hσ).mp hne)]
    exact Takes.refl h

/-! ## The direct and the indirect range -/

/-- The loop `if (a[k] == BAD_BLOCK) a[k] = fs->alloc_blk()` over slots of successive ranks. -/
theorem fillLoop_takes {f : Nat → Slot} {a : Nat → Nat} {r : Nat}
    (h : Packed lo hi last i c e s) (hi' : i ≤ last) (hvalid : ∀ k, k < n → (f k).Valid)
    (hrank : ∀ k, k < n → (f k).rank = r + k) (hr : r ≤ c)
    (haddr : ∀ k t, k < n → Touches lo hi last i s t → a k = slotAddr t.mem i (f k)) :
    Outcome (forUpTo n fun k => INode.allocIfBad (a k)) s
      (fun _ t => Takes lo hi last i c (max c (r + n)) e s t)
      (Shortage hi c (max c (r + n)) e) := by
  refine Outcome.forUpTo (I := fun k t => Takes lo hi last i c (max c (r + k)) e s t) ?_ ?_
  · rw [Nat.add_zero, max_eq_left hr]
    exact Takes.refl h
  · intro k t hk ht
    have hnext : max (max c (r + k)) ((f k).rank + 1) = max c (r + (k + 1)) := by
      rw [hrank k hk]
      omega
    rw [haddr k t hk ht.touches]
    have hstep := allocIfBad_takes ht.packed hi' (hvalid k hk) (by rw [hrank k hk]; omega)
    rw [hnext] at hstep
    refine hstep.mono (fun _ u hu => ht.trans hu) fun err he => ?_
    exact (ht.shortage he).mono (by omega)

/-- The loop over the direct blocks. -/
theorem fillDirect_takes (h : Packed lo hi last i c e s) (hi' : i ≤ last) (hn : n ≤ 16) :
    Outcome (forUpTo n fun k => INode.allocIfBad (INode.directBlkNo i k)) s
      (fun _ t => Takes lo hi last i c (max c n) e s t) (Shortage hi c (max c n) e) := by
  have hloop := fillLoop_takes (n := n) (f := .field) (a := INode.directBlkNo i) (r := 0) h hi'
    (fun k hk => field_valid (by omega))
    (fun k hk => by rw [Slot.rank_field (by omega), Nat.zero_add]) (Nat.zero_le c)
    fun _ _ _ _ => rfl
  rwa [Nat.zero_add] at hloop

/-- The allocation of an index block whose turn has come. -/
theorem fillIndex_takes {p : Slot} {α : Type} {rest : Nat → ParchM α} {Q : α → ParchFS → Prop}
    {E : Abort → Prop} (h : Packed lo hi last i c e s) (hi' : i ≤ last) (hp : p.Valid)
    (hrank : p.rank ≤ c) (hE : ∀ err, Shortage hi c (max c (p.rank + 1)) e err → E err)
    (hrest : ∀ t, Takes lo hi last i c (max c (p.rank + 1)) e s t → slotVal t.mem i p ≠ 0 →
      Outcome (rest (4096 * slotVal t.mem i p)) t Q E) :
    Outcome (do
        INode.allocIfBad (slotAddr s.mem i p)
        let blks ← getBlk (← load (slotAddr s.mem i p) 4)
        rest blks) s Q E := by
  refine Outcome.bind ((allocIfBad_takes h hi' hp hrank).mono ?_ hE)
  intro _ t ht
  have hv : slotVal t.mem i p ≠ 0 := (ht.packed.lt_iff hp).mpr (by omega)
  have hown := ht.packed.owned
  have haddr : slotAddr s.mem i p = slotAddr t.mem i p := by
    cases p with
    | field k => rfl
    | entry q k =>
        have hq := ht.touches.keep hi' hp.1 (h.live hp hrank)
        simp only [slotAddr, hq]
  have hle := hown.slotAddr_le hi' hp (live_of_slotVal_ne_zero hv)
  have hmapped := hown.mapped_ge
  rw [haddr]
  refine Outcome.bind_ok (load_eq (by omega)) ?_
  rw [load_slotAddr (live_of_slotVal_ne_zero hv)]
  exact Outcome.bind_ok (hown.getBlk_slotVal hi' hp hv) (hrest t ht hv)

/-- The loop over the first `n` entries of the indirect range. -/
theorem fillIndirect_takes {α : Type} {rest : ParchM α} {Q : α → ParchFS → Prop}
    {E : Abort → Prop} (h : Packed lo hi last i c e s) (hi' : i ≤ last) (hn : n ≤ 1024)
    (hrank : 16 ≤ c) (hE : ∀ err, Shortage hi c (max c (17 + n)) e err → E err)
    (hrest : ∀ t, Takes lo hi last i c (max c (17 + n)) e s t →
      slotVal t.mem i (.field 16) ≠ 0 → Outcome rest t Q E) :
    Outcome (do
        INode.allocIfBad (INode.indirectBlk i)
        let blks ← getBlk (← load (INode.indirectBlk i) 4)
        forUpTo n fun k => INode.allocIfBad (blks + 4 * k)
        rest) s Q E := by
  have hfield := field_valid (show 16 < 18 by omega)
  have hsixteen : (Slot.field 16).rank = 16 := rfl
  refine fillIndex_takes (p := .field 16) h hi' hfield hrank
    (fun err he => hE err (he.mono (by omega))) fun t ht hv => ?_
  rw [hsixteen] at ht
  have hloop := fillLoop_takes (n := n) (f := .entry (.field 16)) (r := 17)
    (a := fun k => 4096 * slotVal t.mem i (.field 16) + 4 * k) ht.packed hi'
    (fun k hk => ⟨hfield, Or.inl rfl, by omega⟩) (fun _ _ => rfl) (by omega)
    fun k u _ hu => by simp only [slotAddr, hu.keep hi' hfield hv]
  rw [show max (max c (16 + 1)) (17 + n) = max c (17 + n) by omega] at hloop
  refine Outcome.bind (hloop.mono (fun _ u hu => ?_) fun err he => hE err (ht.shortage he))
  refine hrest u (ht.trans hu) ?_
  rw [hu.touches.keep hi' hfield hv]
  exact hv

/-! ## The size -/

/-- Storing a size leaves the blocks alone. -/
theorem Packed.storeSize (h : Packed lo hi last i c e s) (hi' : i ≤ last) (hn : n < 2 ^ 64) :
    Takes lo hi last i c c e s (s.withMem (s.mem.store (INode.fSize i) 8 n)) := by
  have hpool := h.owned.pool_below_metadata
  have hstore := h.owned.storeSize hi' hn
  refine Takes.of_slots h hi' hstore.owned hstore.grows.toTouches (fun j hj σ hσ => ?_) ?_
  · by_cases hj' : j = i
    · rw [hj']
      exact hstore.others σ hσ (Finset.notMem_empty σ)
    · exact hstore.grows.slots j hj σ hσ (Or.inl hj')
  · intro x _ hx
    rw [mem_withMem]
    exact Mem.store_of_notMem (by rw [INode.fSize_eq]; omega)

/-- The part of `get_blkno` before the ranges part: the size and the direct blocks. -/
theorem growDirect_takes {α : Type} {rest : ParchM α} {Q : α → ParchFS → Prop}
    {E : Abort → Prop} (h : Packed lo hi last i c e s) (hi' : i ≤ last) (hoff : off < 2 ^ 64)
    (hE : ∀ err, Shortage hi c (max c (min 16 (off / 4096 + 1))) e err → E err)
    (hrest : ∀ t, Takes lo hi last i c (max c (min 16 (off / 4096 + 1))) e s t →
      Outcome rest t Q E) :
    Outcome (do
      let size ← load (INode.fSize i) 8
      onlyIf (true = true ∧ size < off) (store (INode.fSize i) 8 off)
      let size ← load (INode.fSize i) 8
      ParchFS.assert (off ≤ size) "off <= this->f_size"
      onlyIf (true = true) do
        forUpTo (min directBlkCount (off / blkSize + 1)) fun k =>
          INode.allocIfBad (INode.directBlkNo i k)
      rest) s Q E := by
  have hlast := h.owned.last_lt
  have hsize : ∀ t, Ownership lo hi last t →
      load (INode.fSize i) 8 t = .ok (fileSize t.mem i, t) := fun t ht => by
    have hmapped := ht.mapped_ge
    exact load_eq (by rw [INode.fSize_eq]; omega)
  have hmapped := h.owned.mapped_ge
  refine Outcome.bind_ok (hsize s h.owned) ?_
  have hstore : Outcome
      (onlyIf (true = true ∧ fileSize s.mem i < off) (store (INode.fSize i) 8 off)) s
      (fun _ t => off ≤ fileSize t.mem i ∧ Takes lo hi last i c c e s t) E := by
    refine Outcome.onlyIf (fun hlt => ?_) fun hge => ?_
    · refine Outcome.of_eq_ok (store_eq (by rw [INode.fSize_eq]; omega)) ?_
      exact ⟨(fileSize_store hoff).ge, h.storeSize hi' hoff⟩
    · exact ⟨Nat.le_of_not_lt fun hlt => hge ⟨rfl, hlt⟩, Takes.refl h⟩
  refine Outcome.bind (hstore.mono ?_ fun _ he => he)
  rintro _ t ⟨hle, ht⟩
  refine Outcome.bind_ok (hsize t ht.packed.owned) ?_
  refine Outcome.bind_ok (assert_eq hle) ?_
  rw [onlyIf_pos rfl]
  have hfill := fillDirect_takes (n := min 16 (off / 4096 + 1)) ht.packed hi' (by omega)
  exact Outcome.bind (hfill.mono (fun _ u hu => hrest u (ht.trans hu)) fun err he =>
    hE err (ht.shortage he))

/-- Below the double-indirect range a call places the slots up to that of the offset. -/
theorem getBlkno_takes_of_lt (h : Packed lo hi last i c e s) (hi' : i ≤ last)
    (hoff : off < 4259840) :
    Outcome (INode.getBlkno i off true) s
      (fun b t => Takes lo hi last i c (max c (blocksFor (off / 4096 + 1))) e s t ∧
        b = fileBlk t.mem i (off / 4096))
      (Shortage hi c (max c (blocksFor (off / 4096 + 1))) e) := by
  obtain ⟨k, hk⟩ : ∃ k, k = blocksFor (off / 4096 + 1) := ⟨_, rfl⟩
  rw [← hk]
  have hmin : min 16 (off / 4096 + 1) ≤ k := by
    rw [hk]
    exact (min_le_right _ _).trans (by unfold blocksFor; split <;> (try split) <;> omega)
  refine growDirect_takes h hi' (by omega) (fun err he => he.mono (by omega)) fun t ht => ?_
  by_cases hdirect : off < 65536
  · have hsame : min 16 (off / 4096 + 1) = k := by
      rw [hk, blocksFor_direct (by omega)]
      omega
    rw [hsame] at ht
    rw [if_pos (by exact hdirect)]
    exact Outcome.of_eq_ok (loadDirect_eq ht.packed.owned hi' hdirect) ⟨ht, rfl⟩
  · have hind : off - 65536 < 4194304 := by omega
    have hblk : off / 4096 = 16 + (off - 65536) / 4096 := by omega
    have hsixteen : min 16 (off / 4096 + 1) = 16 := by omega
    have hcount : 17 + min 1024 ((off - 65536) / 4096 + 1) = k := by
      rw [hk, blocksFor_indirect (by omega) (by omega)]
      omega
    have hrank : max (max c 16) k = max c k := by omega
    rw [hsixteen] at ht
    rw [if_neg (by exact hdirect)]
    unfold INode.getBlknoIndirect
    rw [onlyIf_pos rfl]
    simp only [bind_assoc]
    rw [if_pos (by exact hind)]
    refine fillIndirect_takes (n := min 1024 ((off - 65536) / 4096 + 1)) ht.packed hi'
      (by omega) (by omega) (fun err he => (ht.shortage he).mono (by omega)) fun u hu hv => ?_
    rw [hcount, hrank] at hu
    exact Outcome.of_eq_ok (loadIndirect_eq hu.packed.owned hi' hind hv)
      ⟨ht.trans hu, by rw [hblk]; rfl⟩

/-! ## The double-indirect range -/

/-- The steps of `get_blkno` in front of its outer loop. -/
theorem toIndirect2_takes (h : Packed lo hi last i c e s) (hi' : i ≤ last) (hoff : off < 2 ^ 64)
    (hge : 4259840 ≤ off) :
    Outcome (INode.toIndirect2 i off true) s
      (fun blks t => Takes lo hi last i c (max c 1042) e s t ∧
        blks = 4096 * slotVal t.mem i (.field 17))
      (Shortage hi c (max c 1042) e) := by
  have hseventeen := field_valid (show 17 < 18 by omega)
  have hmin : min blknoPerBlk ((off - blkSize * directBlkCount) / blkSize + 1) = 1024 :=
    min_eq_left (by simp only [blknoPerBlk, blkSize, directBlkCount]; omega)
  have hsixteen : min 16 (off / 4096 + 1) = 16 := by omega
  refine growDirect_takes h hi' hoff (fun err he => he.mono (by omega)) fun t ht => ?_
  rw [hsixteen] at ht
  rw [onlyIf_pos rfl, hmin]
  simp only [bind_assoc]
  refine fillIndirect_takes (n := 1024) ht.packed hi' le_rfl (by omega)
    (fun err he => (ht.shortage he).mono (by omega)) fun u hu hv => ?_
  have hsu := ht.trans hu
  have hrank : max (max (max c 16) (17 + 1024)) ((Slot.field 17).rank + 1) = max c 1042 := by
    rw [Slot.rank_field_seventeen]
    omega
  rw [onlyIf_pos rfl]
  have hstep := allocIfBad_takes (σ := .field 17) hsu.packed hi' hseventeen
    (by rw [Slot.rank_field_seventeen]; omega)
  rw [hrank] at hstep
  refine Outcome.bind (hstep.mono (fun _ v hv => ?_) fun err he => hsu.shortage he)
  have hown := hv.packed.owned
  have hmapped := hown.mapped_ge
  have hlast := hown.last_lt
  have hbase : slotVal v.mem i (.field 17) ≠ 0 := by
    refine (hv.packed.lt_iff hseventeen).mpr ?_
    rw [Slot.rank_field_seventeen]
    omega
  have hload : load (INode.indirectBlk2 i) 4 v = .ok (slotVal v.mem i (.field 17), v) :=
    load_eq (by rw [INode.indirectBlk2_eq]; omega)
  refine Outcome.bind_ok hload ?_
  exact Outcome.of_eq_ok (hown.getBlk_slotVal hi' hseventeen hbase) ⟨hsu.trans hv, rfl⟩

/-- The rank of the entry behind that of the offset, counted from the double-indirect range. -/
def stopRank (off : Nat) : Nat := (dataSlot (1040 + (off / 4096 + 1))).rank

theorem stopRank_eq (off : Nat) :
    stopRank off = 1043 + (off / 4096 + 1) + (off / 4096 + 1) / 1024 := by
  rw [stopRank, dataSlot_double, Slot.rank_entry_indexSlot]
  omega

/-- The scan of second-level index block `q` from its entry `1024 - fuel` on: it ends at the
first fresh entry from the stop on, or fills the block. -/
theorem fillIndirect2Block_takes (off fuel : Nat) {q blks : Nat}
    (h : Packed lo hi last i c e s) (hi' : i ≤ last) (hq : q < 1024)
    (hblks : blks = 4096 * slotVal s.mem i (indexSlot q)) (hfuel : fuel ≤ 1024)
    (hbefore : 1043 + 1025 * q + (1024 - fuel) ≤ c) :
    Outcome (INode.fillIndirect2Block off q blks fuel) s
      (fun done t => ∃ d, Takes lo hi last i c d e s t ∧
        (done = true → d = max c (stopRank off) + 1 ∧ d ≤ 1043 + 1025 * q + 1024) ∧
        (done = false → d = max c (1043 + 1025 * q + 1024) ∧
          1043 + 1025 * q + 1024 ≤ max c (stopRank off)))
      (Shortage hi c (max c (stopRank off) + 1) e) := by
  induction fuel generalizing c e s with
  | zero =>
      refine Outcome.pure ⟨c, Takes.refl h, fun hc => absurd hc Bool.false_ne_true, fun _ => ?_⟩
      exact ⟨(max_eq_left (by omega)).symm, by omega⟩
  | succ fuel ih =>
      obtain ⟨j, hj⟩ : ∃ j, j + (fuel + 1) = 1024 := ⟨1024 - (fuel + 1), by omega⟩
      have hindex : slotVal s.mem i (indexSlot q) ≠ 0 :=
        (h.lt_iff (indexSlot_valid hq)).mpr (by rw [Slot.rank_indexSlot]; omega)
      have hvalid := entry_indexSlot_valid hq (show j < 1024 by omega)
      have hrank : (Slot.entry (indexSlot q) j).rank = 1043 + 1025 * q + j := rfl
      have hlive : Live s.mem i (.entry (indexSlot q) j) := hindex
      have hentry : blknoPerBlk - (fuel + 1) = j := by
        unfold blknoPerBlk
        omega
      have haddr : blks + 4 * j = slotAddr s.mem i (.entry (indexSlot q) j) := by
        rw [hblks]
        rfl
      have hle := h.owned.slotAddr_le hi' hvalid hlive
      have hmapped := h.owned.mapped_ge
      have hstop := stopRank_eq off
      have hcap : INode.i2Cap q j > off ↔ stopRank off ≤ 1043 + 1025 * q + j := by
        simp only [INode.i2Cap, blkSize, blknoPerBlk]
        omega
      unfold INode.fillIndirect2Block
      dsimp only
      rw [hentry, haddr]
      refine Outcome.bind_ok (load_eq (by omega)) ?_
      rw [load_slotAddr hlive]
      split
      · rename_i hzero
        -- the first fresh entry
        have hnext : 1043 + 1025 * q + j = c := by
          have hnot : ¬ (Slot.entry (indexSlot q) j).rank < c := fun hlt =>
            (h.lt_iff hvalid).mpr hlt hzero
          rw [hrank] at hnot
          omega
        refine Outcome.bind ((allocInto_takes h hi' hvalid (hrank.trans hnext)).mono ?_
          fun err he => he.mono (by omega))
        intro _ t ht
        split
        · rename_i hpast
          have hpast' := hcap.mp hpast
          refine Outcome.pure ⟨c + 1, ht, fun _ => ?_, fun hc => absurd hc.symm Bool.false_ne_true⟩
          rw [max_eq_left (by omega)]
          exact ⟨rfl, by omega⟩
        · rename_i hpast
          rw [hcap] at hpast
          have hkeep := ht.touches.keep hi' (indexSlot_valid hq) hindex
          refine (ih ht.packed (by rw [hkeep, hblks]) (by omega) (by omega)).mono ?_
            fun err he => (ht.shortage he).mono (by omega)
          rintro done u ⟨d, hu, hdone, hmore⟩
          refine ⟨d, ht.trans hu, fun htrue => ?_, fun hfalse => ?_⟩
          · have hd := hdone htrue
            omega
          · have hd := hmore hfalse
            omega
      · rename_i hne
        have hlt := (h.lt_iff hvalid).mp hne
        rw [hrank] at hlt
        exact ih h hblks (by omega) (by omega)

/-- The rank of the next entry: the next slot, or the one behind it when that is an index
block. -/
def nextEntry (c : Nat) : Nat := if (c - 1042) % 1025 = 0 then c + 1 else c

theorem nextEntry_eq : nextEntry (max (blocksFor n) 1042) = (dataSlot (max n 1040)).rank := by
  have hrank := rank_dataSlot (max n 1040)
  have hwrap : ∀ r, r < 1024 → ((r + 2) % 1025 = 0 ↔ r = 1023) := by omega
  rw [blocksFor_double (by omega)] at hrank
  unfold nextEntry
  rcases Nat.lt_or_ge 1040 n with hdouble | hbelow
  · obtain ⟨a, r, hr, hn⟩ : ∃ a r, r < 1024 ∧ n = 1041 + (1024 * a + r) :=
      ⟨(n - 1041) / 1024, (n - 1041) % 1024, Nat.mod_lt _ (by omega), by omega⟩
    have hquot : (n - 1041) / 1024 = a := by omega
    have hblocks : max (blocksFor n) 1042 = 1042 + (1025 * a + (r + 2)) := by
      rw [blocksFor_double hdouble, hquot]
      omega
    rw [max_eq_left hdouble.le] at hrank ⊢
    have hquot' : (n + 1 - 1041) / 1024 = if r = 1023 then a + 1 else a := by
      have hsub : n + 1 - 1041 = 1024 * a + (r + 1) := by omega
      rw [hsub, Nat.mul_add_div (by omega)]
      split <;> omega
    rw [hblocks, Nat.add_sub_cancel_left, Nat.mul_add_mod]
    simp only [hwrap r hr]
    rw [hquot'] at hrank
    split at hrank <;> rename_i hlast
    · rw [if_pos hlast]
      omega
    · rw [if_neg hlast]
      omega
  · have hle := blocksFor_le hbelow
    have htop : blocksFor 1040 = 1041 := blocksFor_indirect (by omega) le_rfl
    rw [max_eq_right (show blocksFor n ≤ 1042 by omega), max_eq_right hbelow]
    rfl

/-- The last rank that a call of `get_blkno` for the remaining offset `off` fills. -/
def lastRank (c off : Nat) : Nat := max (nextEntry c) (stopRank off)

theorem nextEntry_le_lastRank (c off : Nat) : nextEntry c ≤ lastRank c off := by
  unfold lastRank
  exact le_max_left _ _

theorem stopRank_le_lastRank (c off : Nat) : stopRank off ≤ lastRank c off := by
  unfold lastRank
  exact le_max_right _ _

/-- The outer loop has come to pass `k` in state `t`, with the slots up to rank `d` filled. -/
structure Passing (lo hi last i c e off blks : Nat) (s : ParchFS) (k d : Nat) (t : ParchFS) :
    Prop where
  takes : Takes lo hi last i c d e s t
  start : 1042 ≤ c
  blks_eq : blks = 4096 * slotVal t.mem i (.field 17)
  full : 1042 + 1025 * k ≤ d
  last_eq : lastRank d off = lastRank c off

namespace Passing

variable {blks k : Nat}

/-- Full index blocks are few. -/
theorem index_lt (h : Passing lo hi last i c e off blks s k d t) (hi' : i ≤ last) : k < 512 := by
  by_contra hge
  have hfull := h.full
  have hlt := h.takes.packed.owned.index2_lt hi' (k := 512) fun j hj l hl => by
    refine (h.takes.packed.lt_iff (entry_indexSlot_valid (by omega) hl)).mpr ?_
    rw [Slot.rank_entry_indexSlot]
    omega
  omega

/-- A pass fills the index block of its turn and scans it. -/
theorem pass (h : Passing lo hi last i c e off blks s k d t) (hi' : i ≤ last) :
    Outcome (INode.indirect2Pass off blks k) t
      (fun done u => (done = true → Takes lo hi last i c (lastRank c off + 1) e s u ∧
          lastRank c off < 525843) ∧
        (done = false → ∃ d', Passing lo hi last i c e off blks s (k + 1) d' u))
      (Shortage hi c (lastRank c off + 1) e) := by
  have hk := h.index_lt hi'
  have hvalid := indexSlot_valid (show k < 1024 by omega)
  have hrank : (indexSlot k).rank = 1042 + 1025 * k := rfl
  have hfull := h.full
  have hlast := h.last_eq
  have hstop := stopRank_eq off
  have hbase : slotVal t.mem i (.field 17) ≠ 0 := by
    refine (h.takes.packed.lt_iff (field_valid (by omega))).mpr ?_
    have hstart := h.start
    have hle := h.takes.le
    rw [Slot.rank_field_seventeen]
    omega
  have haddr : blks + 4 * k = slotAddr t.mem i (indexSlot k) := by
    rw [h.blks_eq]
    rfl
  have hnext : max d (1043 + 1025 * k) ≤ nextEntry d := by
    unfold nextEntry
    split <;> omega
  have hbelow : nextEntry d ≤ lastRank c off := by
    rw [← hlast]
    exact nextEntry_le_lastRank d off
  have hstop' : stopRank off ≤ lastRank c off := stopRank_le_lastRank c off
  unfold INode.indirect2Pass INode.indirect2Entry
  simp only [bind_assoc]
  rw [haddr]
  refine fillIndex_takes h.takes.packed hi' hvalid (by omega) (fun err he => ?_)
    fun u hu hv => ?_
  · exact (h.takes.shortage he).mono (by omega)
  rw [hrank, show 1042 + 1025 * k + 1 = 1043 + 1025 * k by omega] at hu
  have hsu := h.takes.trans hu
  refine (fillIndirect2Block_takes off blknoPerBlk (q := k) hsu.packed hi' (by omega)
    rfl le_rfl (by simp only [blknoPerBlk]; omega)).mono ?_
    fun err he => (hsu.shortage he).mono (by omega)
  rintro done w ⟨d', hw, hdone, hmore⟩
  refine ⟨fun htrue => ?_, fun hfalse => ⟨d', ?_⟩⟩
  · obtain ⟨hd', hend⟩ := hdone htrue
    have hsame : max (max d (1043 + 1025 * k)) (stopRank off) = lastRank c off := by
      rw [← hlast]
      unfold lastRank nextEntry
      split <;> omega
    rw [hsame] at hd'
    rw [← hd']
    exact ⟨hsu.trans hw, by omega⟩
  · obtain ⟨hd', hend⟩ := hmore hfalse
    refine ⟨hsu.trans hw, h.start, ?_, by clear hend; omega, ?_⟩
    · rw [(hu.touches.trans hw.touches).keep hi' (field_valid (show 17 < 18 by omega)) hbase]
      exact h.blks_eq
    · rw [← hlast]
      unfold lastRank nextEntry
      split <;> split <;> omega

end Passing

/-- The outer loop fills the slots up to the last rank. -/
theorem fillIndirect2_takes (off : Nat) {blks : Nat} (h : Packed lo hi last i c e s)
    (hi' : i ≤ last) (hstart : 1042 ≤ c) (hblks : blks = 4096 * slotVal s.mem i (.field 17)) :
    Outcome (INode.fillIndirect2 off blks (2 ^ 31) 0) s
      (fun _ t => Takes lo hi last i c (lastRank c off + 1) e s t ∧ lastRank c off < 525843)
      (Shortage hi c (lastRank c off + 1) e) := by
  rw [INode.fillIndirect2_eq]
  have hbound : ∀ k t, (∃ d, Passing lo hi last i c e off blks s k d t) → k < 512 :=
    fun k t ⟨d, hd⟩ => hd.index_lt hi'
  exact Outcome.untilDone hbound (by omega) ⟨c, Takes.refl h, hstart, hblks, hstart, rfl⟩
    fun k t ⟨d, hd⟩ => hd.pass hi'

/-- A call of `get_blkno` with `create` on a file of `n` data blocks: the missing slots are
filled one behind the other from the cursor on, or there are fewer blocks than it needs. -/
theorem getBlkno_takes (h : Packed lo hi last i (blocksFor n) e s) (hi' : i ≤ last)
    (hoff : off < 2 ^ 64) :
    Outcome (INode.getBlkno i off true) s
      (fun b t => Takes lo hi last i (blocksFor n) (blocksFor (grownTo n off)) e s t ∧
        b = fileBlk t.mem i (off / 4096) ∧ off / 4096 < 1049616)
      (Shortage hi (blocksFor n) (blocksFor (grownTo n off)) e) := by
  by_cases hsmall : off < 4259840
  · rw [grownTo_of_lt hsmall, blocksFor_max]
    refine (getBlkno_takes_of_lt h hi' hsmall).mono ?_ fun _ he => he
    rintro b t ⟨ht, hb⟩
    exact ⟨ht, hb, by omega⟩
  · have hge : 4259840 ≤ off := Nat.le_of_not_lt hsmall
    obtain ⟨c', hc'⟩ : ∃ c', c' = max (blocksFor n) 1042 := ⟨_, rfl⟩
    have hstop : stopRank (off - 4259840) = (dataSlot (off / 4096 + 1)).rank := by
      rw [stopRank, show 1040 + ((off - 4259840) / 4096 + 1) = off / 4096 + 1 by omega]
    have hfinal : lastRank c' (off - 4259840) + 1 = blocksFor (grownTo n off) := by
      rw [grownTo_of_ge hge, ← rank_dataSlot, lastRank, hc', nextEntry_eq, hstop, rank_dataSlot_max]
    rw [INode.getBlkno_eq_loop i hge]
    have hfirst := toIndirect2_takes h hi' hoff hge
    rw [← hc'] at hfirst
    have hlt : c' ≤ blocksFor (grownTo n off) := by
      have hle : c' ≤ nextEntry c' := by
        unfold nextEntry
        split <;> omega
      have hle' := nextEntry_le_lastRank c' (off - 4259840)
      omega
    refine Outcome.bind (hfirst.mono ?_ fun err he => he.mono hlt)
    rintro blks t ⟨ht, rfl⟩
    have hloop := fillIndirect2_takes (off - INode.indirect2Start) ht.packed hi' (by omega) rfl
    rw [INode.indirect2Start_eq, hfinal] at hloop
    refine Outcome.bind (hloop.mono ?_ fun err he => ht.shortage he)
    rintro _ u ⟨hu, hbound⟩
    -- the block of the offset is mapped now, so the lookup finds it
    have hsmall' : off / 4096 < 525843 := by
      have hle := stopRank_le_lastRank c' (off - 4259840)
      rw [stopRank_eq] at hle
      omega
    have hblk : 1040 + (off - 4259840) / 4096 = off / 4096 := by omega
    have hv : fileBlk u.mem i (off / 4096) ≠ 0 :=
      (hu.packed.lt_iff (dataSlot_valid (by omega))).mpr (rank_dataSlot_lt_iff.mpr lt_grownTo)
    have hlookup : INode.getBlknoIndirect2 i (off - 4259840) false u =
        .ok (fileBlk u.mem i (1040 + (off - 4259840) / 4096), u) :=
      getBlknoIndirect2_lookup hu.packed.owned hi' (by omega) (by rw [hblk]; exact hv)
    rw [hblk] at hlookup
    exact Outcome.of_eq_ok hlookup ⟨ht.trans hu, rfl, by omega⟩

end ParchTestbench
