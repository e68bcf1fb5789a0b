import ParchTestbench.ParchFS.BlockMap

/-!
# ParchFS: writing a byte range

A file is one array of bytes, zero where nothing was written.  `write` overlays
its buffer on that array, whatever block boundaries the range crosses, and
enlarges the file to hold it.

Main results:

- Theorem `Ownership.copyIntoBlock`: a copy into a mapped block changes the
  contents of one inode only.
- Theorem `write_outcome`: `write` overlays its buffer or stops with a full block
  bitmap.
- Theorem `write_outcome_of_lt`: below the double-indirect range `write` fills
  exactly the slots that its end needs.
-/

namespace ParchTestbench

open ParchFS Program

variable {lo hi last i off : Nat} {s t u : ParchFS} {buf : List UInt8}

/-! ## A copy into a block -/

/-- From `s` to `t` the bytes `buf` have been laid over the contents of inode `i`
at `off`, and nothing else has changed. -/
structure DataWrite (lo hi last i off : Nat) (buf : List UInt8) (s t : ParchFS) : Prop where
  owned : Ownership lo hi last t
  touches : Touches lo hi last i s t
  content_eq : content t.mem i = (content s.mem i).copy off buf
  slots_eq : ∀ j, j ≤ last → ∀ σ : Slot, σ.Valid → slotVal t.mem j σ = slotVal s.mem j σ
  size_eq : fileSize t.mem i = fileSize s.mem i
  free_eq : freeCount hi t.mem = freeCount hi s.mem

theorem DataWrite.refl (h : Ownership lo hi last s) : DataWrite lo hi last i off [] s s where
  owned := h
  touches := Touches.refl
  content_eq := Mem.copy_nil.symm
  slots_eq _ _ _ _ := rfl
  size_eq := rfl
  free_eq := rfl

theorem DataWrite.trans {cs : List UInt8} (h : DataWrite lo hi last i off buf s t)
    (h' : DataWrite lo hi last i (off + buf.length) cs t u) :
    DataWrite lo hi last i off (buf ++ cs) s u where
  owned := h'.owned
  touches := h.touches.trans h'.touches
  content_eq := by rw [h'.content_eq, h.content_eq, Mem.copy_append]
  slots_eq j hj σ hσ := (h'.slots_eq j hj σ hσ).trans (h.slots_eq j hj σ hσ)
  size_eq := h'.size_eq.trans h.size_eq
  free_eq := h'.free_eq.trans h.free_eq

/-- A copy into a mapped block changes the contents of one inode only. -/
theorem Ownership.copyIntoBlock (h : Ownership lo hi last s) (hi' : i ≤ last)
    (hk : off / 4096 < 1049616) (hv : fileBlk s.mem i (off / 4096) ≠ 0)
    (hlen : off % 4096 + buf.length ≤ 4096) :
    DataWrite lo hi last i off buf s
      (s.withMem (s.mem.copy (4096 * fileBlk s.mem i (off / 4096) + off % 4096) buf)) := by
  have hpool := h.pool_below_metadata
  have hlast := h.last_lt
  have hvalid := dataSlot_valid hk
  obtain ⟨hblo, hbhi⟩ := h.in_pool i hi' _ hvalid hv
  rw [← fileBlk] at hblo hbhi
  obtain ⟨b, hb⟩ : ∃ b, b = fileBlk s.mem i (off / 4096) := ⟨_, rfl⟩
  rw [← hb] at hv hblo hbhi ⊢
  have hout : ∀ x, x < 4096 * b ∨ 4096 * b + 4096 ≤ x →
      (s.mem.copy (4096 * b + off % 4096) buf) x = s.mem x :=
    fun x hx => Mem.copy_of_notMem (by omega)
  -- the block of another slot is another block
  have hother : ∀ j, j ≤ last → ∀ σ : Slot, σ.Valid → slotVal s.mem j σ ≠ 0 →
      ¬ (j = i ∧ σ = dataSlot (off / 4096)) → ∀ x, 4096 * slotVal s.mem j σ ≤ x →
        x < 4096 * slotVal s.mem j σ + 4096 →
        (s.mem.copy (4096 * b + off % 4096) buf) x = s.mem x := by
    intro j hj σ hσ hσv hne x hx hx'
    have hdiff : slotVal s.mem j σ ≠ b := fun heq =>
      hne (h.unique j i hj hi' σ _ hσ hvalid hσv (heq.trans hb))
    exact hout x (by omega)
  obtain ⟨hown, hslots⟩ := h.of_frame (s.withMem (s.mem.copy (4096 * b + off % 4096) buf)) rfl
    (fun j hj x hx hx' => hout x (by rw [INode.addr_eq] at hx hx'; omega))
    (fun j hj p hp hidx hpv => hother j hj p hp hpv fun hsame =>
      dataSlot_not_isIndex _ (hsame.2 ▸ hidx))
    (fun x hx hx' => hout x (by omega))
  simp only [mem_withMem] at hslots
  have hfree : freeCount hi (s.mem.copy (4096 * b + off % 4096) buf) = freeCount hi s.mem :=
    freeCount_congr (by omega) fun x hx hx' => hout x (by omega)
  refine ⟨hown, ⟨rfl, ?_, ?_, ?_, ?_, ?_, ?_, ?_⟩, ?_, hslots, ?_, hfree⟩ <;>
    simp only [mem_withMem]
  · intro x hx
    exact hout x (by omega)
  · intro x hx _ _ _
    exact hout x (by omega)
  · intro x hx _
    exact hout x (by omega)
  · intro j hj σ hσ _
    exact hslots j hj σ hσ
  · intro j hj hne
    exact content_congr (hslots j hj) fun k hk hkv =>
      hother j hj _ (dataSlot_valid hk) hkv fun hsame => hne hsame.1
  · intro q _ hq
    exact fsBit_congr hq fun x hx hx' => hout x (by omega)
  · rw [hfree, Mem.load_congr fun x hx hx' => hout x (by
      rw [SuperBlock.freeBlock_eq] at hx; omega)]
  · -- the contents of `i`: inside the block, and elsewhere
    funext o
    by_cases hok : o / 4096 < 1049616
    swap
    · rw [content_of_ge (by omega), Mem.copy_of_notMem (by omega), content_of_ge (by omega)]
    have hoslot : fileBlk (s.mem.copy (4096 * b + off % 4096) buf) i (o / 4096) =
        fileBlk s.mem i (o / 4096) := hslots i hi' _ (dataSlot_valid hok)
    by_cases hsame : o / 4096 = off / 4096
    · have hbv : fileBlk s.mem i (o / 4096) = b := by rw [hsame, hb]
      rw [content_of_mapped hok (by rw [hoslot, hbv]; exact hv), hoslot, hbv]
      by_cases hin : off ≤ o ∧ o - off < buf.length
      · have hidx : 4096 * b + o % 4096 - (4096 * b + off % 4096) = o - off := by omega
        rw [Mem.copy_of_mem (by omega) (by omega), Mem.copy_of_mem hin.1 hin.2]
        simp only [hidx]
      · rw [Mem.copy_of_notMem (by omega), Mem.copy_of_notMem (by omega),
          content_of_mapped hok (by rw [hbv]; exact hv), hbv]
    · rw [Mem.copy_of_notMem (by omega)]
      by_cases hov : fileBlk s.mem i (o / 4096) = 0
      · rw [content_of_unmapped hov, content_of_unmapped (hoslot.trans hov)]
      · rw [content_of_mapped hok hov, content_of_mapped hok (by rw [hoslot]; exact hov), hoslot]
        exact hother i hi' _ (dataSlot_valid hok) hov
          (fun hc => hsame (dataSlot_injective hc.2)) _ (by rw [fileBlk]; omega)
          (by rw [fileBlk]; omega)
  · exact Mem.load_congr fun x hx hx' => hout x (by rw [INode.fSize_eq] at hx; omega)

/-! ## The copy loop -/

theorem copyLen_le_block (off len : Nat) : off % 4096 + INode.copyLen off len ≤ 4096 := by
  unfold INode.copyLen
  split <;> simp only [blkSize] at * <;> omega

theorem copyLen_le_length (off len : Nat) : INode.copyLen off len ≤ len := by
  unfold INode.copyLen
  split <;> simp only [blkSize] at * <;> omega

/-- One iteration after its `get_blkno`: the first piece is copied into the block of
the offset, and the loop goes on with the rest. -/
theorem writeChunk_outcome {Q : Unit → ParchFS → Prop} {E : Abort → Prop}
    (h : Ownership lo hi last t) (hi' : i ≤ last) (hk : off / 4096 < 1049616)
    (hv : fileBlk t.mem i (off / 4096) ≠ 0)
    (hoff : off + INode.copyLen off buf.length < 2 ^ 64)
    (hrest : ∀ u, DataWrite lo hi last i off (buf.take (INode.copyLen off buf.length)) t u →
      Outcome (INode.writeLoop i (off + INode.copyLen off buf.length)
        (buf.drop (INode.copyLen off buf.length))) u Q E) :
    Outcome (do
      onlyIf (fileBlk t.mem i (off / 4096) = 0) (ParchFS.panic "bad blk no")
      let blk ← getBlk (fileBlk t.mem i (off / 4096))
      let n := INode.copyLen off buf.length
      memcpy (blk + off % blkSize) (buf.take n)
      INode.writeLoop i ((off + n) % 2 ^ 64) (buf.drop n)) t Q E := by
  have hpool := h.pool_below_metadata
  have hmapped := h.mapped_ge
  have hvalid := dataSlot_valid hk
  obtain ⟨-, hhi⟩ := h.in_pool i hi' _ hvalid hv
  rw [← fileBlk] at hhi
  have hblock := copyLen_le_block off buf.length
  have hlen := copyLen_le_length off buf.length
  have htake : (buf.take (INode.copyLen off buf.length)).length = INode.copyLen off buf.length := by
    rw [List.length_take, min_eq_left hlen]
  refine Outcome.onlyIf_bind_neg hv ?_
  refine Outcome.bind_ok (h.getBlk_slotVal hi' hvalid hv) ?_
  refine Outcome.bind_ok (memcpy_eq (by rw [htake]; simp only [blkSize]; rw [← fileBlk]; omega)) ?_
  rw [Nat.mod_eq_of_lt hoff]
  exact hrest _ (h.copyIntoBlock hi' hk hv (by rw [htake]; exact hblock))

/-- What the copy loop leaves behind. -/
structure LoopWrite (lo hi last i off : Nat) (buf : List UInt8) (s t : ParchFS) : Prop where
  owned : Ownership lo hi last t
  touches : Touches lo hi last i s t
  content_eq : content t.mem i = (content s.mem i).copy off buf
  size_ge : fileSize s.mem i ≤ fileSize t.mem i
  size_le : fileSize t.mem i ≤ max (fileSize s.mem i) (off + buf.length)
  end_lt : buf ≠ [] → off + buf.length < 2151747584

/-- The copy loop overlays its buffer or stops with a full block bitmap. -/
theorem writeLoop_outcome (h : Ownership lo hi last s) (hclosed : Closed hi s.mem) (hi' : i ≤ last)
    (hoff : off < 2 ^ 64) :
    Outcome (INode.writeLoop i off buf) s (fun _ t => LoopWrite lo hi last i off buf s t)
      (fun e => e = blockBitmapFull) := by
  -- strong induction on the bytes that are left
  induction hn : buf.length using Nat.strong_induction_on generalizing off buf s with
  | _ n ih =>
      rw [INode.writeLoop]
      split
      · rename_i hnil
        have hbuf := List.length_eq_zero_iff.mp hnil
        subst hbuf
        exact Outcome.pure ⟨h, Touches.refl, Mem.copy_nil.symm, le_rfl, le_max_left _ _,
          fun hne => absurd rfl hne⟩
      · rename_i hpos
        have hlen := copyLen_le_length off buf.length
        have hcopy := INode.copyLen_pos off (Nat.pos_of_ne_zero hpos)
        have hblock := copyLen_le_block off buf.length
        refine Outcome.bind ((getBlkno_outcome h hclosed hi' hoff).mono ?_ fun _ he => he)
        rintro b t ⟨ht, rfl⟩
        have hlt := ht.off_lt
        refine writeChunk_outcome ht.grown.owned hi' (by omega) (ht.mapped _ le_rfl) (by omega) ?_
        intro u hu
        have htake : (buf.take (INode.copyLen off buf.length)).length =
            INode.copyLen off buf.length := by rw [List.length_take, min_eq_left hlen]
        have hdrop : (buf.drop (INode.copyLen off buf.length)).length =
            buf.length - INode.copyLen off buf.length := List.length_drop
        refine (ih _ (by omega) hu.owned (hu.touches.closed (ht.grown.grows.closed hclosed))
          (by omega) rfl).mono ?_ fun _ he => he
        intro _ v hv
        have hts := ht.grown.size
        have hus := hu.size_eq
        have hge := hv.size_ge
        have hle := hv.size_le
        refine ⟨hv.owned, (ht.grown.grows.toTouches.trans hu.touches).trans hv.touches, ?_,
          by omega, by omega, fun _ => ?_⟩
        · have hall : ((content s.mem i).copy off (buf.take (INode.copyLen off buf.length))).copy
              (off + (buf.take (INode.copyLen off buf.length)).length)
              (buf.drop (INode.copyLen off buf.length)) =
              (content s.mem i).copy off (buf.take (INode.copyLen off buf.length) ++
                buf.drop (INode.copyLen off buf.length)) := Mem.copy_append _ _
          rw [List.take_append_drop, htake] at hall
          rw [hv.content_eq, hu.content_eq, ht.grown.grows.own, hall]
        · by_cases hrest : buf.drop (INode.copyLen off buf.length) = []
          · rw [hrest, List.length_nil] at hdrop
            omega
          · have hend := hv.end_lt hrest
            omega

/-- Over a covered range the copy loop cannot abort and allocates nothing. -/
theorem writeLoop_covered (h : Ownership lo hi last s) (hi' : i ≤ last)
    (hcov : Covered s.mem i (off + buf.length)) :
    Outcome (INode.writeLoop i off buf) s (fun _ t => DataWrite lo hi last i off buf s t)
      (fun _ => False) := by
  induction hn : buf.length using Nat.strong_induction_on generalizing off buf s with
  | _ n ih =>
      rw [INode.writeLoop]
      split
      · rename_i hnil
        have hbuf := List.length_eq_zero_iff.mp hnil
        subst hbuf
        exact Outcome.pure (DataWrite.refl h)
      · rename_i hpos
        have hlen := copyLen_le_length off buf.length
        have hcopy := INode.copyLen_pos off (Nat.pos_of_ne_zero hpos)
        have hblock := copyLen_le_block off buf.length
        have hfirst : Covered s.mem i off := hcov.mono (by omega)
        have hlt := hcov.off_lt
        refine Outcome.bind_ok (getBlkno_covered h hi' hfirst) ?_
        refine writeChunk_outcome h hi' (by omega)
          (fileBlk_ne_zero_of_needed hfirst.off_lt hfirst.filled le_rfl) (by omega) ?_
        intro u hu
        have htake : (buf.take (INode.copyLen off buf.length)).length =
            INode.copyLen off buf.length := by rw [List.length_take, min_eq_left hlen]
        have hdrop : (buf.drop (INode.copyLen off buf.length)).length =
            buf.length - INode.copyLen off buf.length := List.length_drop
        have hend : off + INode.copyLen off buf.length +
            (buf.drop (INode.copyLen off buf.length)).length = off + buf.length := by omega
        have hcov' : Covered u.mem i (off + INode.copyLen off buf.length +
            (buf.drop (INode.copyLen off buf.length)).length) := by
          rw [hend]
          refine ⟨hlt, by rw [hu.size_eq]; exact hcov.off_le, fun σ hσ => ?_⟩
          rw [hu.slots_eq i hi' σ (neededSlots_valid _ σ hσ)]
          exact hcov.filled σ hσ
        refine (ih _ (by omega) hu.owned hcov' rfl).mono ?_ fun _ he => he
        intro _ v hv
        have hall := hu.trans (by rw [htake]; exact hv)
        rwa [List.take_append_drop] at hall

/-! ## Writing -/

/-- What `write` leaves behind. -/
structure Written (lo hi last i off : Nat) (buf : List UInt8) (s t : ParchFS) : Prop where
  owned : Ownership lo hi last t
  touches : Touches lo hi last i s t
  content_eq : content t.mem i = (content s.mem i).copy off buf
  size_eq : fileSize t.mem i = max (fileSize s.mem i) (off + buf.length)
  mapped : fileSize s.mem i ≤ off + buf.length →
    ∀ k, k ≤ (off + buf.length) / 4096 → fileBlk t.mem i k ≠ 0
  beyond : fileSize s.mem i ≤ off + buf.length → 4259840 ≤ off + buf.length →
    fileBlk t.mem i ((off + buf.length) / 4096 + 1) ≠ 0
  end_lt : off + buf.length ≤ fileSize s.mem i ∨ off + buf.length < 2151743488

theorem load_fSize (h : Ownership lo hi last s) (hi' : i ≤ last) :
    load (INode.fSize i) 8 s = .ok (fileSize s.mem i, s) := by
  have hmapped := h.mapped_ge
  have hlast := h.last_lt
  exact load_eq (by rw [INode.fSize_eq]; omega)

/-- `write` overlays its buffer or stops with a full block bitmap. -/
theorem write_outcome (h : Ownership lo hi last s) (hclosed : Closed hi s.mem) (hi' : i ≤ last)
    (hoff : off < 2 ^ 64) :
    Outcome (INode.write i off buf) s (fun _ t => Written lo hi last i off buf s t)
      (fun e => e = blockBitmapFull) := by
  unfold INode.write
  refine Outcome.bind_ok (load_fSize h hi') ?_
  -- a range whose end wraps makes the copy loop abort
  have hwrap : ∀ u v : ParchFS, LoopWrite lo hi last i off buf u v → off + buf.length < 2 ^ 64 := by
    intro u v hv
    by_cases hnil : buf = []
    · rw [hnil, List.length_nil]
      omega
    · have hend := hv.end_lt hnil
      omega
  by_cases hexpand : fileSize s.mem i ≤ (off + buf.length) % 2 ^ 64
  · rw [onlyIf_pos hexpand]
    refine Outcome.bind (Outcome.bind ((getBlkno_outcome h hclosed hi'
      (Nat.mod_lt _ (by norm_num))).mono ?_ fun _ he => he))
    rintro b t ⟨ht, -⟩
    refine Outcome.pure ((writeLoop_outcome ht.grown.owned (ht.grown.grows.closed hclosed) hi'
      hoff).mono ?_ fun _ he => he)
    intro _ u hu
    have hmod := Nat.mod_eq_of_lt (hwrap t u hu)
    have hsize := ht.grown.size
    have hlt := ht.off_lt
    have hge := hu.size_ge
    have hle := hu.size_le
    have hmapped := ht.mapped
    have hbeyond := ht.beyond
    rw [hmod] at hsize hlt hexpand hmapped hbeyond
    have hkeep : ∀ k, k < 1049616 → fileBlk t.mem i k ≠ 0 → fileBlk u.mem i k ≠ 0 := by
      intro k hk hne
      rw [fileBlk, hu.touches.keep hi' (dataSlot_valid hk) hne]
      exact hne
    exact ⟨hu.owned, ht.grown.grows.toTouches.trans hu.touches,
      by rw [hu.content_eq, ht.grown.grows.own], by omega,
      fun _ k hk => hkeep k (by omega) (hmapped k hk),
      fun _ hge' => hkeep _ (by omega) (hbeyond hge'), Or.inr hlt⟩
  · refine Outcome.onlyIf_bind_neg hexpand ?_
    refine (writeLoop_outcome h hclosed hi' hoff).mono ?_ fun _ he => he
    intro _ u hu
    have hmod := Nat.mod_eq_of_lt (hwrap s u hu)
    rw [hmod] at hexpand
    have hge := hu.size_ge
    have hle := hu.size_le
    exact ⟨hu.owned, hu.touches, hu.content_eq, by omega, fun hc => absurd hc hexpand,
      fun hc => absurd hc hexpand, Or.inl (by omega)⟩

/-- Over a covered range `write` cannot abort and allocates nothing. -/
theorem write_covered (h : Ownership lo hi last s) (hi' : i ≤ last)
    (hcov : Covered s.mem i (off + buf.length)) :
    Outcome (INode.write i off buf) s (fun _ t => DataWrite lo hi last i off buf s t)
      (fun _ => False) := by
  have hlt := hcov.off_lt
  have hmod : (off + buf.length) % 2 ^ 64 = off + buf.length := Nat.mod_eq_of_lt (by omega)
  unfold INode.write
  refine Outcome.bind_ok (load_fSize h hi') ?_
  rw [hmod]
  by_cases hexpand : fileSize s.mem i ≤ off + buf.length
  · rw [onlyIf_pos hexpand]
    refine Outcome.bind (Outcome.bind_ok (getBlkno_covered h hi' hcov) ?_)
    exact Outcome.pure (writeLoop_covered h hi' hcov)
  · exact Outcome.onlyIf_bind_neg hexpand (writeLoop_covered h hi' hcov)

/-- Below the double-indirect range a `write` that reaches the end of the file fills
exactly the slots that its own end needs. -/
theorem write_outcome_of_lt (h : Ownership lo hi last s) (hi' : i ≤ last)
    (hend : off + buf.length < 4259840) (hsize : fileSize s.mem i ≤ off + buf.length)
    (hroom : Room hi (emptySlots s.mem i (neededSlots (off + buf.length))) s.mem) :
    Outcome (INode.write i off buf) s
      (fun _ u => ∃ t, Fills lo hi last i (off + buf.length) (neededSlots (off + buf.length)) s t ∧
        DataWrite lo hi last i off buf t u)
      (Exhausted hi (emptySlots s.mem i (neededSlots (off + buf.length))) s.mem) := by
  have hmod : (off + buf.length) % 2 ^ 64 = off + buf.length := Nat.mod_eq_of_lt (by omega)
  unfold INode.write
  refine Outcome.bind_ok (load_fSize h hi') ?_
  rw [hmod, onlyIf_pos hsize]
  refine Outcome.bind (Outcome.bind ((getBlkno_outcome_of_lt h hi' hend hroom).mono ?_
    fun _ he => he))
  rintro b t ⟨ht, -⟩
  rw [max_eq_right hsize] at ht
  refine Outcome.pure ((writeLoop_covered ht.owned hi' ⟨hend, ht.size.ge, ht.filled⟩).mono ?_
    fun _ he => he.elim)
  exact fun _ u hu => ⟨t, ht, hu⟩

end ParchTestbench
