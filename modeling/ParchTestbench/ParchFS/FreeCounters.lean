import ParchTestbench.ParchFS.TightLayout

/-!
# ParchFS: the free counters

`SuperBlock::init` counts the whole inode table as free and leaves it to the constructor to
mark inode 0, which never decrements the counter.  From then on the counter and the bitmap
change together, so that the counter stays one ahead.

Main results:

- Theorem `Initial.not_countersMatch`: the counter of a new volume is wrong, wherever the
  root's block lies.
- Theorem `freeInode_of_run`: the counter stays one ahead of the bitmap.
- Theorem `countersMatch_never`: in no state do the counters match.
-/

namespace ParchTestbench

open ParchFS Program

variable {lo hi last i : Nat} {base s t u w : ParchFS} {env : Env} {op : Op} {ops : List Op}

/-- The number of free inodes in the table. -/
def clearInodes (m : Mem) : Nat :=
  ((Finset.range 8192).filter fun no => inodeBit m no = false).card

/-- The counters of the super block are the numbers of clear bits. -/
structure CountersMatch (s : ParchFS) : Prop where
  blocks : s.mem.load SuperBlock.freeBlock 8 = freeCount 524288 s.mem
  inodes : s.mem.load SuperBlock.freeInode 8 = clearInodes s.mem

theorem clearInodes_le {m : Mem} {a b : Nat} (ha : a < 8192) (hb : b < 8192) (hne : b ≠ a)
    (hbit : inodeBit m a = true) (hbit' : inodeBit m b = true) : clearInodes m ≤ 8190 := by
  have hsub : ((Finset.range 8192).filter fun no => inodeBit m no = false) ⊆
      ((Finset.range 8192).erase a).erase b := by
    intro no hno
    rw [Finset.mem_filter] at hno
    refine Finset.mem_erase.mpr ⟨?_, Finset.mem_erase.mpr ⟨?_, hno.1⟩⟩
    · rintro rfl
      exact Bool.false_ne_true (hno.2.symm.trans hbit')
    · rintro rfl
      exact Bool.false_ne_true (hno.2.symm.trans hbit)
  have hcard := Finset.card_le_card hsub
  rw [Finset.card_erase_of_mem (Finset.mem_erase.mpr ⟨hne, Finset.mem_range.mpr hb⟩),
    Finset.card_erase_of_mem (Finset.mem_range.mpr ha), Finset.card_range] at hcard
  exact hcard

theorem clearInodes_pos {m : Mem} {a : Nat} (ha : a < 8192) (hbit : inodeBit m a = false) :
    0 < clearInodes m :=
  Finset.card_pos.mpr ⟨a, Finset.mem_filter.mpr ⟨Finset.mem_range.mpr ha, hbit⟩⟩

/-! ## A new volume -/

namespace Initial

/-- The inode bitmap of a new volume, unless the root's block lies on it. -/
theorem inodeBit_eq (h : Initial s u) (hne : rootBlkNo s ≠ 0x7FFDE) {no : Nat} (hno : no < 32768) :
    inodeBit u.mem no = decide (no = rootInode ∨ no = 0) := by
  obtain ⟨t, v, ht, hv, rfl⟩ := h.memory
  rw [Bool.decide_or, ← ht.inodeBit_eq no hno, ← hv.inodeBit_eq no hno, mem_withMem]
  exact inodeBit_congr hno fun x hx hx' =>
    rootMem_of_notMem h.accepted.lt (by omega) (by omega) (by omega) (by omega)

/-- Two inodes are marked in any case. -/
theorem clearInodes_le (h : Initial s u) : clearInodes u.mem ≤ 8190 := by
  by_cases hblk : rootBlkNo s = 0x7FFDE
  · -- the bitmap holds the root's entry: `inode` has bit 0, and `permission` bit 0 behind it
    obtain ⟨t, v, -, -, rfl⟩ := h.memory
    have hlen := (dotEntry rootInode).length_bytes
    have hbyte : ∀ x b, x < 128 → (dotEntry rootInode).bytes[x]? = some b →
        rootMem v.mem (rootBlkNo s) (0x7FFDE000 + x) = b := by
      intro x b hx hb
      rw [hblk, rootMem, Mem.copy_of_notMem (by omega), Mem.copy_of_mem (by omega) (by omega)]
      obtain ⟨hlt, hval⟩ := List.getElem?_eq_some_iff.mp hb
      have hidx : 0x7FFDE000 + x - 4096 * 0x7FFDE = x := by omega
      simp only [hidx]
      exact hval
    have hbit : ∀ no x b, no / 8 = x → x < 128 → (dotEntry rootInode).bytes[x]? = some b →
        inodeBit (rootMem v.mem (rootBlkNo s)) no = b.toNat.testBit (no % 8) := by
      intro no x b hno hx hb
      rw [inodeBit, Mem.bit, hno, show inodeBitmap + x = 0x7FFDE000 + x by
        simp only [inodeBitmap], hbyte x b hx hb]
    have hzero : inodeBit (rootMem v.mem (rootBlkNo s)) 0 = true :=
      (hbit 0 0 1 rfl (by omega) rfl).trans (by decide)
    have hother : inodeBit (rootMem v.mem (rootBlkNo s)) 32 = true :=
      (hbit 32 4 0xED rfl (by omega) rfl).trans (by decide)
    exact ParchTestbench.clearInodes_le (a := 0) (b := 32) (by omega) (by omega) (by omega) hzero
      hother
  · exact ParchTestbench.clearInodes_le (a := 0) (b := 1) (by omega) (by omega) (by omega)
      (h.inodeBit_eq hblk (by omega)) (h.inodeBit_eq hblk (by omega))

/-- The counter of a new volume is wrong, wherever the root's block lies. -/
theorem not_countersMatch (h : Initial s u) : ¬ CountersMatch u := by
  intro hmatch
  have hinodes := hmatch.inodes
  have hle := h.clearInodes_le
  by_cases hblk : rootBlkNo s = 0x7FFFF
  · -- the super block is zero, but there are free inodes
    have hclear : inodeBit u.mem 2 = false := h.inodeBit_eq (by omega) (by omega)
    have hpos := clearInodes_pos (a := 2) (by omega) hclear
    obtain ⟨t, v, -, -, rfl⟩ := h.memory
    have hzero : (rootMem v.mem (rootBlkNo s)).load SuperBlock.freeInode 8 = 0 :=
      Mem.load_eq_zero fun x hx hx' => by
        rw [SuperBlock.freeInode_eq] at hx hx'
        rw [hblk]
        exact rootMem_block (by omega) (by omega) (by omega)
    rw [mem_withMem, hzero] at hinodes
    rw [mem_withMem] at hpos
    omega
  · obtain ⟨t, v, ht, hv, rfl⟩ := h.memory
    have hcount : (rootMem v.mem (rootBlkNo s)).load SuperBlock.freeInode 8 = 8191 := by
      have hcounter := hv.counter
      rw [ht.freeInode_eq] at hcounter
      refine Eq.trans (Mem.load_congr fun x hx hx' => ?_) hcounter
      rw [SuperBlock.freeInode_eq] at hx hx'
      have hlt := h.accepted.lt
      exact rootMem_of_notMem hlt (by omega) (by omega) (by omega) (by omega)
    rw [mem_withMem, hcount] at hinodes
    rw [mem_withMem] at hle
    omega

end Initial

/-! ## Runs -/

theorem Ownership.clearInodes_eq (h : Ownership lo hi last s) :
    clearInodes s.mem = 8191 - last := by
  have hset : ((Finset.range 8192).filter fun no => inodeBit s.mem no = false) =
      Finset.Ico (last + 1) 8192 := by
    ext no
    rw [Finset.mem_filter, Finset.mem_range, Finset.mem_Ico]
    constructor
    · rintro ⟨hno, hbit⟩
      have hiff := h.inodeBit_iff no (by omega)
      rw [hbit] at hiff
      have hgt : ¬ no ≤ last := fun hle => Bool.false_ne_true (hiff.mpr hle)
      omega
    · rintro ⟨hgt, hno⟩
      refine ⟨hno, Bool.eq_false_of_not_eq_true fun hbit => ?_⟩
      have hle := (h.inodeBit_iff no (by omega)).mp hbit
      omega
  rw [clearInodes, hset, Nat.card_Ico]
  omega

theorem Touches.freeInode (h : Touches lo hi last i s t) :
    t.mem.load SuperBlock.freeInode 8 = s.mem.load SuperBlock.freeInode 8 :=
  Mem.load_congr fun x hx hx' => by
    rw [SuperBlock.freeInode_eq] at hx hx'
    exact h.super x (by omega) (by omega)

/-- Each creation takes one off the counter. -/
theorem ParchFS.Op.Effect.freeInode (heff : op.Effect lo hi last s t)
    (hlast : last + op.added < 8192) (hs : s.mem.load SuperBlock.freeInode 8 = 8192 - last) :
    t.mem.load SuperBlock.freeInode 8 = 8192 - (last + op.added) := by
  cases op with
  | makeDir env p name =>
      obtain ⟨-, -, -, v, w, k, hv, hw, hk⟩ := heff
      have hcounter := hv.counter
      have hone : (Op.makeDir env p name).added = 1 := rfl
      rw [hk.touches.freeInode, hw.touches.freeInode, hcounter, hs]
      omega
  | makeFile env p name =>
      obtain ⟨-, v, k, hv, hk⟩ := heff
      have hcounter := hv.counter
      have hone : (Op.makeFile env p name).added = 1 := rfl
      rw [hk.touches.freeInode, hcounter, hs]
      omega
  | write i off buf => rw [heff.2.touches.freeInode, hs]; rfl
  | getBlkno i off => rw [heff.2.grown.grows.toTouches.freeInode, hs]; rfl
  | getDentry i pos => rw [heff.2.2.grown.grows.toTouches.freeInode, hs]; rfl
  | addDentry i d =>
      obtain ⟨-, -, k, hk⟩ := heff
      rw [hk.touches.freeInode, hs]
      rfl

/-- The counter stays one ahead of the bitmap. -/
theorem freeInode_of_run (hinit : init env base = .ok ((), u)) (hr : reserveStart base ≤ 0x7FDDE)
    (hops : Admissible 1 [] ops) (hrun : runAll Op.exec ops u = .ok ((), w)) :
    w.mem.load SuperBlock.freeInode 8 = clearInodes w.mem + 1 := by
  have hlt : pa2blkno base base.eKernel + 1 < reserveStart base :=
    (initial_of_init hinit).accepted.lt_reserve
  obtain ⟨s, t, hfounded⟩ := founded_of_init hinit (by omega)
  have hstart : u.mem.load SuperBlock.freeInode 8 = 8192 - 1 := by
    rw [hfounded.dotted.touches.freeInode, hfounded.spawned.counter,
      hfounded.formatted.freeInode_eq]
    norm_num
  have hroom := hops.room
  rw [List.nil_append] at hroom
  have hall : Healthy (pa2blkno base base.eKernel) (poolEnd base) (1 + creations ops) base w ∧
      w.mem.load SuperBlock.freeInode 8 = 8192 - (1 + creations ops) := by
    refine run_induct
      (I := fun done v => v.mem.load SuperBlock.freeInode 8 = 8192 - (1 + creations done))
      (healthy_of_init hinit hr) (by omega) hstart ?_ hops hrun
    intro done op v v' _ hlast _ _ heff hI
    rw [creations_concat, ← Nat.add_assoc]
    exact heff.freeInode hlast hI
  rw [hall.2, hall.1.owned.clearInodes_eq]
  omega

section Runs

variable {bin : MMAPBinContent} {lines : List (List Char)} {syms : Symbols}

/-- The counters of a new volume are wrong, and on a volume with a marked reserve they are
wrong in every state that calls reach. -/
theorem countersMatch_never (hread : Symbols.read env lines = .ok syms)
    (hrun : construct env bin lines = .ok u) :
    ¬ CountersMatch u ∧ (reserveStart (ofSymbols bin syms) ≤ 0x7FDDE → ∀ ops w,
      Admissible 1 [] ops → runAll Op.exec ops u = .ok ((), w) → ¬ CountersMatch w) := by
  have hinit := init_of_construct hread hrun
  refine ⟨(initial_of_init hinit).not_countersMatch, fun hr ops w hops hcalls hmatch => ?_⟩
  have hahead := freeInode_of_run hinit hr hops hcalls
  have hinodes := hmatch.inodes
  omega

theorem countersMatch_never_sample : ∃ u w, construct blankEnv blankImage sampleLines = .ok u ∧
    runAll Op.exec [.makeFile blankEnv rootInode []] u = .ok ((), w) ∧
      ¬ CountersMatch u ∧ ¬ CountersMatch w := by
  obtain ⟨u, hrun, hsample⟩ := exists_sampleVolume
  obtain ⟨w, hmake, -, -⟩ := hsample.flat.exists_first (by decide)
  have hcalls : runAll Op.exec [.makeFile blankEnv rootInode []] u = .ok ((), w) :=
    (bind_eq_ok ((bind_eq_ok hmake).trans rfl)).trans rfl
  have hops : Admissible 1 [] [.makeFile blankEnv rootInode []] := by
    refine ⟨fun op hop => ?_, show 1 + 1 < 8192 by omega⟩
    rw [List.mem_singleton.mp hop]
    exact show rootInode < 8192 by decide
  obtain ⟨hnew, hruns⟩ := countersMatch_never sample_read hrun
  exact ⟨u, w, hrun, hcalls, hnew, hruns (by decide) _ w hops hcalls⟩

/-- The counters of the new sample volume are wrong. -/
theorem not_countersMatch_new : ∃ u, construct blankEnv blankImage sampleLines = .ok u ∧
    runAll Op.exec [] u = .ok ((), u) ∧ ¬ CountersMatch u := by
  obtain ⟨u, hrun⟩ := exists_sample
  exact ⟨u, hrun, rfl,
    (initial_of_init (init_of_construct sample_read hrun)).not_countersMatch⟩

end Runs

end ParchTestbench
