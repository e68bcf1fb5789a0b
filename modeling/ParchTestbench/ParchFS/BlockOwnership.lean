import ParchTestbench.ParchFS.Exhaustion
import ParchTestbench.ParchFS.LayoutSafety

/-!
# ParchFS: every block has one owner

On the layouts that a linker script gives, the block numbers of all inodes are distinct
marked blocks of the pool, and every marked block of the pool is one of them, in every
state that a run of calls reaches.  The one exception is a reserve that begins in the
first page: its marking loop is empty, and a run can use up the pool and be handed the
inode table.

Main results:

- Theorem `blocksOwned_iff`: the invariant holds in every reachable state exactly when
  the reserve begins behind the first page.
-/

namespace ParchTestbench

open ParchFS Program

variable {lo hi last i : Nat} {base s t u w : ParchFS} {env : Env}

/-- An inode of the table that has been handed out. -/
def Allocated (s : ParchFS) (i : Nat) : Prop := i < 8192 ∧ inodeBit s.mem i = true

/-- The blocks that the allocated inodes hold, at all levels, against the two bitmaps. -/
structure BlocksOwned (s : ParchFS) : Prop where
  marked : ∀ i, Allocated s i → ∀ σ : Slot, σ.Valid → slotVal s.mem i σ ≠ 0 →
    fsBit s.mem (slotVal s.mem i σ) = true ∧ mmBit s.mem (slotVal s.mem i σ) = true
  inside : ∀ i, Allocated s i → ∀ σ : Slot, σ.Valid → slotVal s.mem i σ ≠ 0 →
    pa2blkno s s.eKernel < slotVal s.mem i σ ∧ slotVal s.mem i σ < reserveStart s
  once : ∀ i j, Allocated s i → Allocated s j → ∀ σ τ : Slot, σ.Valid → τ.Valid →
    slotVal s.mem i σ ≠ 0 → slotVal s.mem i σ = slotVal s.mem j τ → i = j ∧ σ = τ
  noLeak : ∀ b, b < 524288 → pa2blkno s s.eKernel < b → b < reserveStart s →
    fsBit s.mem b = true → ∃ i, Allocated s i ∧ ∃ σ : Slot, σ.Valid ∧ slotVal s.mem i σ = b
  bitmaps_eq : ∀ b, b < 524288 → fsBit s.mem b = mmBit s.mem b

theorem Ownership.allocated_iff (h : Ownership lo hi last s) : Allocated s i ↔ i ≤ last := by
  have hlast := h.last_lt
  constructor
  · rintro ⟨hi', hbit⟩
    exact (h.inodeBit_iff i (by omega)).mp hbit
  · intro hle
    exact ⟨by omega, (h.inodeBit_iff i (by omega)).mpr hle⟩

/-- A healthy volume whose pool ends where the reserve begins. -/
theorem Ownership.blocksOwned (h : Ownership (pa2blkno s s.eKernel) (reserveStart s) last s) :
    BlocksOwned s := by
  have hpool := h.pool_below_metadata
  refine ⟨fun i hi σ hσ hv => ?_, fun i hi => h.in_pool i (h.allocated_iff.mp hi),
    fun i j hi hj => h.unique i j (h.allocated_iff.mp hi) (h.allocated_iff.mp hj),
    fun b _ hlo hhi hset => ?_, fun b hb => (h.mmBit_eq b hb).symm⟩
  · have hle := h.allocated_iff.mp hi
    obtain ⟨-, hlt⟩ := h.in_pool i hle σ hσ hv
    have hset := h.marked i hle σ hσ hv
    exact ⟨hset, by rw [h.mmBit_eq _ (by omega), hset]⟩
  · obtain ⟨i, σ, hle, hσ, hv⟩ := h.no_leak b hlo hhi hset
    exact ⟨i, h.allocated_iff.mpr hle, σ, hσ, hv⟩

/-! ## After an overrun -/

/-- The slots of the file that was handed the inode table: that block and nothing else. -/
theorem Brink.slotVal_file (h : Brink env u w) {σ : Slot} (hσ : σ.Valid) :
    slotVal (overrunMem w.mem 506) 506 σ = if σ = .field 0 then 0x7FDDE else 0 := by
  induction σ with
  | field k =>
      have hk : k < 18 := hσ
      by_cases hzero : k = 0
      · subst hzero
        rw [if_pos rfl]
        exact load_slot_overrunMem
      · have hne : ¬ Slot.field k = .field 0 := fun hc => hzero (Slot.field.inj hc)
        rw [if_neg hne, ← h.vacant.slots (.field k) hσ, slotVal, slotVal]
        exact Mem.load_congr fun x hx hx' => by
          rw [INode.addr_eq] at hx hx'
          exact overrunMem_of_notMem (by omega) (by omega) (by rw [INode.addr_eq]; omega)
            (by rw [INode.addr_eq]; omega)
  | entry p k ih =>
      rcases hσ with ⟨hp, hidx, -⟩
      have hne : p ≠ .field 0 := by
        rintro rfl
        rcases hidx with hidx | hidx <;> omega
      have hpv := ih hp
      rw [if_neg hne] at hpv
      rw [if_neg Slot.noConfusion, slotVal_entry_of_zero hpv]

/-- The other inodes behind the zeroed page keep their slots. -/
theorem Brink.slotVal_other (h : Brink env u w) (h16 : 16 ≤ i) (hi : i < 506) {σ : Slot}
    (hσ : σ.Valid) : slotVal (overrunMem w.mem 506) i σ = slotVal w.mem i σ := by
  refine slotVal_congr (fun x hx hx' => ?_) (fun p hp hidx hv x hx hx' => ?_) hσ
  · rw [INode.addr_eq] at hx hx'
    exact overrunMem_of_notMem (by omega) (by omega) (by rw [INode.addr_eq]; omega)
      (by rw [INode.addr_eq]; omega)
  · obtain ⟨-, hlt⟩ := h.owned.in_pool i (by omega) p hp hv
    exact overrunMem_of_notMem (by omega) (by omega) (by rw [INode.addr_eq]; omega)
      (by rw [INode.addr_eq]; omega)

/-- The root's first block is still marked, but no inode holds it any more. -/
theorem Brink.leak (h : Brink env u w) (hlo : pa2blkno w w.eKernel = 0)
    (hhi : reserveStart w = 0xFFFFFFFF) : ¬ BlocksOwned (w.withMem (overrunMem w.mem 506)) := by
  intro howned
  have hone : rootInode ≤ 506 := by decide
  have hfield := field_valid (show 0 < 18 by omega)
  obtain ⟨hpos, hlt⟩ := h.owned.in_pool rootInode hone _ hfield h.slot
  have hset : fsBit (overrunMem w.mem 506) (slotVal w.mem rootInode (.field 0)) = true := by
    rw [fsBit_overrunMem (by omega), h.owned.marked rootInode hone _ hfield h.slot, Bool.or_true]
  obtain ⟨i, ⟨hi, hbit⟩, σ, hσ, hv⟩ := howned.noLeak _ (by omega)
    (show pa2blkno w w.eKernel < _ by rw [hlo]; exact hpos)
    (show _ < reserveStart w by rw [hhi]; omega) hset
  rw [mem_withMem] at hbit hv
  have hle : i ≤ 506 := by
    refine (h.owned.inodeBit_iff i (by omega)).mp ?_
    rw [← hbit]
    exact (inodeBit_congr (by omega) fun x hx hx' => overrunMem_of_notMem (by omega) (by omega)
      (by rw [INode.addr_eq]; omega) (by rw [INode.addr_eq]; omega)).symm
  rcases Nat.lt_or_ge i 16 with hlow | hhigh
  · -- an inode of the zeroed page
    have hzero := slotVal_eq_zero (i := i) (m := overrunMem w.mem 506) (fun x hx hx' => by
      rw [INode.addr_eq] at hx hx'
      exact overrunMem_of_mem (by omega) (by omega) (by rw [INode.directBlkNo_eq]; omega)) hσ
    exact h.slot (hv.symm.trans hzero)
  rcases Nat.eq_or_lt_of_le hle with rfl | hbelow
  · rw [h.slotVal_file hσ] at hv
    split at hv
    · omega
    · exact h.slot hv.symm
  · rw [h.slotVal_other hhigh hbelow hσ] at hv
    have hsame := (h.owned.unique rootInode i hone (by omega) _ σ hfield hσ h.slot hv.symm).1
    simp only [rootInode] at hsame
    omega

/-! ## Reachable states -/

section Runs

variable {bin : MMAPBinContent} {lines : List (List Char)} {syms : Symbols} {ops : List Op}

/-- A reserve behind the first page: every run keeps the blocks owned. -/
theorem LinkedLayout.blocksOwned (hlayout : LinkedLayout syms)
    (hinit : init env (ofSymbols bin syms) = .ok ((), s)) (hpage : 0x80001000 ≤ syms.sReserve)
    (hops : Admissible 1 [] ops) (hrun : runAll Op.exec ops s = .ok ((), u)) : BlocksOwned u := by
  have hreserve := hlayout.reserveStart_le bin hpage
  have hstart := healthy_of_init hinit (by omega)
  have hhealthy := run_healthy hstart (by omega) hops hrun
  have hpool : poolEnd (ofSymbols bin syms) = reserveStart (ofSymbols bin syms) :=
    min_eq_left (by omega)
  have howned := hhealthy.owned
  rw [hpool] at howned
  apply Ownership.blocksOwned
  rw [hhealthy.state] at howned ⊢
  exact howned

/-- A reserve in the first page: the pool of the new volume can be used up. -/
theorem LinkedLayout.exists_brink (hlayout : LinkedLayout syms)
    (hinit : init env (ofSymbols bin syms) = .ok ((), s)) (hpage : syms.sReserve < 0x80001000) :
    ∃ w, Brink env s w := by
  obtain ⟨hwrap, hfirst⟩ := hlayout.reserveStart_wrapped bin hpage
  have hkernel : pa2blkno (ofSymbols bin syms) (ofSymbols bin syms).eKernel = 0 := hfirst
  obtain ⟨t, v, hfounded⟩ := founded_of_init hinit (by omega)
  rw [hkernel] at hfounded
  exact exhaustion hfounded (by omega)

/-- A reserve in the first page: the run that uses up the pool loses the root's block. -/
theorem LinkedLayout.not_blocksOwned (hlayout : LinkedLayout syms)
    (hinit : init env (ofSymbols bin syms) = .ok ((), s)) (hpage : syms.sReserve < 0x80001000) :
    ∃ u, runAll Op.exec (exhaustingOps env) s = .ok ((), u) ∧ ¬ BlocksOwned u := by
  obtain ⟨hwrap, hfirst⟩ := hlayout.reserveStart_wrapped bin hpage
  have hkernel : pa2blkno (ofSymbols bin syms) (ofSymbols bin syms).eKernel = 0 := hfirst
  obtain ⟨t, v, hfounded⟩ := founded_of_init hinit (by omega)
  obtain ⟨w, hw⟩ := hlayout.exists_brink hinit hpage
  refine ⟨_, hw.filesMade.runAll_eq, hw.leak ?_ ?_⟩
  · rw [hw.state, hfounded.state]
    exact hkernel
  · rw [hw.state, hfounded.state]
    exact hwrap

/-- The blocks are owned in every reachable state exactly when the reserve begins behind
the first page. -/
theorem blocksOwned_iff (hread : Symbols.read env lines = .ok syms) (hlayout : LinkedLayout syms)
    (hrun : construct env bin lines = .ok s) :
    (∀ ops u, Admissible 1 [] ops → runAll Op.exec ops s = .ok ((), u) → BlocksOwned u) ↔
      0x80001000 ≤ syms.sReserve := by
  have hinit := init_of_construct hread hrun
  constructor
  · intro hall
    by_contra hpage
    obtain ⟨u, hops, hnot⟩ := hlayout.not_blocksOwned hinit (by omega)
    exact hnot (hall _ u admissible_exhaustingOps hops)
  · intro hpage ops u hops hrun
    exact hlayout.blocksOwned hinit hpage hops hrun

theorem blocksOwned_iff_sample : ∃ s, construct blankEnv blankImage sampleLines = .ok s ∧
    ((∀ ops u, Admissible 1 [] ops → runAll Op.exec ops s = .ok ((), u) → BlocksOwned u) ↔
      0x80001000 ≤ (layout 0x80200000 0xffdde000).sReserve) := by
  obtain ⟨s, hrun⟩ := exists_sample
  exact ⟨s, hrun, blocksOwned_iff sample_read sample_linked hrun⟩

/-- The run that uses up the pool of an empty kernel with a one-byte gap. -/
theorem not_blocksOwned_wrapped : LinkedLayout (layout 0x80000000 0x80000001) ∧
    ∃ s u, construct blankEnv blankImage wrappedLines = .ok s ∧
      Admissible 1 [] (exhaustingOps blankEnv) ∧
      runAll Op.exec (exhaustingOps blankEnv) s = .ok ((), u) ∧ ¬ BlocksOwned u := by
  obtain ⟨s, hrun, hinit⟩ := exists_wrapped
  obtain ⟨u, hops, hnot⟩ := wrapped_linked.not_blocksOwned hinit (by decide)
  exact ⟨wrapped_linked, s, u, hrun, admissible_exhaustingOps, hops, hnot⟩

end Runs

end ParchTestbench
