import ParchTestbench.UsrLib.Coalescing
import ParchTestbench.UsrLib.HeapRuns

/-!
# The C user library: the free memory of a running program

In every state that a program reaches, the blocks of the ring are the maximal runs of memory that
was granted and is in no live block.  So `tb_malloc` asks the kernel for memory only when no run
of free memory is long enough.

Main results:

- Theorem `Reachable.merged`: free neighbours are one block, and the live blocks are the taken ones.
- Theorem `freeRun_iff`: the maximal runs of free memory are the blocks of the ring.
- Theorem `tbMalloc_sbrk_iff`: a call does without `tb_sbrk` exactly when it finds a run of free
  memory for the block and its header.
-/

namespace ParchTestbench

namespace Heap

open Program

/-- The kernel grants no memory up to the end of the address space. -/
def EndsBelow (kernel : Kernel) : Prop :=
  ∀ calls n a, kernel calls n = .granted a → a + n < 2 ^ 64

/-- The taken blocks are those of the live pointers. -/
def LiveBlocks (s : State) (H F : Finset Nat) (live : List (Nat × Nat)) : Prop :=
  ∀ k m, Taken s H F k m ↔ ∃ block ∈ live, block.1 = k + 16 ∧ nunits block.2 = m

section Runs

variable {base p x h n nbytes : Nat} {kernel : Kernel} {s s' : State} {H F : Finset Nat}
  {live : List (Nat × Nat)} {calls : List Call} {byte : UInt8}

theorem granted_lt (hbelow : EndsBelow kernel) (h : Answered kernel calls)
    (hx : Granted calls x) : x + 1 < 2 ^ 64 := by
  induction h with
  | nil => exact absurd hx not_granted_nil
  | @cons calls n _ ih =>
      cases hanswer : kernel calls n with
      | granted a =>
          rw [hanswer, granted_cons_granted] at hx
          have hend := hbelow _ _ _ hanswer
          rcases hx with hin | hold
          · omega
          · exact ih hold
      | failed v =>
          rw [hanswer, granted_cons_failed] at hx
          exact ih hx

/-- The pointer to a block does not wrap around to null. -/
theorem Merged.shift_eq (hM : Merged base s H F) (hbelow : EndsBelow kernel)
    (hanswered : Answered kernel s.calls) (hh : h ∈ H) : shift h 1 = h + 16 ∧ h + 16 < 2 ^ 64 := by
  have hpos := hM.arranged.size_pos hh
  have hlast := granted_lt hbelow hanswered
    (hM.arranged.granted (x := h + 16 * s.size h - 1) hh (by omega) (by omega))
  unfold shift
  omega

/-- A byte in no header can change. -/
theorem Merged.update (hM : Merged base s H F)
    (hx : ∀ k, k ∈ H ∨ k = base → x < k ∨ k + 16 ≤ x) (byte : UInt8) :
    Merged base { s with mem := Function.update s.mem x byte } H F := by
  refine ⟨(arranged_update hM.arranged hx).1, hM.freep_mem, hM.coalesced.congr fun k hk => ?_⟩
  exact (fields_update (hx k (hM.arranged.mem_or_eq hk))).2

theorem LiveBlocks.owns (hL : LiveBlocks s H F live) (htop : p < 2 ^ 64) (hp : 16 ≤ p)
    (hlive : (p, nbytes) ∈ live) : Owns s H F p nbytes :=
  ⟨p - 16, by omega, htop, (hL _ _).mpr ⟨_, hlive, by omega, rfl⟩⟩

/-- The first ring has no neighbours. -/
theorem merged_begun (hpos : 0 < base) (htop : base + 16 ≤ 2 ^ 64) (hfreep : s.freep = 0)
    (hnone : ∀ x, ¬ Granted s.calls x) :
    Merged base (begun base s) ∅ {base} ∧ LiveBlocks (begun base s) ∅ {base} [] := by
  obtain ⟨hI, hbase⟩ := arranged_begun hpos htop hfreep hnone
  refine ⟨⟨hI, Finset.mem_singleton.mpr hbase, fun h hh hne => ?_⟩, fun k m => ?_⟩
  · exact absurd (Finset.mem_singleton.mp hh) hne
  · refine iff_of_false (fun htaken => Finset.notMem_empty k htaken.1) ?_
    rintro ⟨block, hblock, -⟩
    exact absurd hblock List.not_mem_nil

/-! ## The steps of the program -/

/-- A call of `tb_malloc` that returns is a search that returns. -/
theorem exists_search (hM : Merged base (begun base s) H F)
    (hrun : Settles (fun fuel => tbMalloc base kernel fuel nbytes) s (.ok (p, s'))) :
    ∃ fuel, search base kernel (nunits nbytes) fuel (begun base s).freep
      ((begun base s).ptr (begun base s).freep) (begun base s) = .ok (p, s') := by
  obtain ⟨fuel, hfuel⟩ : ∃ fuel, tbMalloc base kernel fuel nbytes s = .ok (p, s') := hrun.exists
  have hstatic := hM.arranged.static
  unfold tbMalloc at hfuel
  rw [bind_eq_ok (startRing_eq hstatic.2),
    bind_eq_ok (getPtr_eq (hM.arranged.isHeader_of_mem hM.freep_mem))] at hfuel
  exact ⟨fuel, hfuel⟩

theorem tbMalloc_merged (hfresh : Fresh base kernel) (haway : EndsAway base kernel)
    (hminus : ∀ calls n v, kernel calls n = .failed v → v = 2 ^ 64 - 1)
    (hM : Merged base (begun base s) H F)
    (hrun : Settles (fun fuel => tbMalloc base kernel fuel nbytes) s (.ok (p, s'))) :
    Served base (begun base s) H F (nunits nbytes) p s' := by
  obtain ⟨fuel, hsearch⟩ := exists_search hM hrun
  exact search_merged hfresh haway hminus (Nat.succ_pos _) hM hM.freep_mem hsearch

/-- The live blocks after a call of `tb_malloc`. -/
theorem LiveBlocks.cons {H' F' : Finset Nat} (hL : LiveBlocks s H F live)
    (hkept : ∀ k m, Taken s' H' F' k m ↔ Taken s H F k m ∨ k = h ∧ m = nunits nbytes) :
    LiveBlocks s' H' F' ((h + 16, nbytes) :: live) := by
  intro k m
  rw [hkept, hL k m]
  constructor
  · rintro (⟨block, hblock, hsame⟩ | ⟨rfl, rfl⟩)
    · exact ⟨block, List.mem_cons_of_mem _ hblock, hsame⟩
    · exact ⟨_, List.mem_cons_self, rfl, rfl⟩
  · rintro ⟨block, hblock, hstart, hsize⟩
    rcases List.mem_cons.mp hblock with rfl | hold
    · exact Or.inr ⟨by omega, hsize.symm⟩
    · exact Or.inl ⟨block, hold, hstart, hsize⟩

/-- The live blocks after a call of `tb_free`. -/
theorem LiveBlocks.erase {H' F' : Finset Nat} (hL : LiveBlocks s H F live)
    (hnodup : (live.map Prod.fst).Nodup) (hlive : (h + 16, nbytes) ∈ live)
    (hkept : ∀ k m, Taken s' H' F' k m ↔ Taken s H (insert h F) k m) :
    LiveBlocks s' H' F' (live.erase (h + 16, nbytes)) := by
  intro k m
  rw [hkept, taken_insert, hL k m]
  have hmem (block : Nat × Nat) := (List.Nodup.of_map _ hnodup).mem_erase_iff (a := block)
    (b := (h + 16, nbytes))
  constructor
  · rintro ⟨hne, block, hblock, hstart, hsize⟩
    refine ⟨block, (hmem block).mpr ⟨fun heq => hne ?_, hblock⟩, hstart, hsize⟩
    rw [heq] at hstart
    omega
  · rintro ⟨block, hblock, hstart, hsize⟩
    obtain ⟨hne, hold⟩ := (hmem block).mp hblock
    refine ⟨fun heq => hne ?_, block, hold, hstart, hsize⟩
    -- two live blocks with one pointer are the same block
    exact List.inj_on_of_nodup_map hnodup hold hlive (by rw [hstart, heq])

/-- In every reachable state free neighbours are one block, and the live blocks are the taken
ones. -/
theorem Reachable.merged (hpos : 0 < base) (htop : base + 16 ≤ 2 ^ 64)
    (hfresh : Fresh base kernel) (haway : EndsAway base kernel) (hbelow : EndsBelow kernel)
    (hminus : ∀ calls n v, kernel calls n = .failed v → v = 2 ^ 64 - 1)
    (hs : Reachable base kernel s live) :
    ∃ H F, Merged base (begun base s) H F ∧ LiveBlocks (begun base s) H F live := by
  have hsignals : Signals base kernel := fun calls n v _ hfail => Or.inl (hminus calls n v hfail)
  induction hs with
  | start mem => exact ⟨∅, {base}, merged_begun hpos htop rfl fun _ => not_granted_nil⟩
  | @malloc s s' live nbytes p hs hn hrun ih =>
      obtain ⟨H, F, hM, hL⟩ := ih
      have hanswered :=
        ((Reachable.malloc hs hn hrun).sound hpos htop hfresh haway hsignals).answered
      obtain ⟨H', F', hM', hcase⟩ := (tbMalloc_merged hfresh haway hminus hM hrun).merged
      rw [begun_of_ne (hM'.arranged.ne_zero hM'.freep_mem)]
      rcases hcase with ⟨rfl, hkept⟩ | ⟨h, hh, rfl, -, hkept⟩
      · exact ⟨H', F', hM', fun k m => (hkept k m).trans (hL k m)⟩
      · obtain ⟨hshift, -⟩ := hM'.shift_eq hbelow hanswered hh
        rw [hshift, if_neg (by omega)]
        exact ⟨H', F', hM', hL.cons hkept⟩
  | @free s s' live p nbytes hs hlive hrun ih =>
      obtain ⟨H, F, hM, hL⟩ := ih
      have hsound := hs.sound hpos htop hfresh haway hsignals
      obtain ⟨_, _, -, -, howns⟩ := hsound.of_mem hlive
      obtain ⟨h, rfl, hend, -⟩ := howns _ hlive
      have hne : s.freep ≠ 0 := fun hzero => by
        rw [(hsound.unbegun hzero).1] at hlive
        exact absurd hlive List.not_mem_nil
      rw [begun_of_ne hne] at hM hL
      obtain ⟨hh, hhF, -⟩ := (hL h _).mpr ⟨_, hlive, rfl, rfl⟩
      obtain ⟨t, H', F', hfree, -, hM', hkept⟩ := tbFree_merged hM hh hhF
      have hshift : shift h 1 = h + 16 := by
        unfold shift
        omega
      rw [hshift] at hfree
      cases hrun.unique hfree
      rw [begun_of_ne (hM'.arranged.ne_zero hM'.freep_mem)]
      exact ⟨H', F', hM', hL.erase hsound.nodup hlive hkept⟩
  | @write s live p nbytes x hs hlive hx hx' byte ih =>
      obtain ⟨H, F, hM, hL⟩ := ih
      have hsound := hs.sound hpos htop hfresh haway hsignals
      obtain ⟨_, _, -, -, howns⟩ := hsound.of_mem hlive
      obtain ⟨h, rfl, hend, -⟩ := howns _ hlive
      have hne : s.freep ≠ 0 := fun hzero => by
        rw [(hsound.unbegun hzero).1] at hlive
        exact absurd hlive List.not_mem_nil
      rw [begun_of_ne hne] at hM hL
      have houtside (k : Nat) (hk : k ∈ H ∨ k = base) :=
        outside_headers hM.arranged (hL.owns hend (by omega) hlive) hx hx' hk
      have hM' := hM.update houtside byte
      rw [begun_of_ne (hM'.arranged.ne_zero hM'.freep_mem)]
      exact ⟨H, F, hM', fun k m => ((arranged_update hM.arranged houtside).2 k m).trans (hL k m)⟩
  | @other s live x hs hx hx' byte ih =>
      obtain ⟨H, F, hM, hL⟩ := ih
      by_cases hzero : s.freep = 0
      · obtain ⟨rfl, hnone⟩ := (hs.sound hpos htop hfresh haway hsignals).unbegun hzero
        exact ⟨∅, {base}, merged_begun hpos htop hzero hnone⟩
      · rw [begun_of_ne hzero] at hM hL
        have houtside (k : Nat) (hk : k ∈ H ∨ k = base) : x < k ∨ k + 16 ≤ x := by
          rcases hk with hk | rfl
          · by_contra hinside
            have hsize := hM.arranged.size_pos hk
            exact hx (hM.arranged.granted hk (by omega) (by omega))
          · exact hx'
        have hM' := hM.update houtside byte
        rw [begun_of_ne (hM'.arranged.ne_zero hM'.freep_mem)]
        exact ⟨H, F, hM', fun k m => ((arranged_update hM.arranged houtside).2 k m).trans (hL k m)⟩

end Runs

/-! ## Runs of free memory -/

/-- The byte at `x` was granted and is in no live block, header included. -/
def FreeByte (s : State) (live : List (Nat × Nat)) (x : Nat) : Prop :=
  Granted s.calls x ∧ ∀ p nbytes, (p, nbytes) ∈ live → ¬ (p - 16 ≤ x ∧ x < p + room nbytes)

section FreeMemory

variable {base h n p nbytes : Nat} {kernel : Kernel} {s s' : State} {H F : Finset Nat}
  {live : List (Nat × Nat)}

/-- The free blocks cut up the free memory. -/
theorem Merged.freeTiling (hM : Merged base s H F) (hL : LiveBlocks s H F live)
    (hlive : ∀ block ∈ live, 16 ≤ block.1) :
    Tiling (FreeByte s live) (F.erase base) fun h => 16 * s.size h := by
  have hI := hM.arranged
  have hsub (h : Nat) (hh : h ∈ F.erase base) : h ∈ H :=
    hI.sub h (Finset.mem_of_mem_erase hh) (Finset.ne_of_mem_erase hh)
  refine hI.tiling.of_subset hsub fun x => ⟨?_, ?_⟩
  · rintro ⟨hgranted, hout⟩
    obtain ⟨h, hh, hhx, hxh⟩ := (hI.tiling.cover x).mp hgranted
    have hbase : h ≠ base := fun heq => hI.base_notMem (heq ▸ hh)
    by_cases hhF : h ∈ F
    · exact ⟨h, Finset.mem_erase.mpr ⟨hbase, hhF⟩, hhx, hxh⟩
    · -- a block that is not free is a live one
      obtain ⟨⟨p, m⟩, hblock, hstart, hsize⟩ := (hL h _).mp ⟨hh, hhF, rfl⟩
      have hp : p = h + 16 := hstart
      have hm : nunits m = s.size h := hsize
      have hin := hout p m hblock
      unfold room at hin
      omega
  · rintro ⟨h, hh, hhx, hxh⟩
    refine ⟨hI.granted (hsub h hh) hhx hxh, fun p m hblock hin => ?_⟩
    have hp : 16 ≤ p := hlive _ hblock
    obtain ⟨hk, hkF, hsize⟩ := (hL (p - 16) (nunits m)).mpr ⟨_, hblock, by omega, rfl⟩
    have hpos := hI.size_pos hk
    have hend : x < p - 16 + 16 * s.size (p - 16) := by
      unfold room at hin
      omega
    have heq := hI.tiling.eq_of_mem (hsub h hh) hk hhx hxh hin.1 hend
    exact hkF (heq ▸ Finset.mem_of_mem_erase hh)

theorem Merged.separated (hM : Merged base s H F) :
    Separated (F.erase base) fun h => 16 * s.size h := by
  intro h hh hend
  exact hM.coalesced h (Finset.mem_of_mem_erase hh) (Finset.ne_of_mem_erase hh)
    (Finset.mem_of_mem_erase hend)

/-- The pointers to live blocks are behind headers. -/
theorem Sound.le_of_mem (hs : Sound base kernel s live) {block : Nat × Nat}
    (hblock : block ∈ live) : 16 ≤ block.1 := by
  obtain ⟨_, _, -, -, howns⟩ := hs.of_mem hblock
  obtain ⟨h, hp, -⟩ := howns _ hblock
  omega

/-- In every reachable state the maximal runs of free memory are the blocks of the ring. -/
theorem freeRun_iff (hpos : 0 < base) (htop : base + 16 ≤ 2 ^ 64) (hfresh : Fresh base kernel)
    (haway : EndsAway base kernel) (hbelow : EndsBelow kernel)
    (hminus : ∀ calls n v, kernel calls n = .failed v → v = 2 ^ 64 - 1)
    (hs : Reachable base kernel s live) :
    IsRun (FreeByte s live) h n ↔ h ≠ base ∧ InRing s h ∧ n = 16 * s.size h := by
  have hsignals : Signals base kernel := fun calls n v _ hfail => Or.inl (hminus calls n v hfail)
  have hsound := hs.sound hpos htop hfresh haway hsignals
  by_cases hzero : s.freep = 0
  · -- before the first call there is neither a ring nor memory
    refine iff_of_false (fun hrun => ?_) fun hring => hring.2.1.1 hzero
    exact (hsound.unbegun hzero).2 h (hrun.stretch h (Nat.le_refl h) (by have := hrun.pos; omega)).1
  · obtain ⟨H, F, hM, hL⟩ := hs.merged hpos htop hfresh haway hbelow hminus
    rw [begun_of_ne hzero] at hM hL
    have hT := hM.freeTiling hL fun block hblock => hsound.le_of_mem hblock
    rw [hT.isRun_iff hM.separated, Finset.mem_erase, inRing_iff hM.arranged hM.freep_mem, and_assoc]

/-! ## Asking for memory -/

/-- On the way around the ring from `p` to the header `freep` the search comes to `b`. -/
def Ahead (s : State) (p b : Nat) : Prop :=
  b = p ∨ p ≠ s.freep ∧ (Between p b s.freep ∨ b = s.freep)

/-- A step of the search does not pass `b` by. -/
theorem Ahead.step (hM : Merged base s H F) (hp : p ∈ F) {b : Nat} (hb : b ∈ F)
    (h : Ahead s p b) (hne : b ≠ p) : p ≠ s.freep ∧ Ahead s (s.ptr p) b := by
  obtain ⟨hend, hrest⟩ := h.resolve_left hne
  have hnot := (hM.arranged.ring p hp).2 b hb
  refine ⟨hend, ?_⟩
  by_cases hbp : b = s.ptr p
  · exact Or.inl hbp
  refine Or.inr ⟨fun hlast => ?_, ?_⟩
  · rcases hrest with hbetween | hlastb
    · rw [← hlast] at hbetween
      exact hnot hbetween
    · exact hbp (hlastb.trans hlast.symm)
  · refine hrest.imp_left fun hbetween => ?_
    rcases hbetween.cut (s.ptr p) with heq | hleft | hright
    · exact absurd heq hbp
    · exact absurd hleft hnot
    · exact hright

/-- Behind `freep` all headers are ahead. -/
theorem ahead_of_mem (hM : Merged base s H F) {b : Nat} (hb : b ∈ F) :
    Ahead s (s.ptr s.freep) b := by
  have hnot := (hM.arranged.ring s.freep hM.freep_mem).2 b hb
  by_cases hbp : b = s.ptr s.freep
  · exact Or.inl hbp
  refine Or.inr ⟨fun hself => hbp ?_, ?_⟩
  · exact (hM.arranged.ring.eq_of_next_eq_self hM.freep_mem hself hb).trans hself.symm
  · unfold Between at hnot ⊢
    omega

/-- With a block ahead that is large enough the search ends without a call of `tb_sbrk`. -/
theorem search_in_place {fuel prevp b : Nat} (hpos : 0 < n) (hM : Merged base s H F)
    (hprevp : prevp ∈ F) (hb : b ∈ F) (hn : n ≤ s.size b) (hahead : Ahead s (s.ptr prevp) b)
    (hrun : search base kernel n fuel prevp (s.ptr prevp) s = .ok (p, s')) :
    s'.calls = s.calls := by
  induction fuel generalizing prevp with
  | zero => cases hrun
  | succ fuel ih =>
      have hpF := hM.arranged.ptr_mem hprevp
      have hph := hM.arranged.isHeader_of_mem hpF
      unfold search at hrun
      rw [bind_eq_ok (getSize_eq hph)] at hrun
      by_cases hfits : s.size (s.ptr prevp) ≥ n
      · rw [if_pos hfits] at hrun
        obtain ⟨t, H', F', h, hcarve, hcalls, -⟩ := carve_cuts hM hprevp hpos hfits
        rw [hcarve] at hrun
        cases hrun
        exact hcalls
      · have hne : b ≠ s.ptr prevp := fun heq => hfits (heq ▸ hn)
        obtain ⟨hend, hahead'⟩ := hahead.step hM hpF hb hne
        rw [if_neg hfits, bind_eq_ok (a := s.freep) (p := getFreep) rfl, if_neg hend,
          bind_eq_ok (getPtr_eq hph)] at hrun
        exact ih hpF hahead' hrun

/-- From every reachable state `tb_malloc` returns, and it does so without a call of `tb_sbrk`
exactly when there is a run of free memory for the block and its header. -/
theorem tbMalloc_sbrk_iff (hpos : 0 < base) (htop : base + 16 ≤ 2 ^ 64)
    (hfresh : Fresh base kernel) (haway : EndsAway base kernel) (hbelow : EndsBelow kernel)
    (hminus : ∀ calls n v, kernel calls n = .failed v → v = 2 ^ 64 - 1)
    (hs : Reachable base kernel s live) (nbytes : Nat) :
    ∃ p s', Settles (fun fuel => tbMalloc base kernel fuel nbytes) s (.ok (p, s')) ∧
      (s'.calls = s.calls ↔ ∃ a, Stretch (FreeByte s live) a (16 * nunits nbytes)) := by
  have hsignals : Signals base kernel := fun calls n v _ hfail => Or.inl (hminus calls n v hfail)
  have hsound := hs.sound hpos htop hfresh haway hsignals
  have hcalls : (begun base s).calls = s.calls := begun_calls
  obtain ⟨H, F, hM, hL⟩ := hs.merged hpos htop hfresh haway hbelow hminus
  have hT := hM.freeTiling hL fun block hblock => hsound.le_of_mem hblock
  have hfree : FreeByte (begun base s) live = FreeByte s live := by
    unfold FreeByte
    rw [hcalls]
  rw [hfree] at hT
  obtain ⟨r, hsettles, hr⟩ := tbMalloc_settles hfresh haway hsignals hM.arranged hM.freep_mem
    hsound.answered nbytes
  obtain ⟨p, s', rfl⟩ : ∃ p s', r = .ok (p, s') := by
    cases hr with
    | found => exact ⟨_, _, rfl⟩
    | refused => exact ⟨_, _, rfl⟩
    | fault _ hfail hv => exact absurd (hminus _ _ _ hfail) hv
  refine ⟨p, s', hsettles, fun hsame => ?_, ?_⟩
  · obtain ⟨k, hk, hn⟩ :=
      (tbMalloc_merged hfresh haway hminus hM hsettles).roomy (hsame.trans hcalls.symm)
    have hbase : k ≠ base := fun heq => by
      rw [heq, hM.arranged.size_base] at hn
      exact absurd hn (Nat.not_le.mpr (Nat.succ_pos _))
    have hblock := hT.stretch (Finset.mem_erase.mpr ⟨hbase, hk⟩)
    exact ⟨k, fun x hx hx' => hblock x hx (by omega)⟩
  · rintro ⟨a, hrun⟩
    obtain ⟨h, hh, ha, hend⟩ := hT.exists_of_stretch hM.separated
      (Nat.mul_pos (by omega) (Nat.succ_pos _)) hrun
    obtain ⟨fuel, hsearch⟩ := exists_search hM hsettles
    have hhF := Finset.mem_of_mem_erase hh
    rw [← hcalls]
    exact search_in_place (Nat.succ_pos _) hM hM.freep_mem hhF (by omega) (ahead_of_mem hM hhF)
      hsearch

/-! ## A kernel that grants memory once -/

theorem grantsOnce_endsBelow : EndsBelow grantsOnce := by
  intro calls n a h
  obtain ⟨-, hn, rfl⟩ := grantsOnce_granted h
  omega

/-- After a first request of 100 bytes there is a live block at the end of the memory. -/
theorem exists_first : ∃ s, Reachable 4096 grantsOnce s [(130960, 100)] := by
  have hrun : (tbMalloc 4096 grantsOnce 9 100 unused).map Prod.fst = .ok 130960 := by
    decide +kernel
  cases hcall : tbMalloc 4096 grantsOnce 9 100 unused with
  | error e =>
      rw [hcall] at hrun
      cases hrun
  | ok r =>
      rw [hcall] at hrun
      have hp : r.1 = 130960 := Except.ok.inj hrun
      have hsettles := StableAt.settles (fun k => tbMalloc_stableAt k _)
        (fun hout : tbMalloc 4096 grantsOnce 9 100 unused = _ => by
          rw [hcall] at hout
          cases hout)
      rw [hcall, show r = (130960, r.2) from Prod.ext hp rfl] at hsettles
      exact ⟨r.2, .malloc (.start fun _ => 0) (by decide) hsettles⟩

/-- The memory before the live block. -/
theorem freeRun_iff_sample : ∃ s, Reachable 4096 grantsOnce s [(130960, 100)] ∧
    (IsRun (FreeByte s [(130960, 100)]) 65536 65408 ↔
      65536 ≠ 4096 ∧ InRing s 65536 ∧ 65408 = 16 * s.size 65536) := by
  obtain ⟨s, hs⟩ := exists_first
  exact ⟨s, hs, freeRun_iff (by decide) (by decide) grantsOnce_fresh grantsOnce_endsAway
    grantsOnce_endsBelow (fun _ _ _ => grantsOnce_failed) hs⟩

/-- A second request of 100 bytes. -/
theorem tbMalloc_sbrk_iff_sample : ∃ s p s', Reachable 4096 grantsOnce s [(130960, 100)] ∧
    Settles (fun fuel => tbMalloc 4096 grantsOnce fuel 100) s (.ok (p, s')) ∧
      (s'.calls = s.calls ↔ ∃ a, Stretch (FreeByte s [(130960, 100)]) a (16 * nunits 100)) := by
  obtain ⟨s, hs⟩ := exists_first
  obtain ⟨p, s', hcall⟩ := tbMalloc_sbrk_iff (by decide) (by decide) grantsOnce_fresh
    grantsOnce_endsAway grantsOnce_endsBelow (fun _ _ _ => grantsOnce_failed) hs 100
  exact ⟨s, p, s', hs, hcall⟩

end FreeMemory

end Heap

end ParchTestbench
