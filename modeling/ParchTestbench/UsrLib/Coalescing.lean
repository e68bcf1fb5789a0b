import ParchTestbench.Machine.MaximalRun
import ParchTestbench.UsrLib.HeapMalloc

/-!
# The C user library: free neighbours become one block

`tb_free` joins the block that it is given with the free block behind it and with the one before
it.  So between two calls no free block begins where another one ends, and this is kept when
`tb_malloc` takes a block and when the kernel grants new memory.

Main results:

- Theorem `FreeList.eq_of_end`: only the header before a block in the ring can end at it.
- Theorem `tbFree_merged`: after `tb_free` no free block begins where another one ends.
- Theorem `search_merged`: the same after the loop of `tb_malloc`.
-/

namespace ParchTestbench

namespace Heap

open Program

/-- No free block begins where another free block ends. -/
def Coalesced (base : Nat) (F : Finset Nat) (size : Nat → Nat) : Prop :=
  ∀ h ∈ F, h ≠ base → h + 16 * size h ∉ F

/-- The same but for the header `p`, which may end at `b`. -/
def CoalescedBut (base p b : Nat) (F : Finset Nat) (size : Nat → Nat) : Prop :=
  ∀ h ∈ F, h ≠ base → h + 16 * size h ∈ F → h = p ∧ h + 16 * size h = b

/-! ## The ring -/

namespace FreeList

variable {base b k p : Nat} {G : Nat → Prop} {H F : Finset Nat} {ptr size : Nat → Nat}

/-- A free block that ends at `b` is the one behind which `b` belongs. -/
theorem eq_of_end (hI : FreeList base G H F ptr size) (hp : p ∈ F) (hbetween : Between p b (ptr p))
    (hk : k ∈ F) (hbase : k ≠ base) (hend : k + 16 * size k = b) : k = p := by
  by_contra hne
  have hkH := hI.sub k hk hbase
  have hpos := hI.size_pos hkH
  -- the header `p` is not inside of the block that ends at `b`
  have hout : p < k ∨ b ≤ p := by
    rcases hI.mem_or_eq hp with hpH | rfl
    · rcases Nat.lt_or_gt_of_ne hne with hlt | hlt
      · have hapart := hI.tiling.apart k hkH p hpH hlt
        omega
      · exact Or.inl hlt
    · have hapart := hI.base_apart hkH
      omega
  have hbp := hbetween.ne_left
  refine (hI.ring p hp).2 k hk ?_
  unfold Between at hbetween ⊢
  omega

/-- A free block that begins at the end of `b` is the one before which `b` belongs. -/
theorem eq_of_start (hI : FreeList base G H F ptr size) (hb : b ∈ H) (hp : p ∈ F)
    (hbetween : Between p b (ptr p)) (hk : k ∈ F) (hend : b + 16 * size b = k) : k = ptr p := by
  by_contra hne
  have hpos := hI.size_pos hb
  have hkbase : k ≠ base := hend ▸ (hI.block_end hb).2.2
  have hqF := hI.ptr_mem hp
  have hout : ptr p ≤ b ∨ k < ptr p := by
    rcases hI.mem_or_eq hqF with hqH | hqbase
    · rcases Nat.lt_or_ge b (ptr p) with hlt | hge
      · have hapart := hI.tiling.apart b hb (ptr p) hqH hlt
        omega
      · exact Or.inl hge
    · have hapart := hI.base_apart hb
      omega
  have hpb := hbetween.ne_left
  have hqb := hbetween.ne_right
  refine (hI.ring p hp).2 k hk ?_
  unfold Between at hbetween ⊢
  omega

end FreeList

/-! ## The steps of `tb_free` -/

section Steps

variable {base b h p n : Nat} {G : Nat → Prop} {H F : Finset Nat} {ptr size size' : Nat → Nat}

theorem Coalesced.congr (hC : Coalesced base F size) (hsize : ∀ h ∈ F, size' h = size h) :
    Coalesced base F size' := by
  intro h hh hbase
  rw [hsize h hh]
  exact hC h hh hbase

theorem CoalescedBut.congr (hC : CoalescedBut base p b F size)
    (hsize : ∀ h ∈ F, size' h = size h) : CoalescedBut base p b F size' := by
  intro h hh hbase
  rw [hsize h hh]
  exact hC h hh hbase

/-- A block that has been linked in without a join. -/
theorem Coalesced.link (hC : Coalesced base F size) (hI : FreeList base G H F ptr size)
    (hb : b ∈ H) (hp : p ∈ F) (hbetween : Between p b (ptr p))
    (hend : b + 16 * size b ≠ ptr p) : CoalescedBut base p b (insert b F) size := by
  intro h hh hbase hmem
  have hpos := hI.size_pos hb
  rcases Finset.mem_insert.mp hh with rfl | hhF <;>
    rcases Finset.mem_insert.mp hmem with heq | hmemF
  · omega
  · exact absurd (hI.eq_of_start hb hp hbetween hmemF rfl) hend
  · exact ⟨hI.eq_of_end hp hbetween hhF hbase heq, heq⟩
  · exact absurd hmemF (hC h hhF hbase)

/-- A block that has been linked in and has taken over the next one. -/
theorem Coalesced.link_join (hC : Coalesced base F size) (hI : FreeList base G H F ptr size)
    (hb : b ∈ H) (hbF : b ∉ F) (hp : p ∈ F) (hbetween : Between p b (ptr p))
    (hend : b + 16 * size b = ptr p) :
    CoalescedBut base p b ((insert b F).erase (ptr p))
      (Function.update size b (size b + size (ptr p))) := by
  intro h hh hbase hmem
  have hpos := hI.size_pos hb
  have hqF := hI.ptr_mem hp
  have hqbase : ptr p ≠ base := hend ▸ (hI.block_end hb).2.2
  have hqpos := hI.size_pos (hI.sub _ hqF hqbase)
  obtain ⟨-, hmem⟩ := Finset.mem_erase.mp hmem
  obtain ⟨-, hh⟩ := Finset.mem_erase.mp hh
  by_cases hhb : h = b
  · -- the block ends where the next one ended
    subst hhb
    rw [Function.update_self] at hmem
    have hsame : h + 16 * (size h + size (ptr p)) = ptr p + 16 * size (ptr p) := by omega
    rw [hsame] at hmem
    rcases Finset.mem_insert.mp hmem with heq | hmemF
    · omega
    · exact absurd hmemF (hC _ hqF hqbase)
  · have hhF := (Finset.mem_insert.mp hh).resolve_left hhb
    rw [Function.update_of_ne hhb] at hmem ⊢
    rcases Finset.mem_insert.mp hmem with heq | hmemF
    · exact ⟨hI.eq_of_end hp hbetween hhF hbase heq, heq⟩
    · exact absurd hmemF (hC h hhF hbase)

/-- The header `p` takes over `b`, which begins at its end. -/
theorem CoalescedBut.join (hC : CoalescedBut base p b F size) (hb : b ∈ F) (hbbase : b ≠ base)
    (hbp : b ≠ p) (hend : p + 16 * size p = b) :
    Coalesced base (F.erase b) (Function.update size p (size p + size b)) := by
  intro h hh hbase hmem
  obtain ⟨-, hhF⟩ := Finset.mem_erase.mp hh
  obtain ⟨hne, hmemF⟩ := Finset.mem_erase.mp hmem
  by_cases hhp : h = p
  · subst hhp
    rw [Function.update_self] at hmemF
    have hsame : h + 16 * (size h + size b) = b + 16 * size b := by omega
    rw [hsame] at hmemF
    exact hbp (hC b hb hbbase hmemF).1
  · rw [Function.update_of_ne hhp] at hmemF
    exact hhp (hC h hhF hbase hmemF).1

/-- The header `p` does not end at `b`. -/
theorem CoalescedBut.coalesced (hC : CoalescedBut base p b F size)
    (hend : p + 16 * size p ≠ b) : Coalesced base F size := by
  intro h hh hbase hmem
  obtain ⟨rfl, heq⟩ := hC h hh hbase hmem
  exact hend heq

/-- A free block that is taken. -/
theorem Coalesced.erase (hC : Coalesced base F size) (k : Nat) : Coalesced base (F.erase k) size :=
  fun h hh hbase hmem => hC h (Finset.mem_of_mem_erase hh) hbase (Finset.mem_of_mem_erase hmem)

end Steps

/-! ## The heap between two calls -/

/-- The headers are arranged, and free neighbours are one block. -/
structure Merged (base : Nat) (s : State) (H F : Finset Nat) : Prop where
  arranged : Arranged base s H F
  freep_mem : s.freep ∈ F
  coalesced : Coalesced base F s.size

section Free

variable {base b p : Nat} {s : State} {H F : Finset Nat}

/-- After the upper branch of `tb_free` only `p` may end at a free block. -/
theorem mergeUpper_merged (hI : Arranged base s H F) (hC : Coalesced base F s.size) (hb : b ∈ H)
    (hbF : b ∉ F) (hp : p ∈ F) (hbetween : Between p b (s.ptr p)) :
    ∃ s' H' F', mergeUpper base b p s = .ok ((), s') ∧ s'.calls = s.calls ∧
      FreeList base (Granted s.calls) H' F' (Function.update s'.ptr p b) s'.size ∧
      p ∈ F' ∧ b ∈ F' ∧ CoalescedBut base p b F' s'.size ∧
      ∀ h n, Taken s' H' F' h n ↔ Taken s H (insert b F) h n := by
  have hqF := hI.ptr_mem hp
  have hq := hI.mem_or_eq hqF
  have hqtop := hI.header_end hq
  have hfree : ∀ k ∈ insert b F, k ∈ H ∨ k = base := fun k hk => by
    rcases Finset.mem_insert.mp hk with rfl | hkF
    · exact Or.inl hb
    · exact hI.mem_or_eq hkF
  by_cases hend : shift b (s.size b) = s.ptr p
  · have hend' := (hI.shift_eq_iff (Or.inl hb) hq).mp hend
    have hjoin := hI.link_join hb hp hbetween hend'
    have hqbase : s.ptr p ≠ base := hend' ▸ (hI.block_end hb).2.2
    have hsum : s.size b + s.size (s.ptr p) < 2 ^ 64 := by
      have hbend := hI.block_end hb
      have hqend := hI.block_end (hI.sub _ hqF hqbase)
      omega
    have hnext := hI.header_end (hI.mem_or_eq (hI.ptr_mem hqF))
    have hread (k : Nat) (hk : k ∈ H ∨ k = base) :=
      fields_setSize_setPtr (s := s) (v := s.ptr (s.ptr p)) (hI.sameOrApart hk (Or.inl hb)) hsum
        (by omega)
    refine ⟨_, _, _, mergeUpper_join hI hb hp hend hsum, rfl, hjoin.of_fields fun k hk => ?_,
      Finset.mem_erase.mpr ⟨(hI.ptr_ne_self hp hqbase).symm, Finset.mem_insert_of_mem hp⟩,
      Finset.mem_erase.mpr ⟨hbetween.ne_right, Finset.mem_insert_self b F⟩,
      (hC.link_join hI hb hbF hp hbetween hend').congr fun k hk =>
        (hread k (hfree k (Finset.mem_of_mem_erase hk))).2, fun h n => ?_⟩
    · obtain ⟨hptr, hsize⟩ := hread k (hk.imp_left Finset.mem_of_mem_erase)
      exact ⟨update_congr hptr, hsize⟩
    · refine taken_congr (mem_erase_iff (Finset.mem_insert_of_mem hqF)) fun hhH hhF => ?_
      have hhb : h ≠ b := fun heq => hhF (heq ▸ Finset.mem_insert_self b F)
      rw [(hread h (Or.inl hhH)).2, Function.update_of_ne hhb]
  · have hend' := mt (hI.shift_eq_iff (Or.inl hb) hq).mpr hend
    have hread (k : Nat) (hk : k ∈ H ∨ k = base) :=
      fields_setPtr (s := s) (v := s.ptr p) (hI.sameOrApart hk (Or.inl hb)) (by omega)
    exact ⟨_, _, _, mergeUpper_point hI hb hp hend, rfl,
      (hI.link hb hp hbetween).of_fields fun k hk =>
        ⟨update_congr (hread k hk).1, (hread k hk).2⟩,
      Finset.mem_insert_of_mem hp, Finset.mem_insert_self b F,
      (hC.link hI hb hp hbetween hend').congr fun k hk => (hread k (hfree k hk)).2,
      fun h n => taken_congr Iff.rfl fun hhH _ => (hread h (Or.inl hhH)).2⟩

/-- After the lower branch no free block begins where another one ends. -/
theorem mergeLower_merged
    (hI : FreeList base (Granted s.calls) H F (Function.update s.ptr p b) s.size)
    (hC : CoalescedBut base p b F s.size) (hb : b ∈ F) (hbase : b ≠ base) (hp : p ∈ F)
    (hbp : b ≠ p) :
    ∃ s' H' F', mergeLower base b p s = .ok ((), s') ∧ s'.calls = s.calls ∧
      Arranged base s' H' F' ∧ p ∈ F' ∧ Coalesced base F' s'.size ∧
      ∀ h n, Taken s' H' F' h n ↔ Taken s H F h n := by
  have hbH : b ∈ H := hI.sub b hb hbase
  have hpH := hI.mem_or_eq hp
  have hbtop := hI.header_end (Or.inl hbH)
  have hnext : Function.update s.ptr p b p = b := Function.update_self ..
  by_cases hend : shift p (s.size p) = b
  · have hend' := (hI.shift_eq_iff hpH (Or.inl hbH)).mp hend
    have hpbase : p ≠ base := hI.ne_base_of_end hend' hbase
    have hjoin := hI.join hp (hnext.trans_ne hbase) (hend'.trans hnext.symm)
    rw [hnext, Function.update_of_ne hbp] at hjoin
    have hsum : s.size p + s.size b < 2 ^ 64 := by
      have hbend := hI.block_end hbH
      have hpend := hI.block_end (hI.sub p hp hpbase)
      omega
    have hnextb := hI.header_end (hI.mem_or_eq (hI.ptr_mem hb))
    rw [Function.update_of_ne hbp] at hnextb
    have hread (k : Nat) (hk : k ∈ H ∨ k = base) :=
      fields_setSize_setPtr (s := s) (v := s.ptr b) (hI.sameOrApart hk hpH) hsum (by omega)
    refine ⟨_, _, _, mergeLower_join (hI.isHeader (Or.inl hbH)) (hI.isHeader hpH)
        (hI.sameOrApart (Or.inl hbH) hpH) hend hsum, rfl, hjoin.of_fields fun k hk => ?_,
      Finset.mem_erase.mpr ⟨hbp.symm, hp⟩,
      (hC.join hb hbase hbp hend').congr fun k hk =>
        (hread k (hI.mem_or_eq (Finset.mem_of_mem_erase hk))).2, fun h n => ?_⟩
    · rw [Function.update_idem]
      exact hread k (hk.imp_left Finset.mem_of_mem_erase)
    · refine taken_congr (mem_erase_iff hb) fun hhH hhF => ?_
      have hhp : h ≠ p := fun heq => hhF (heq ▸ hp)
      rw [(hread h (Or.inl hhH)).2, Function.update_of_ne hhp]
  · have hend' := mt (hI.shift_eq_iff hpH (Or.inl hbH)).mpr hend
    have hread (k : Nat) (hk : k ∈ H ∨ k = base) :=
      fields_setPtr (s := s) (v := b) (hI.sameOrApart hk hpH) (by omega)
    exact ⟨_, _, _, mergeLower_point (hI.isHeader hpH) hend, rfl, hI.of_fields hread, hp,
      (hC.coalesced hend').congr fun k hk => (hread k (hI.mem_or_eq hk)).2,
      fun h n => taken_congr Iff.rfl fun hhH _ => (hread h (Or.inl hhH)).2⟩

/-- `tb_free` on a taken block returns with free neighbours merged; the taken blocks are those
that were taken, but for this one. -/
theorem tbFree_merged (hM : Merged base s H F) (hb : b ∈ H) (hbF : b ∉ F) :
    ∃ s' H' F', Settles (fun fuel => tbFree base fuel (shift b 1)) s (.ok ((), s')) ∧
      s'.calls = s.calls ∧ Merged base s' H' F' ∧
      ∀ h n, Taken s' H' F' h n ↔ Taken s H (insert b F) h n := by
  have hI := hM.arranged
  have hbtop := hI.header_end (Or.inl hb)
  have hbp : (shift b 1 + (2 ^ 64 - 16)) % 2 ^ 64 = b := by
    unfold shift
    omega
  have hbase : b ≠ base := fun heq => hI.base_notMem (heq ▸ hb)
  obtain ⟨p, hp, hbetween, hplace⟩ := findPlace_settles hI hbF hM.freep_mem
  obtain ⟨t, H', F', hupper, hcalls, hI', hp', hb', hC', hkept⟩ :=
    mergeUpper_merged hI hM.coalesced hb hbF hp hbetween
  rw [← hcalls] at hI'
  obtain ⟨u, H'', F'', hlower, hcalls', hI'', hp'', hC'', hkept'⟩ :=
    mergeLower_merged hI' hC' hb' hbase hp' hbetween.ne_left
  refine ⟨{ u with freep := p }, H'', F'', ?_, hcalls'.trans hcalls, ⟨hI'', hp'', hC''⟩,
    fun h n => (hkept' h n).trans (hkept h n)⟩
  unfold tbFree
  rw [hbp]
  exact .bind_of_ok rfl (.bind hplace (.bind_of_ok hupper (.bind_of_ok hlower (.of_eq rfl))))

end Free

/-! ## The steps of `tb_malloc` -/

section Carve

variable {base prevp n : Nat} {s : State} {H F : Finset Nat}

/-- Behind `prevp` a block of `n` units is taken, and no other one. -/
def Cuts (base : Nat) (s : State) (H F : Finset Nat) (n prevp : Nat) : Prop :=
  ∃ s' H' F' h, carve base n prevp (s.ptr prevp) s = .ok (shift h 1, s') ∧
    s'.calls = s.calls ∧ Merged base s' H' F' ∧ h ∈ H' ∧ (∀ m, ¬ Taken s H F h m) ∧
    ∀ k m, Taken s' H' F' k m ↔ Taken s H F k m ∨ k = h ∧ m = n

/-- A block of the size asked for is taken whole. -/
theorem cuts_whole (hM : Merged base s H F) (hprevp : prevp ∈ F) (hbase : s.ptr prevp ≠ base)
    (hwhole : s.size (s.ptr prevp) = n) : Cuts base s H F n prevp := by
  have hI := hM.arranged
  have hpF := hI.ptr_mem hprevp
  have hpH : s.ptr prevp ∈ H := hI.sub _ hpF hbase
  have hprev := hI.mem_or_eq hprevp
  have hself : prevp ≠ s.ptr prevp := (hI.ptr_ne_self hprevp hbase).symm
  have hnext := hI.header_end (hI.mem_or_eq (hI.ptr_mem hpF))
  have hread (k : Nat) (hk : k ∈ H ∨ k = base) :=
    fields_setPtr (s := s) (v := s.ptr (s.ptr prevp)) (hI.sameOrApart hk hprev) (by omega)
  refine ⟨_, H, F.erase (s.ptr prevp), s.ptr prevp,
    carve_whole (hI.isHeader (Or.inl hpH)) (hI.isHeader hprev) hwhole, rfl,
    ⟨(hI.unlink hprevp hbase).of_fields hread, Finset.mem_erase.mpr ⟨hself, hprevp⟩,
      (hM.coalesced.erase _).congr fun k hk =>
        (hread k (hI.mem_or_eq (Finset.mem_of_mem_erase hk))).2⟩,
    hpH, fun m htaken => htaken.2.1 hpF, fun k m => ?_⟩
  by_cases hk : k = s.ptr prevp
  · rw [hk]
    constructor
    · rintro ⟨-, -, hsize⟩
      exact Or.inr ⟨rfl, hsize.symm.trans ((hread _ (Or.inl hpH)).2.trans hwhole)⟩
    · rintro (⟨-, hkF, -⟩ | ⟨-, rfl⟩)
      · exact absurd hpF hkF
      · exact ⟨hpH, Finset.notMem_erase _ _, (hread _ (Or.inl hpH)).2.trans hwhole⟩
  · refine Iff.trans (b := Taken s H F k m) (taken_congr (by simp [hk]) fun hkH _ => ?_)
      (or_iff_left fun hnew => hk hnew.1).symm
    exact (hread k (Or.inl hkH)).2

/-- The end of a larger block is taken. -/
theorem cuts_end (hM : Merged base s H F) (hprevp : prevp ∈ F) (hbase : s.ptr prevp ≠ base)
    (hpos : 0 < n) (hn : n < s.size (s.ptr prevp)) : Cuts base s H F n prevp := by
  have hI := hM.arranged
  have hpF := hI.ptr_mem hprevp
  have hpH : s.ptr prevp ∈ H := hI.sub _ hpF hbase
  have hend := hI.block_end hpH
  have hsplit := hI.split hpH hpos hn
  obtain ⟨q, hq⟩ : ∃ q, q = s.ptr prevp + 16 * (s.size (s.ptr prevp) - n) := ⟨_, rfl⟩
  rw [← hq] at hsplit
  have hqH : q ∈ insert q H := Finset.mem_insert_self q H
  have hpH' : s.ptr prevp ∈ insert q H := Finset.mem_insert_of_mem hpH
  have hnew : q ∉ H := by
    rw [hq]
    exact hI.tiling.notMem_of_inside hpH (by omega) (by omega)
  have hqF : q ∉ F := fun hmem => by
    rcases hI.mem_or_eq hmem with hqH' | hqbase
    · exact hnew hqH'
    · exact hsplit.base_notMem (hqbase ▸ hqH)
  have hqend := hsplit.header_end (Or.inl hqH)
  have hshift : shift (s.ptr prevp) (s.size (s.ptr prevp) - n) = q := by
    unfold shift
    omega
  have hread (k : Nat) (hk : k ∈ insert q H ∨ k = base) :=
    fields_setSize_setSize (s := s) (v := n) (m := s.size (s.ptr prevp) - n)
      (hsplit.sameOrApart hk (Or.inl hpH')) (hsplit.sameOrApart hk (Or.inl hqH)) (by omega)
      (by omega)
  -- the free block that is left ends at the new one
  have hC : Coalesced base F (Function.update (Function.update s.size (s.ptr prevp)
      (s.size (s.ptr prevp) - n)) q n) := by
    intro h hh hhbase
    have hhq : h ≠ q := fun heq => hqF (heq ▸ hh)
    rw [Function.update_of_ne hhq]
    by_cases hhp : h = s.ptr prevp
    · rw [hhp, Function.update_self, ← hq]
      exact hqF
    · rw [Function.update_of_ne hhp]
      exact hM.coalesced h hh hhbase
  refine ⟨_, insert q H, F, q,
    carve_end (hI.isHeader (Or.inl hpH)) (hsplit.isHeader (Or.inl hqH)) (by omega) (by omega)
      hshift, rfl, ⟨hsplit.of_fields hread, hprevp, hC.congr fun k hk =>
        (hread k ((hI.mem_or_eq hk).imp_left Finset.mem_insert_of_mem)).2⟩,
    hqH, fun m htaken => hnew htaken.1, fun k m => ?_⟩
  by_cases hk : k = q
  · have hsize := (hread q (Or.inl hqH)).2.trans (Function.update_self ..)
    rw [hk]
    constructor
    · rintro ⟨-, -, hm⟩
      exact Or.inr ⟨rfl, hm.symm.trans hsize⟩
    · rintro (⟨hqH', -, -⟩ | ⟨-, rfl⟩)
      · exact absurd hqH' hnew
      · exact ⟨hqH, hqF, hsize⟩
  · refine Iff.trans (b := Taken s H F k m) (taken_congr (by simp [hk]) fun hkH hkF => ?_)
      (or_iff_left fun htaken => hk htaken.1).symm
    have hkp : k ≠ s.ptr prevp := fun heq => hkF (heq ▸ hpF)
    refine (hread k (Or.inl (Finset.mem_insert_of_mem hkH))).2.trans ?_
    rw [Function.update_of_ne hk, Function.update_of_ne hkp]

/-- A block that is large enough is taken, or its end is. -/
theorem carve_cuts (hM : Merged base s H F) (hprevp : prevp ∈ F) (hpos : 0 < n)
    (hn : n ≤ s.size (s.ptr prevp)) : Cuts base s H F n prevp := by
  have hbase : s.ptr prevp ≠ base := by
    intro heq
    rw [heq, hM.arranged.size_base] at hn
    omega
  by_cases hwhole : s.size (s.ptr prevp) = n
  · exact cuts_whole hM hprevp hbase hwhole
  · exact cuts_end hM hprevp hbase hpos (by omega)

end Carve

section Search

variable {base n nu a p prevp fuel : Nat} {kernel : Kernel} {s s' : State} {H F : Finset Nat}

/-- New memory becomes a free block or part of one. -/
theorem morecore_merged (hfresh : Fresh base kernel) (haway : EndsAway base kernel)
    (hM : Merged base s H F) (hgrant : kernel s.calls (coreUnits nu * 16) = .granted a) :
    ∃ s' H' F', Settles (fun fuel => morecore base kernel fuel nu) s (.ok (s'.freep, s')) ∧
      s'.calls = ⟨coreUnits nu * 16, .granted a⟩ :: s.calls ∧ Merged base s' H' F' ∧
      ∀ h n, Taken s' H' F' h n ↔ Taken s H F h n := by
  have hI := hM.arranged
  have hunits : 4096 ≤ coreUnits nu := coreUnits_pos
  have hatop := (hfresh _ _ _ hgrant).2.1
  obtain ⟨t, ht⟩ : ∃ t : State,
      t = { s with calls := ⟨coreUnits nu * 16, .granted a⟩ :: s.calls } := ⟨_, rfl⟩
  obtain ⟨haheader, hu, hsame⟩ := arranged_core hfresh haway hI hgrant ht
  obtain ⟨haH, haF⟩ := granted_notMem hfresh hI hgrant
  have hu' : Merged base (t.setSize a (coreUnits nu)) (insert a H) F := by
    refine ⟨hu, ?_, hM.coalesced.congr fun k hk => ?_⟩
    · rw [ht]
      exact hM.freep_mem
    · have hka : k ≠ a := fun heq => haF (heq ▸ hk)
      have hkH := (hI.mem_or_eq hk).imp_left (Finset.mem_insert_of_mem (b := a))
      have hread := (fields_setSize (s := t) (v := coreUnits nu)
        (hu.sameOrApart hkH (Or.inl (Finset.mem_insert_self a H))) (by omega)).2
      rw [hread, Function.update_of_ne hka, ht]
      rfl
  obtain ⟨s', H', F', hfree, hcalls, hM', hkept⟩ :=
    tbFree_merged hu' (Finset.mem_insert_self a H) haF
  refine ⟨s', H', F', ?_, hcalls.trans (by rw [ht]; rfl), hM',
    fun h n => (hkept h n).trans (hsame h n)⟩
  have hminus : (Break.granted a).value ≠ 2 ^ 64 - 1 := by
    show a ≠ 2 ^ 64 - 1
    omega
  unfold morecore
  refine .bind_of_ok (tbSbrk_eq hgrant) ?_
  rw [← ht]
  simp only [if_neg hminus]
  exact .bind_of_ok (setSize_eq haheader) (.bind hfree (.of_eq rfl))

/-- What a search for `n` units from a merged heap leaves when it returns `p`: the heap is merged,
and the one block that is taken in addition is the one at `p`.  Without a call of `tb_sbrk` there
was a free block that is large enough. -/
structure Served (base : Nat) (s : State) (H F : Finset Nat) (n p : Nat) (s' : State) : Prop where
  calls : s.calls <:+ s'.calls
  roomy : s'.calls = s.calls → ∃ k ∈ F, n ≤ s.size k
  merged : ∃ H' F', Merged base s' H' F' ∧
    ((p = 0 ∧ ∀ k m, Taken s' H' F' k m ↔ Taken s H F k m) ∨
      ∃ h ∈ H', p = shift h 1 ∧ (∀ m, ¬ Taken s H F h m) ∧
        ∀ k m, Taken s' H' F' k m ↔ Taken s H F k m ∨ k = h ∧ m = n)

/-- A call more is a longer list of calls. -/
theorem ne_of_cons_suffix {call : Call} {calls calls' : List Call} (h : call :: calls <:+ calls') :
    calls <:+ calls' ∧ calls' ≠ calls := by
  refine ⟨(List.suffix_cons call calls).trans h, fun heq => ?_⟩
  have hlen := h.length_le
  rw [heq, List.length_cons] at hlen
  omega

/-- A search that goes on after a grant is one from the start. -/
theorem Served.of_grant {t : State} {H' F' : Finset Nat} {call : Call}
    (h : Served base t H' F' n p s') (hcalls : t.calls = call :: s.calls)
    (hkept : ∀ k m, Taken t H' F' k m ↔ Taken s H F k m) : Served base s H F n p s' := by
  have hsuffix := h.calls
  rw [hcalls] at hsuffix
  obtain ⟨hle, hne⟩ := ne_of_cons_suffix hsuffix
  refine ⟨hle, fun heq => absurd heq hne, ?_⟩
  obtain ⟨H'', F'', hM, ⟨hp, hsame⟩ | ⟨h, hh, hp, hnew, hsame⟩⟩ := h.merged
  · exact ⟨H'', F'', hM, Or.inl ⟨hp, fun k m => (hsame k m).trans (hkept k m)⟩⟩
  · exact ⟨H'', F'', hM, Or.inr ⟨h, hh, hp, fun m htaken => hnew m ((hkept h m).mpr htaken),
      fun k m => (hsame k m).trans (or_congr_left (hkept k m))⟩⟩

/-- The answer of a failed call changes nothing else. -/
theorem Merged.of_failed (hM : Merged base s H F) (bytes v : Nat) :
    Merged base { s with calls := ⟨bytes, .failed v⟩ :: s.calls } H F := by
  have hsame : Granted (⟨bytes, .failed v⟩ :: s.calls) = Granted s.calls :=
    funext fun x => propext granted_cons_failed
  refine ⟨?_, hM.freep_mem, hM.coalesced⟩
  show FreeList base (Granted (_ :: s.calls)) H F s.ptr s.size
  rw [hsame]
  exact hM.arranged

/-- What the loop of `tb_malloc` leaves when it returns. -/
theorem search_merged (hfresh : Fresh base kernel) (haway : EndsAway base kernel)
    (hminus : ∀ calls n v, kernel calls n = .failed v → v = 2 ^ 64 - 1) (hpos : 0 < n)
    (hM : Merged base s H F) (hprevp : prevp ∈ F)
    (hrun : search base kernel n fuel prevp (s.ptr prevp) s = .ok (p, s')) :
    Served base s H F n p s' := by
  induction fuel generalizing prevp s H F with
  | zero => cases hrun
  | succ fuel ih =>
      have hpF := hM.arranged.ptr_mem hprevp
      have hph := hM.arranged.isHeader_of_mem hpF
      unfold search at hrun
      rw [bind_eq_ok (getSize_eq hph)] at hrun
      by_cases hn : s.size (s.ptr prevp) ≥ n
      · rw [if_pos hn] at hrun
        obtain ⟨t, H', F', h, hcarve, hcalls, hM', hh, hnew, hkept⟩ := carve_cuts hM hprevp hpos hn
        rw [hcarve] at hrun
        cases hrun
        exact ⟨hcalls ▸ List.suffix_refl _, fun _ => ⟨_, hpF, hn⟩, H', F', hM',
          Or.inr ⟨h, hh, rfl, hnew, hkept⟩⟩
      rw [if_neg hn, bind_eq_ok (a := s.freep) (p := getFreep) rfl] at hrun
      by_cases hend : s.ptr prevp = s.freep
      swap
      · rw [if_neg hend, bind_eq_ok (getPtr_eq hph)] at hrun
        exact ih hM hpF hrun
      rw [if_pos hend] at hrun
      cases hanswer : kernel s.calls (coreUnits (n % 2 ^ 32) * 16) with
      | failed v =>
          obtain rfl := hminus _ _ _ hanswer
          rw [bind_eq_ok (morecore_refused fuel hanswer), if_pos rfl] at hrun
          cases hrun
          obtain ⟨hle, hne⟩ := ne_of_cons_suffix (List.suffix_refl
            (⟨coreUnits (n % 2 ^ 32) * 16, .failed (2 ^ 64 - 1)⟩ :: s.calls))
          exact ⟨hle, fun heq => absurd heq hne, H, F, hM.of_failed _ _,
            Or.inl ⟨rfl, fun k m => Iff.rfl⟩⟩
      | granted a =>
          obtain ⟨t, H', F', hcore, hcalls, hM', hkept⟩ := morecore_merged hfresh haway hM hanswer
          obtain ⟨q, u, hq, hrest⟩ := exists_of_bind_eq_ok hrun
          -- with this fuel `morecore` does what it does with more
          have hsame := StableAt.eq_of_settles (fun k => morecore_stableAt k _) hcore
            (fun hout => by
              rw [hq] at hout
              cases hout)
          rw [hq] at hsame
          cases hsame
          have hne := hM'.arranged.header_end (hM'.arranged.mem_or_eq hM'.freep_mem)
          rw [if_neg (by omega), bind_eq_ok (getPtr_eq (hM'.arranged.isHeader_of_mem
            hM'.freep_mem))] at hrest
          exact (ih hM' hM'.freep_mem hrest).of_grant hcalls hkept

end Search

end Heap

end ParchTestbench
