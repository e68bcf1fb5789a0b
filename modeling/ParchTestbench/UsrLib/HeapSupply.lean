import ParchTestbench.UsrLib.HeapFree
import Mathlib.Data.Set.Card

/-!
# The C user library: where `tb_malloc` takes blocks from

The two steps of `tb_malloc` that change the ring of free blocks: a block that is large enough is
taken, whole or its end, and memory that the kernel grants becomes a free block.

Main results:

- Theorem `carve_arranged`: a block that is large enough is taken, or its end is.
- Theorems `morecore_granted`, `morecore_refused` and `morecore_fault`: what `morecore` does
  with the answers of the kernel.
- Theorem `spare_lt`: the kernel can grant memory only so often.
-/

namespace ParchTestbench

namespace Heap

open Program

/-! ## The kernel -/

/-- The kernel grants memory that nothing has yet: not an earlier call and not the program. -/
def Fresh (base : Nat) (kernel : Kernel) : Prop :=
  ∀ calls n a, kernel calls n = .granted a → 0 < a ∧ a + n ≤ 2 ^ 64 ∧
    ∀ x, a ≤ x → x < a + n → ¬ Granted calls x ∧ (x < base ∨ base + 16 ≤ x)

/-- No memory that the kernel grants ends where the header `base` starts. -/
def EndsAway (base : Nat) (kernel : Kernel) : Prop :=
  ∀ calls n a, kernel calls n = .granted a → a + n ≠ base

/-- The calls were answered by the kernel. -/
inductive Answered (kernel : Kernel) : List Call → Prop
  | nil : Answered kernel []
  | cons {calls : List Call} (n : Nat) (h : Answered kernel calls) :
      Answered kernel (⟨n, kernel calls n⟩ :: calls)

/-- A failure other than `(char*)-1` is not a header of the program's. -/
def Signals (base : Nat) (kernel : Kernel) : Prop :=
  ∀ calls n v, Answered kernel calls → kernel calls n = .failed v →
    v = 2 ^ 64 - 1 ∨ ¬ Accessible base calls ((v + 8) % 2 ^ 64)

/-- The calls after some others, all for `n` bytes and all granted. -/
inductive Grown (kernel : Kernel) (n : Nat) (calls : List Call) : List Call → Prop
  | refl : Grown kernel n calls calls
  | step {calls' : List Call} {a : Nat} (h : Grown kernel n calls calls')
      (hgrant : kernel calls' n = .granted a) : Grown kernel n calls (⟨n, .granted a⟩ :: calls')

section Calls

variable {base n a v x : Nat} {kernel : Kernel} {calls calls' : List Call}

@[simp]
theorem granted_cons_granted :
    Granted (⟨n, .granted a⟩ :: calls) x ↔ (a ≤ x ∧ x < a + n) ∨ Granted calls x := by
  simp [Granted, Call.Grants]

@[simp]
theorem granted_cons_failed : Granted (⟨n, .failed v⟩ :: calls) x ↔ Granted calls x := by
  simp [Granted, Call.Grants]

theorem not_granted_nil : ¬ Granted [] x := by
  simp [Granted]

/-- A granted call before others is one of them at the end. -/
theorem Grown.cons_left (hgrant : kernel calls n = .granted a)
    (h : Grown kernel n (⟨n, .granted a⟩ :: calls) calls') : Grown kernel n calls calls' := by
  induction h with
  | refl => exact .step .refl hgrant
  | step _ hnext ih => exact .step ih hnext

theorem Grown.granted (h : Grown kernel n calls calls') (hx : Granted calls x) :
    Granted calls' x := by
  induction h with
  | refl => exact hx
  | step _ _ ih => exact granted_cons_granted.mpr (Or.inr ih)

theorem Answered.of_grown (h : Answered kernel calls)
    (hgrown : Grown kernel n calls calls') : Answered kernel calls' := by
  induction hgrown with
  | refl => exact h
  | step _ hgrant ih =>
      rw [← hgrant]
      exact ih.cons n

/-- Either there was no call, or the first one was granted. -/
theorem Grown.eq_or_granted (h : Grown kernel n calls calls') (hn : 0 < n) :
    calls' = calls ∨ ∃ a, kernel calls n = .granted a ∧ Granted calls' a := by
  induction h with
  | refl => exact Or.inl rfl
  | step _ hgrant ih =>
      rcases ih with rfl | ⟨a, hfirst, hmem⟩
      · exact Or.inr ⟨_, hgrant, granted_cons_granted.mpr (Or.inl ⟨Nat.le_refl _, by omega⟩)⟩
      · exact Or.inr ⟨a, hfirst, granted_cons_granted.mpr (Or.inr hmem)⟩

/-- The calls after others, in front of them. -/
theorem Grown.exists_append (h : Grown kernel n calls calls') :
    ∃ new, calls' = new ++ calls ∧ ∀ call ∈ new, ∃ a, call.answer = .granted a := by
  induction h with
  | refl => exact ⟨[], rfl, fun call hcall => absurd hcall List.not_mem_nil⟩
  | @step calls' a _ _ ih =>
      obtain ⟨new, rfl, hnew⟩ := ih
      refine ⟨⟨n, .granted a⟩ :: new, rfl, fun call hcall => ?_⟩
      rcases List.mem_cons.mp hcall with rfl | hcall
      · exact ⟨a, rfl⟩
      · exact hnew call hcall

/-- How many addresses were not granted. -/
noncomputable def spare (calls : List Call) : Nat :=
  Set.ncard {x | x < 2 ^ 64 ∧ ¬ Granted calls x}

/-- Every grant leaves fewer. -/
theorem spare_lt (hfresh : Fresh base kernel) (hgrant : kernel calls n = .granted a)
    (hn : 0 < n) : spare (⟨n, .granted a⟩ :: calls) < spare calls := by
  obtain ⟨-, htop, hnew⟩ := hfresh calls n a hgrant
  refine Set.ncard_lt_ncard ⟨fun x hx => ?_, fun hsub => ?_⟩
    ((Set.finite_lt_nat (2 ^ 64)).subset fun x hx => hx.1)
  · exact ⟨hx.1, fun hold => hx.2 (granted_cons_granted.mpr (Or.inr hold))⟩
  · have hmem : a < 2 ^ 64 ∧ ¬ Granted (⟨n, .granted a⟩ :: calls) a :=
      hsub ⟨by omega, (hnew a (Nat.le_refl a) (by omega)).1⟩
    exact hmem.2 (granted_cons_granted.mpr (Or.inl ⟨Nat.le_refl a, by omega⟩))

/-- Memory that is granted lies where memory of the program may lie. -/
theorem Fresh.territory (hfresh : Fresh base kernel) (haway : EndsAway base kernel)
    (hgrant : kernel calls n = .granted a) (hx : a ≤ x) (hx' : x < a + n) :
    0 < x ∧ x < 2 ^ 64 ∧ (x + 1 < base ∨ base + 16 ≤ x) := by
  obtain ⟨hpos, htop, hnew⟩ := hfresh calls n a hgrant
  have hend := haway calls n a hgrant
  refine ⟨by omega, by omega, ?_⟩
  rcases (hnew x hx hx').2 with hbefore | hbehind
  · -- the header `base` is not in the granted memory, and does not start at its end
    rcases Nat.lt_or_ge base (a + n) with hinside | houtside
    · have hbase := (hnew base (by omega) hinside).2
      omega
    · omega
  · exact Or.inr hbehind

end Calls

/-! ## Taking a block -/

section Carve

variable {base p prevp n : Nat} {s : State} {H F : Finset Nat}

/-- A block of the size asked for is unlinked. -/
theorem carve_whole (hp : IsHeader base s.calls p) (hprevp : IsHeader base s.calls prevp)
    (hn : s.size p = n) : carve base n prevp p s =
      .ok (shift p 1, { s.setPtr prevp (s.ptr p) with freep := prevp }) := by
  unfold carve
  rw [bind_eq_ok (getSize_eq hp), if_pos hn, bind_eq_ok (getPtr_eq hp),
    bind_eq_ok (setPtr_eq hprevp)]
  rfl

/-- The end of a larger block is cut off. -/
theorem carve_end {q : Nat} (hp : IsHeader base s.calls p) (hq : IsHeader base s.calls q)
    (hn : s.size p ≠ n) (hsize : s.size p < 2 ^ 64) (hshift : shift p (s.size p - n) = q) :
    carve base n prevp p s =
      .ok (shift q 1, { (s.setSize p (s.size p - n)).setSize q n with freep := prevp }) := by
  have hread : (s.setSize p (s.size p - n)).size p = s.size p - n := by
    have hfields := (fields_setSize (s := s) (v := s.size p - n) (Or.inl (Eq.refl p)) (by omega)).2
    rwa [Function.update_self] at hfields
  have hp' : IsHeader base (s.setSize p (s.size p - n)).calls p := hp
  have hq' : IsHeader base (s.setSize p (s.size p - n)).calls q := hq
  unfold carve
  rw [bind_eq_ok (getSize_eq hp), if_neg hn, bind_eq_ok (setSize_eq hp),
    bind_eq_ok (getSize_eq hp'), hread, hshift, bind_eq_ok (setSize_eq hq')]
  rfl

/-- `carve` behind `prevp` returns a block of `n` units that was not taken before, with the headers
arranged and the other taken blocks as they were. -/
def Carves (base : Nat) (s : State) (H F : Finset Nat) (n prevp : Nat) : Prop :=
  ∃ s' H' F' h, carve base n prevp (s.ptr prevp) s = .ok (shift h 1, s') ∧
    s'.calls = s.calls ∧ Arranged base s' H' F' ∧ s'.freep ∈ F' ∧
    (∀ k m, Taken s H F k m → Taken s' H' F' k m) ∧ Taken s' H' F' h n ∧
    ∀ m, ¬ Taken s H F h m

/-- A block of the size asked for is taken whole. -/
theorem carves_whole (hI : Arranged base s H F) (hprevp : prevp ∈ F) (hbase : s.ptr prevp ≠ base)
    (hwhole : s.size (s.ptr prevp) = n) : Carves base s H F n prevp := by
  have hpF := hI.ptr_mem hprevp
  have hpH : s.ptr prevp ∈ H := hI.sub _ hpF hbase
  have hprev := hI.mem_or_eq hprevp
  have hself : prevp ≠ s.ptr prevp := (hI.ptr_ne_self hprevp hbase).symm
  have hnext := hI.header_end (hI.mem_or_eq (hI.ptr_mem hpF))
  have hread (k : Nat) (hk : k ∈ H ∨ k = base) :=
    fields_setPtr (s := s) (v := s.ptr (s.ptr prevp)) (hI.sameOrApart hk hprev) (by omega)
  refine ⟨_, H, F.erase (s.ptr prevp), s.ptr prevp,
    carve_whole (hI.isHeader (Or.inl hpH)) (hI.isHeader hprev) hwhole, rfl,
    (hI.unlink hprevp hbase).of_fields hread, Finset.mem_erase.mpr ⟨hself, hprevp⟩, ?_, ?_, ?_⟩
  · rintro k m ⟨hkH, hkF, hm⟩
    exact ⟨hkH, fun hmem => hkF (Finset.mem_of_mem_erase hmem),
      (hread k (Or.inl hkH)).2.trans hm⟩
  · exact ⟨hpH, Finset.notMem_erase _ _, (hread _ (Or.inl hpH)).2.trans hwhole⟩
  · rintro m ⟨-, hpF', -⟩
    exact hpF' hpF

/-- The end of a larger block is taken. -/
theorem carves_end (hI : Arranged base s H F) (hprevp : prevp ∈ F) (hbase : s.ptr prevp ≠ base)
    (hpos : 0 < n) (hn : n < s.size (s.ptr prevp)) : Carves base s H F n prevp := by
  have hpF := hI.ptr_mem hprevp
  have hpH : s.ptr prevp ∈ H := hI.sub _ hpF hbase
  have hend := hI.block_end hpH
  have hsplit := hI.split hpH hpos hn
  obtain ⟨q, hq⟩ : ∃ q, q = s.ptr prevp + 16 * (s.size (s.ptr prevp) - n) := ⟨_, rfl⟩
  rw [← hq] at hsplit
  have hqH : q ∈ insert q H := Finset.mem_insert_self q H
  have hpH' : s.ptr prevp ∈ insert q H := Finset.mem_insert_of_mem hpH
  have hnew : q ∉ H := by
    rw [hq]
    exact hI.tiling.notMem_of_inside hpH (by omega) (by omega)
  have hqend := hsplit.header_end (Or.inl hqH)
  have hshift : shift (s.ptr prevp) (s.size (s.ptr prevp) - n) = q := by
    unfold shift
    omega
  have hread (k : Nat) (hk : k ∈ insert q H ∨ k = base) :=
    fields_setSize_setSize (s := s) (v := n) (m := s.size (s.ptr prevp) - n)
      (hsplit.sameOrApart hk (Or.inl hpH')) (hsplit.sameOrApart hk (Or.inl hqH)) (by omega)
      (by omega)
  refine ⟨_, insert q H, F, q,
    carve_end (hI.isHeader (Or.inl hpH)) (hsplit.isHeader (Or.inl hqH)) (by omega) (by omega)
      hshift, rfl, hsplit.of_fields hread, hprevp, ?_, ?_, ?_⟩
  · rintro k m ⟨hkH, hkF, hm⟩
    have hkq : k ≠ q := fun heq => hnew (heq ▸ hkH)
    have hkp : k ≠ s.ptr prevp := fun heq => hkF (heq ▸ hpF)
    refine ⟨Finset.mem_insert_of_mem hkH, hkF, ?_⟩
    refine (hread k (Or.inl (Finset.mem_insert_of_mem hkH))).2.trans ?_
    rw [Function.update_of_ne hkq, Function.update_of_ne hkp, hm]
  · refine ⟨hqH, fun hqF => ?_, (hread q (Or.inl hqH)).2.trans (Function.update_self ..)⟩
    rcases hI.mem_or_eq hqF with hqH' | hqbase
    · exact hnew hqH'
    · exact hsplit.base_notMem (hqbase ▸ hqH)
  · rintro m ⟨hqH', -, -⟩
    exact hnew hqH'

/-- A block that is large enough is taken, or its end is. -/
theorem carve_arranged (hI : Arranged base s H F) (hprevp : prevp ∈ F) (hpos : 0 < n)
    (hn : n ≤ s.size (s.ptr prevp)) : Carves base s H F n prevp := by
  have hbase : s.ptr prevp ≠ base := by
    intro heq
    rw [heq, hI.size_base] at hn
    omega
  by_cases hwhole : s.size (s.ptr prevp) = n
  · exact carves_whole hI hprevp hbase hwhole
  · exact carves_end hI hprevp hbase hpos (by omega)

end Carve

/-! ## More memory -/

section Morecore

variable {base nu a v : Nat} {kernel : Kernel} {s : State} {H F : Finset Nat}

theorem coreUnits_pos : 4096 ≤ coreUnits nu := by
  unfold coreUnits
  split <;> omega

theorem tbSbrk_eq {n : Nat} {answer : Break} (h : kernel s.calls n = answer) :
    tbSbrk kernel n s = .ok (answer.value, { s with calls := ⟨n, answer⟩ :: s.calls }) := by
  rw [← h]
  rfl

/-- Memory that the kernel grants starts at no header that there is. -/
theorem granted_notMem (hfresh : Fresh base kernel) (hI : Arranged base s H F)
    (hgrant : kernel s.calls (coreUnits nu * 16) = .granted a) : a ∉ H ∧ a ∉ F := by
  have hunits : 4096 ≤ coreUnits nu := coreUnits_pos
  have hnew := (hfresh _ _ _ hgrant).2.2 a (Nat.le_refl a) (by omega)
  have haH : a ∉ H := fun hmem => hnew.1 (hI.tiling.start_mem hmem)
  refine ⟨haH, fun hmem => ?_⟩
  rcases hI.mem_or_eq hmem with hmemH | hbase
  · exact haH hmemH
  · have happart := hnew.2
    omega

/-- After `tb_sbrk` and the write to `hp->s.size` the new memory is a block next to the others. -/
theorem arranged_core (hfresh : Fresh base kernel) (haway : EndsAway base kernel)
    (hI : Arranged base s H F) (hgrant : kernel s.calls (coreUnits nu * 16) = .granted a)
    {t : State} (ht : t = { s with calls := ⟨coreUnits nu * 16, .granted a⟩ :: s.calls }) :
    IsHeader base t.calls a ∧ Arranged base (t.setSize a (coreUnits nu)) (insert a H) F ∧
      ∀ h n, Taken (t.setSize a (coreUnits nu)) (insert a H) (insert a F) h n ↔
        Taken s H F h n := by
  obtain ⟨hapos, hatop, hnew⟩ := hfresh _ _ _ hgrant
  have hunits : 4096 ≤ coreUnits nu := coreUnits_pos
  have haH := (granted_notMem hfresh hI hgrant).1
  have htcalls : t.calls = ⟨coreUnits nu * 16, .granted a⟩ :: s.calls := by rw [ht]
  have htptr : t.ptr = s.ptr := by
    rw [ht]
    rfl
  have htsize : t.size = s.size := by
    rw [ht]
    rfl
  have hgrow : FreeList base (Granted t.calls) (insert a H) F s.ptr
      (Function.update s.size a (coreUnits nu)) := by
    rw [htcalls]
    refine hI.grow (by omega) (fun x hx hx' => (hnew x hx (by omega)).1)
      (fun x => by rw [granted_cons_granted, Nat.mul_comm]) fun x hx => ?_
    rcases granted_cons_granted.mp hx with hin | hold
    · exact hfresh.territory haway hgrant hin.1 hin.2
    · exact hI.territory x hold
  have hread (k : Nat) (hk : k ∈ insert a H ∨ k = base) :=
    fields_setSize (s := t) (v := coreUnits nu)
      (hgrow.sameOrApart hk (Or.inl (Finset.mem_insert_self a H))) (by omega)
  rw [htptr, htsize] at hread
  refine ⟨hgrow.isHeader (Or.inl (Finset.mem_insert_self a H)), hgrow.of_fields hread,
    fun h n => ?_⟩
  rw [taken_insert]
  constructor
  · rintro ⟨hne, hhH, hhF, hsize⟩
    have hold := (Finset.mem_insert.mp hhH).resolve_left hne
    rw [(hread h (Or.inl hhH)).2, Function.update_of_ne hne] at hsize
    exact ⟨hold, hhF, hsize⟩
  · rintro ⟨hhH, hhF, hsize⟩
    have hne : h ≠ a := fun heq => haH (heq ▸ hhH)
    refine ⟨hne, Finset.mem_insert_of_mem hhH, hhF, ?_⟩
    rw [(hread h (Or.inl (Finset.mem_insert_of_mem hhH))).2, Function.update_of_ne hne, hsize]

/-- New memory becomes a free block, and the taken blocks are those that were taken. -/
theorem morecore_granted (hfresh : Fresh base kernel) (haway : EndsAway base kernel)
    (hI : Arranged base s H F) (hfreep : s.freep ∈ F)
    (hgrant : kernel s.calls (coreUnits nu * 16) = .granted a) :
    ∃ s' H' F', Settles (fun fuel => morecore base kernel fuel nu) s (.ok (s'.freep, s')) ∧
      s'.calls = ⟨coreUnits nu * 16, .granted a⟩ :: s.calls ∧ Arranged base s' H' F' ∧
      s'.freep ∈ F' ∧ ∀ h n, Taken s' H' F' h n ↔ Taken s H F h n := by
  have hunits : 4096 ≤ coreUnits nu := coreUnits_pos
  have hatop := (hfresh _ _ _ hgrant).2.1
  obtain ⟨t, ht⟩ : ∃ t : State,
      t = { s with calls := ⟨coreUnits nu * 16, .granted a⟩ :: s.calls } := ⟨_, rfl⟩
  obtain ⟨haheader, hu, hsame⟩ := arranged_core hfresh haway hI hgrant ht
  have hufreep : (t.setSize a (coreUnits nu)).freep ∈ F := by
    rw [ht]
    exact hfreep
  obtain ⟨s', H', F', hfree, hcalls, hI', hfreep', hkept⟩ :=
    tbFree_settles hu hufreep (Finset.mem_insert_self a H) (granted_notMem hfresh hI hgrant).2
  refine ⟨s', H', F', ?_, hcalls.trans (by rw [ht]; rfl), hI', hfreep',
    fun h n => (hkept h n).trans (hsame h n)⟩
  have hminus : (Break.granted a).value ≠ 2 ^ 64 - 1 := by
    show a ≠ 2 ^ 64 - 1
    omega
  unfold morecore
  refine .bind_of_ok (tbSbrk_eq hgrant) ?_
  rw [← ht]
  simp only [if_neg hminus]
  exact .bind_of_ok (setSize_eq haheader) (.bind hfree (.of_eq rfl))

/-- The one failure that `morecore` knows. -/
theorem morecore_refused (fuel : Nat)
    (hfail : kernel s.calls (coreUnits nu * 16) = .failed (2 ^ 64 - 1)) :
    morecore base kernel fuel nu s =
      .ok (0, { s with calls := ⟨coreUnits nu * 16, .failed (2 ^ 64 - 1)⟩ :: s.calls }) := by
  unfold morecore
  rw [bind_eq_ok (tbSbrk_eq hfail)]
  rfl

/-- Any other failure is taken for a header and written to. -/
theorem morecore_fault (fuel : Nat) (hfail : kernel s.calls (coreUnits nu * 16) = .failed v)
    (hv : v ≠ 2 ^ 64 - 1) (haccess : ¬ Accessible base s.calls ((v + 8) % 2 ^ 64)) :
    morecore base kernel fuel nu s =
      .error (.fault ((v + 8) % 2 ^ 64) (⟨coreUnits nu * 16, .failed v⟩ :: s.calls)) := by
  have hother : (Break.failed v).value ≠ 2 ^ 64 - 1 := hv
  have hno : ¬ Accessible base (⟨coreUnits nu * 16, .failed v⟩ :: s.calls)
      ((v + 8) % 2 ^ 64) := by
    unfold Accessible at haccess ⊢
    simpa only [granted_cons_failed] using haccess
  unfold morecore
  rw [bind_eq_ok (tbSbrk_eq hfail), if_neg hother]
  exact bind_eq_error (if_neg hno)

end Morecore

end Heap

end ParchTestbench
