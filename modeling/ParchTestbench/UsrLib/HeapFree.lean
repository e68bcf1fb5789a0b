import ParchTestbench.UsrLib.FreeList
import ParchTestbench.UsrLib.Heap

/-!
# The C user library: `tb_free`

A call of `tb_free` on a block that is taken goes around the ring of free blocks to the place of
the block, links the block in, and joins it with its neighbours.

Main results:

- Theorem `findPlace_settles`: the loop ends at the header behind which the block belongs.
- Theorem `tbFree_settles`: the call returns, the headers are as between two calls again, and the
  taken blocks are the other ones.
-/

namespace ParchTestbench

namespace Heap

open Program

/-! ## The fields of a header -/

/-- The field `ptr` of a header. -/
def State.ptr (s : State) (h : Nat) : Nat := s.mem.load h 8

/-- The field `size` of a header. -/
def State.size (s : State) (h : Nat) : Nat := s.mem.load (h + 8) 8

/-- The state with another field `ptr`. -/
def State.setPtr (s : State) (h v : Nat) : State := { s with mem := s.mem.store h 8 v }

/-- The state with another field `size`. -/
def State.setSize (s : State) (h v : Nat) : State := { s with mem := s.mem.store (h + 8) 8 v }

/-- The program has the memory of a header. -/
def IsHeader (base : Nat) (calls : List Call) (h : Nat) : Prop :=
  h + 16 ≤ 2 ^ 64 ∧
    ∀ x, h ≤ x → x < h + 16 → (base ≤ x ∧ x < base + 16) ∨ Granted calls x

/-- Two headers are one or do not overlap. -/
def SameOrApart (k h : Nat) : Prop := k = h ∨ k + 16 ≤ h ∨ h + 16 ≤ k

/-- Functions that agree at an address agree there after an update of both. -/
theorem update_congr {f g : Nat → Nat} {k p b : Nat} (h : f k = g k) :
    Function.update f p b k = Function.update g p b k := by
  by_cases heq : k = p
  · rw [heq, Function.update_self, Function.update_self]
  · rw [Function.update_of_ne heq, Function.update_of_ne heq, h]

section Fields

variable {base h k v m : Nat} {s : State}

theorem IsHeader.accessible {calls : List Call} (hh : IsHeader base calls h) :
    Accessible base calls h ∧ (h + 8) % 2 ^ 64 = h + 8 ∧ Accessible base calls (h + 8) := by
  obtain ⟨htop, hall⟩ := hh
  exact ⟨⟨by omega, fun k hk => hall _ (by omega) (by omega)⟩, Nat.mod_eq_of_lt (by omega),
    by omega, fun k hk => hall _ (by omega) (by omega)⟩

theorem getPtr_eq (hh : IsHeader base s.calls h) : getPtr base h s = .ok (s.ptr h, s) :=
  if_pos hh.accessible.1

theorem getSize_eq (hh : IsHeader base s.calls h) : getSize base h s = .ok (s.size h, s) := by
  obtain ⟨-, hmod, hsize⟩ := hh.accessible
  unfold getSize
  rw [hmod]
  exact if_pos hsize

theorem setPtr_eq (hh : IsHeader base s.calls h) :
    setPtr base h v s = .ok ((), s.setPtr h v) := if_pos hh.accessible.1

theorem setSize_eq (hh : IsHeader base s.calls h) :
    setSize base h v s = .ok ((), s.setSize h v) := by
  obtain ⟨-, hmod, hsize⟩ := hh.accessible
  unfold setSize
  rw [hmod]
  exact if_pos hsize

/-- What a header reads after a write to the field `ptr` of one. -/
theorem fields_setPtr (hk : SameOrApart k h) (hv : v < 2 ^ 64) :
    (s.setPtr h v).ptr k = Function.update s.ptr h v k ∧ (s.setPtr h v).size k = s.size k := by
  unfold SameOrApart at hk
  refine ⟨?_, Mem.load_store_of_disjoint (by omega)⟩
  by_cases heq : k = h
  · rw [heq, Function.update_self]
    exact Mem.load_store_of_lt (by omega)
  · rw [Function.update_of_ne heq]
    exact Mem.load_store_of_disjoint (by omega)

/-- What a header reads after a write to the field `size` of one. -/
theorem fields_setSize (hk : SameOrApart k h) (hv : v < 2 ^ 64) :
    (s.setSize h v).ptr k = s.ptr k ∧ (s.setSize h v).size k = Function.update s.size h v k := by
  unfold SameOrApart at hk
  refine ⟨Mem.load_store_of_disjoint (by omega), ?_⟩
  by_cases heq : k = h
  · rw [heq, Function.update_self]
    exact Mem.load_store_of_lt (by omega)
  · rw [Function.update_of_ne heq]
    exact Mem.load_store_of_disjoint (by omega)

/-- The field `ptr` of a header is read as before a write to the field `size` of one. -/
theorem getPtr_setSize (hh : IsHeader base s.calls k) (hk : SameOrApart k h) (hv : v < 2 ^ 64) :
    getPtr base k (s.setSize h v) = .ok (s.ptr k, s.setSize h v) := by
  rw [← (fields_setSize hk hv).1]
  exact getPtr_eq hh

/-- What a header reads after a write to both fields of one. -/
theorem fields_setSize_setPtr (hk : SameOrApart k h) (hm : m < 2 ^ 64) (hv : v < 2 ^ 64) :
    ((s.setSize h m).setPtr h v).ptr k = Function.update s.ptr h v k ∧
      ((s.setSize h m).setPtr h v).size k = Function.update s.size h m k := by
  obtain ⟨hptr, hsize⟩ := fields_setPtr (s := s.setSize h m) hk hv
  obtain ⟨hptr', hsize'⟩ := fields_setSize (s := s) hk hm
  exact ⟨hptr.trans (update_congr hptr'), hsize.trans hsize'⟩

/-- What a header reads after writes to the fields `size` of two. -/
theorem fields_setSize_setSize {q : Nat} (hk : SameOrApart k h) (hq : SameOrApart k q)
    (hm : m < 2 ^ 64) (hv : v < 2 ^ 64) :
    ((s.setSize h m).setSize q v).ptr k = s.ptr k ∧
      ((s.setSize h m).setSize q v).size k =
        Function.update (Function.update s.size h m) q v k := by
  obtain ⟨hptr, hsize⟩ := fields_setSize (s := s.setSize h m) hq hv
  obtain ⟨hptr', hsize'⟩ := fields_setSize (s := s) hk hm
  exact ⟨hptr.trans hptr', hsize.trans (update_congr hsize')⟩

end Fields

/-! ## Between two calls -/

/-- The headers of a state are a ring of free blocks and the taken blocks. -/
abbrev Arranged (base : Nat) (s : State) (H F : Finset Nat) : Prop :=
  FreeList base (Granted s.calls) H F s.ptr s.size

/-- The block of `n` units at `h` is taken. -/
def Taken (s : State) (H F : Finset Nat) (h n : Nat) : Prop := h ∈ H ∧ h ∉ F ∧ s.size h = n

section Arrangement

variable {base h k n b p : Nat} {calls : List Call} {H H' F F' : Finset Nat}
  {ptr size : Nat → Nat} {s s' : State}

theorem taken_congr (hmem : h ∈ H' ∧ h ∉ F' ↔ h ∈ H ∧ h ∉ F)
    (hsize : h ∈ H → h ∉ F → s'.size h = s.size h) :
    Taken s' H' F' h n ↔ Taken s H F h n := by
  constructor
  · rintro ⟨hh', hhF', hn⟩
    obtain ⟨hh, hhF⟩ := hmem.mp ⟨hh', hhF'⟩
    exact ⟨hh, hhF, (hsize hh hhF).symm.trans hn⟩
  · rintro ⟨hh, hhF, hn⟩
    obtain ⟨hh', hhF'⟩ := hmem.mpr ⟨hh, hhF⟩
    exact ⟨hh', hhF', (hsize hh hhF).trans hn⟩

theorem taken_insert : Taken s H (insert b F) h n ↔ h ≠ b ∧ Taken s H F h n := by
  unfold Taken
  rw [Finset.mem_insert, not_or, and_assoc]
  exact and_left_comm

/-- A free header that goes leaves the others as they were. -/
theorem mem_erase_iff (hk : k ∈ F) : h ∈ H.erase k ∧ h ∉ F.erase k ↔ h ∈ H ∧ h ∉ F := by
  by_cases heq : h = k
  · rw [heq]
    simp [hk]
  · simp [heq]

theorem FreeList.isHeader (hI : FreeList base (Granted calls) H F ptr size)
    (hh : h ∈ H ∨ h = base) : IsHeader base calls h := by
  refine ⟨(hI.header_end hh).2, fun x hx hx' => ?_⟩
  rcases hh with hh | rfl
  · have hpos := hI.size_pos hh
    exact Or.inr (hI.granted hh hx (by omega))
  · exact Or.inl ⟨hx, hx'⟩

theorem FreeList.isHeader_of_mem (hI : FreeList base (Granted calls) H F ptr size) (hh : h ∈ F) :
    IsHeader base calls h := hI.isHeader (hI.mem_or_eq hh)

theorem FreeList.sameOrApart (hI : FreeList base (Granted calls) H F ptr size)
    (hk : k ∈ H ∨ k = base) (hh : h ∈ H ∨ h = base) : SameOrApart k h := by
  by_cases heq : k = h
  · exact Or.inl heq
  · exact Or.inr (hI.headers_apart hk hh heq)

/-- The end of a block is compared without wrapping around. -/
theorem FreeList.shift_eq_iff (hI : FreeList base (Granted calls) H F ptr size)
    (hh : h ∈ H ∨ h = base) (hk : k ∈ H ∨ k = base) :
    shift h (size h) = k ↔ h + 16 * size h = k := by
  have hkpos := hI.header_end hk
  have hend : h + 16 * size h ≤ 2 ^ 64 := by
    rcases hh with hh | rfl
    · exact (hI.block_end hh).2.1
    · have hstatic := hI.static
      rw [hI.size_base]
      omega
  unfold shift
  omega

end Arrangement

/-! ## `tb_free` -/

section Free

variable {base b p : Nat} {s : State} {H F : Finset Nat}

/-- The loop of `tb_free` ends at the header behind which the block belongs. -/
theorem findPlace_settles (hI : Arranged base s H F) (hbF : b ∉ F) (hp : p ∈ F) :
    ∃ q ∈ F, Between q b (s.ptr q) ∧
      Settles (fun fuel => findPlace base b fuel p) s (.ok (q, s)) := by
  induction hgap : ringGap F p b using Nat.strong_induction_on generalizing p with
  | _ gap ih =>
      have hread := getPtr_eq (hI.isHeader_of_mem hp)
      by_cases hbetween : Between p b (s.ptr p)
      · have hstop : Settles (fun _ => (pure p : HeapM Nat)) s (.ok (p, s)) := .of_eq rfl
        refine ⟨p, hp, hbetween, .of_succ (.bind_of_ok hread (hstop.congr fun fuel => ?_))⟩
        rcases hbetween with hinner | houter
        · rw [if_pos hinner]
        · rw [if_neg (by omega), if_pos houter]
      · have hbq : b ≠ s.ptr p := fun heq => hbF (heq ▸ hI.ptr_mem hp)
        have hpast : Between p (s.ptr p) b := by
          rcases Between.total p hbq with hhere | hpast | hself
          · exact absurd hhere hbetween
          · exact hpast
          · have hbp : b ≠ p := fun heq => hbF (heq ▸ hp)
            rw [hself, Between.self_iff] at hbetween
            exact absurd hbp hbetween
        have hcloser := hI.ring.gap_next_lt hp hpast
        obtain ⟨q, hq, hplace, hrest⟩ := ih _ (hgap ▸ hcloser) (hI.ptr_mem hp) rfl
        refine ⟨q, hq, hplace, .of_succ (.bind_of_ok hread (hrest.congr fun fuel => ?_))⟩
        unfold Between at hbetween
        rw [if_neg (by omega), if_neg (by omega)]

/-- The upper branch when the block behind `bp` is free. -/
theorem mergeUpper_join (hI : Arranged base s H F) (hb : b ∈ H) (hp : p ∈ F)
    (hend : shift b (s.size b) = s.ptr p) (hsum : s.size b + s.size (s.ptr p) < 2 ^ 64) :
    mergeUpper base b p s =
      .ok ((), (s.setSize b (s.size b + s.size (s.ptr p))).setPtr b (s.ptr (s.ptr p))) := by
  have hbh := hI.isHeader (Or.inl hb)
  have hph := hI.isHeader_of_mem hp
  have hqF := hI.ptr_mem hp
  have hqh := hI.isHeader_of_mem hqF
  have hpb := hI.sameOrApart (hI.mem_or_eq hp) (Or.inl hb)
  have hqb := hI.sameOrApart (hI.mem_or_eq hqF) (Or.inl hb)
  unfold mergeUpper
  rw [bind_eq_ok (getSize_eq hbh), bind_eq_ok (getPtr_eq hph), if_pos hend,
    bind_eq_ok (getSize_eq hqh), Nat.mod_eq_of_lt hsum, bind_eq_ok (setSize_eq hbh),
    bind_eq_ok (getPtr_setSize hph hpb hsum), bind_eq_ok (getPtr_setSize hqh hqb hsum)]
  exact setPtr_eq hbh

/-- The upper branch when the block behind `bp` is taken. -/
theorem mergeUpper_point (hI : Arranged base s H F) (hb : b ∈ H) (hp : p ∈ F)
    (hend : shift b (s.size b) ≠ s.ptr p) :
    mergeUpper base b p s = .ok ((), s.setPtr b (s.ptr p)) := by
  have hbh := hI.isHeader (Or.inl hb)
  have hph := hI.isHeader_of_mem hp
  unfold mergeUpper
  rw [bind_eq_ok (getSize_eq hbh), bind_eq_ok (getPtr_eq hph), if_neg hend]
  exact setPtr_eq hbh

/-- The lower branch when the block before `bp` is free. -/
theorem mergeLower_join (hb : IsHeader base s.calls b) (hp : IsHeader base s.calls p)
    (hapart : SameOrApart b p) (hend : shift p (s.size p) = b)
    (hsum : s.size p + s.size b < 2 ^ 64) :
    mergeLower base b p s = .ok ((), (s.setSize p (s.size p + s.size b)).setPtr p (s.ptr b)) := by
  unfold mergeLower
  rw [bind_eq_ok (getSize_eq hp), if_pos hend, bind_eq_ok (getSize_eq hb),
    Nat.mod_eq_of_lt hsum, bind_eq_ok (setSize_eq hp), bind_eq_ok (getPtr_setSize hb hapart hsum)]
  exact setPtr_eq hp

/-- The lower branch when the block before `bp` is taken. -/
theorem mergeLower_point (hp : IsHeader base s.calls p) (hend : shift p (s.size p) ≠ b) :
    mergeLower base b p s = .ok ((), s.setPtr p b) := by
  unfold mergeLower
  rw [bind_eq_ok (getSize_eq hp), if_neg hend]
  exact setPtr_eq hp

/-- After the upper branch the headers are arranged, but for the link from `p` to `bp`. -/
theorem mergeUpper_arranged (hI : Arranged base s H F) (hb : b ∈ H) (hp : p ∈ F)
    (hbetween : Between p b (s.ptr p)) :
    ∃ s' H' F', mergeUpper base b p s = .ok ((), s') ∧ s'.calls = s.calls ∧
      FreeList base (Granted s.calls) H' F' (Function.update s'.ptr p b) s'.size ∧
      p ∈ F' ∧ b ∈ F' ∧ ∀ h n, Taken s' H' F' h n ↔ Taken s H (insert b F) h n := by
  have hqF := hI.ptr_mem hp
  have hq := hI.mem_or_eq hqF
  have hqtop := hI.header_end hq
  by_cases hend : shift b (s.size b) = s.ptr p
  · have hend' := (hI.shift_eq_iff (Or.inl hb) hq).mp hend
    have hjoin := hI.link_join hb hp hbetween hend'
    have hqbase : s.ptr p ≠ base := by
      rw [← hend']
      exact (hI.block_end hb).2.2
    have hsum : s.size b + s.size (s.ptr p) < 2 ^ 64 := by
      have hbend := hI.block_end hb
      have hqend := hI.block_end (hI.sub _ hqF hqbase)
      omega
    have hnext := hI.header_end (hI.mem_or_eq (hI.ptr_mem hqF))
    have hread (k : Nat) (hk : k ∈ H ∨ k = base) :=
      fields_setSize_setPtr (s := s) (v := s.ptr (s.ptr p)) (hI.sameOrApart hk (Or.inl hb)) hsum
        (by omega)
    refine ⟨_, _, _, mergeUpper_join hI hb hp hend hsum, rfl, hjoin.of_fields fun k hk => ?_,
      Finset.mem_erase.mpr ⟨(hI.ptr_ne_self hp hqbase).symm, Finset.mem_insert_of_mem hp⟩,
      Finset.mem_erase.mpr ⟨hbetween.ne_right, Finset.mem_insert_self b F⟩, fun h n => ?_⟩
    · obtain ⟨hptr, hsize⟩ := hread k (hk.imp_left Finset.mem_of_mem_erase)
      exact ⟨update_congr hptr, hsize⟩
    · refine taken_congr (mem_erase_iff (Finset.mem_insert_of_mem hqF)) fun hhH hhF => ?_
      have hhb : h ≠ b := fun heq => hhF (heq ▸ Finset.mem_insert_self b F)
      rw [(hread h (Or.inl hhH)).2, Function.update_of_ne hhb]
  · have hread (k : Nat) (hk : k ∈ H ∨ k = base) :=
      fields_setPtr (s := s) (v := s.ptr p) (hI.sameOrApart hk (Or.inl hb)) (by omega)
    refine ⟨_, _, _, mergeUpper_point hI hb hp hend, rfl,
      (hI.link hb hp hbetween).of_fields fun k hk => ?_,
      Finset.mem_insert_of_mem hp, Finset.mem_insert_self b F,
      fun h n => taken_congr Iff.rfl fun hhH _ => (hread h (Or.inl hhH)).2⟩
    exact ⟨update_congr (hread k hk).1, (hread k hk).2⟩

/-- The lower branch sets the link from `p` to `bp`, or makes the two blocks one. -/
theorem mergeLower_arranged
    (hI : FreeList base (Granted s.calls) H F (Function.update s.ptr p b) s.size)
    (hb : b ∈ F) (hbase : b ≠ base) (hp : p ∈ F) (hbp : b ≠ p) :
    ∃ s' H' F', mergeLower base b p s = .ok ((), s') ∧ s'.calls = s.calls ∧
      Arranged base s' H' F' ∧ p ∈ F' ∧ ∀ h n, Taken s' H' F' h n ↔ Taken s H F h n := by
  have hbH : b ∈ H := hI.sub b hb hbase
  have hpH := hI.mem_or_eq hp
  have hbtop := hI.header_end (Or.inl hbH)
  have hnext : Function.update s.ptr p b p = b := Function.update_self ..
  by_cases hend : shift p (s.size p) = b
  · have hend' := (hI.shift_eq_iff hpH (Or.inl hbH)).mp hend
    have hpbase : p ≠ base := hI.ne_base_of_end hend' hbase
    have hjoin := hI.join hp (hnext.trans_ne hbase) (hend'.trans hnext.symm)
    rw [hnext, Function.update_of_ne hbp] at hjoin
    have hsum : s.size p + s.size b < 2 ^ 64 := by
      have hbend := hI.block_end hbH
      have hpend := hI.block_end (hI.sub p hp hpbase)
      omega
    have hnextb := hI.header_end (hI.mem_or_eq (hI.ptr_mem hb))
    rw [Function.update_of_ne hbp] at hnextb
    have hread (k : Nat) (hk : k ∈ H ∨ k = base) :=
      fields_setSize_setPtr (s := s) (v := s.ptr b) (hI.sameOrApart hk hpH) hsum (by omega)
    refine ⟨_, _, _, mergeLower_join (hI.isHeader (Or.inl hbH)) (hI.isHeader hpH)
        (hI.sameOrApart (Or.inl hbH) hpH) hend hsum, rfl, hjoin.of_fields fun k hk => ?_,
      Finset.mem_erase.mpr ⟨hbp.symm, hp⟩, fun h n => ?_⟩
    · rw [Function.update_idem]
      exact hread k (hk.imp_left Finset.mem_of_mem_erase)
    · refine taken_congr (mem_erase_iff hb) fun hhH hhF => ?_
      have hhp : h ≠ p := fun heq => hhF (heq ▸ hp)
      rw [(hread h (Or.inl hhH)).2, Function.update_of_ne hhp]
  · have hread (k : Nat) (hk : k ∈ H ∨ k = base) :=
      fields_setPtr (s := s) (v := b) (hI.sameOrApart hk hpH) (by omega)
    exact ⟨_, _, _, mergeLower_point (hI.isHeader hpH) hend, rfl, hI.of_fields hread, hp,
      fun h n => taken_congr Iff.rfl fun hhH _ => (hread h (Or.inl hhH)).2⟩

/-- `tb_free` on a taken block returns with the headers arranged; the taken blocks are those that
were taken, but for this one. -/
theorem tbFree_settles (hI : Arranged base s H F) (hfreep : s.freep ∈ F) (hb : b ∈ H)
    (hbF : b ∉ F) :
    ∃ s' H' F', Settles (fun fuel => tbFree base fuel (shift b 1)) s (.ok ((), s')) ∧
      s'.calls = s.calls ∧ Arranged base s' H' F' ∧ s'.freep ∈ F' ∧
      ∀ h n, Taken s' H' F' h n ↔ Taken s H (insert b F) h n := by
  have hbtop := hI.header_end (Or.inl hb)
  have hbp : (shift b 1 + (2 ^ 64 - 16)) % 2 ^ 64 = b := by
    unfold shift
    omega
  have hbase : b ≠ base := fun heq => hI.base_notMem (heq ▸ hb)
  obtain ⟨p, hp, hbetween, hplace⟩ := findPlace_settles hI hbF hfreep
  obtain ⟨t, H', F', hupper, hcalls, hI', hp', hb', hkept⟩ :=
    mergeUpper_arranged hI hb hp hbetween
  rw [← hcalls] at hI'
  obtain ⟨u, H'', F'', hlower, hcalls', hI'', hp'', hkept'⟩ :=
    mergeLower_arranged hI' hb' hbase hp' hbetween.ne_left
  refine ⟨{ u with freep := p }, H'', F'', ?_, hcalls'.trans hcalls, hI'', hp'',
    fun h n => (hkept' h n).trans (hkept h n)⟩
  unfold tbFree
  rw [hbp]
  exact .bind_of_ok rfl (.bind hplace (.bind_of_ok hupper (.bind_of_ok hlower (.of_eq rfl))))

end Free

end Heap

end ParchTestbench
