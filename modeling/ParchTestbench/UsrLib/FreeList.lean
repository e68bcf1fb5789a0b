import ParchTestbench.Machine.SortedRing
import ParchTestbench.Machine.Tiling
import Mathlib.Logic.Function.Basic
import Mathlib.Tactic.Ring

/-!
# The C user library: the ring of free blocks

What the headers of the allocator say between two calls: the memory that the kernel granted
is cut into blocks, some of them free, and the free ones together with the header `base`, which
has no block, are a sorted ring.  A step of the allocator changes the headers in one of five
ways.

Main results:

- Theorems `FreeList.link` and `FreeList.join`: a block becomes free, and takes over the next.
- Theorems `FreeList.unlink`, `FreeList.split` and `FreeList.grow`: a free block is taken, or
  its end is, or new memory is a block.
-/

namespace ParchTestbench

namespace Heap

/-- The headers `H` of the blocks that cut up the granted bytes `G`, with the ring of the free
ones `F`, by the two fields of the headers. -/
structure FreeList (base : Nat) (G : Nat → Prop) (H F : Finset Nat) (ptr size : Nat → Nat) :
    Prop where
  static : 0 < base ∧ base + 16 ≤ 2 ^ 64
  territory : ∀ x, G x → 0 < x ∧ x < 2 ^ 64 ∧ (x + 1 < base ∨ base + 16 ≤ x)
  tiling : Tiling G H fun h => 16 * size h
  base_mem : base ∈ F
  sub : ∀ h ∈ F, h ≠ base → h ∈ H
  ring : SortedRing F ptr
  size_base : size base = 0

namespace FreeList

variable {base h k p n a nu x : Nat} {G G' : Nat → Prop} {H F : Finset Nat}
  {ptr ptr' size size' : Nat → Nat}

/-! ## Where the headers are -/

theorem base_notMem (hI : FreeList base G H F ptr size) : base ∉ H := by
  intro hmem
  have hbase := (hI.territory base (hI.tiling.start_mem hmem)).2.2
  omega

theorem size_pos (hI : FreeList base G H F ptr size) (hh : h ∈ H) : 0 < size h := by
  have hpos := hI.tiling.pos h hh
  omega

/-- A block that is free, or the header `base`. -/
theorem mem_or_eq (hI : FreeList base G H F ptr size) (hh : h ∈ F) : h ∈ H ∨ h = base := by
  by_cases hbase : h = base
  · exact Or.inr hbase
  · exact Or.inl (hI.sub h hh hbase)

/-- Only what the headers read matters. -/
theorem of_fields (hI : FreeList base G H F ptr size)
    (hread : ∀ k, k ∈ H ∨ k = base → ptr' k = ptr k ∧ size' k = size k) :
    FreeList base G H F ptr' size' where
  static := hI.static
  territory := hI.territory
  tiling := hI.tiling.congr fun k hk => by rw [(hread k (Or.inl hk)).2]
  base_mem := hI.base_mem
  sub := hI.sub
  ring := hI.ring.congr fun k hk => (hread k (hI.mem_or_eq hk)).1
  size_base := (hread base (Or.inr rfl)).2.trans hI.size_base

/-- The bytes of a block were granted. -/
theorem granted (hI : FreeList base G H F ptr size) (hh : h ∈ H) (hx : h ≤ x)
    (hx' : x < h + 16 * size h) : G x := hI.tiling.mem hh hx hx'

/-- A block ends below 2^64 and not at the header `base`. -/
theorem block_end (hI : FreeList base G H F ptr size) (hh : h ∈ H) :
    0 < h ∧ h + 16 * size h ≤ 2 ^ 64 ∧ h + 16 * size h ≠ base := by
  have hpos := hI.size_pos hh
  have hfirst := hI.territory h (hI.tiling.start_mem hh)
  have hlast := hI.territory _ (hI.granted (x := h + 16 * size h - 1) hh (by omega) (by omega))
  omega

/-- A block has no byte of the header `base`. -/
theorem base_apart (hI : FreeList base G H F ptr size) (hh : h ∈ H) :
    h + 16 * size h ≤ base ∨ base + 16 ≤ h := by
  have hpos := hI.size_pos hh
  have hfirst := (hI.territory h (hI.tiling.start_mem hh)).2.2
  by_contra hoverlap
  -- the block would have to hold the first byte of the header
  have hbase := (hI.territory base (hI.granted hh (by omega) (by omega))).2.2
  omega

/-- Two headers do not overlap. -/
theorem headers_apart (hI : FreeList base G H F ptr size) (hh : h ∈ H ∨ h = base)
    (hk : k ∈ H ∨ k = base) (hne : h ≠ k) : h + 16 ≤ k ∨ k + 16 ≤ h := by
  rcases hh with hh | rfl <;> rcases hk with hk | rfl
  · have hhpos := hI.size_pos hh
    have hkpos := hI.size_pos hk
    rcases Nat.lt_or_gt_of_ne hne with hlt | hlt
    · have hend := hI.tiling.apart h hh k hk hlt
      omega
    · have hend := hI.tiling.apart k hk h hh hlt
      omega
  · have hpos := hI.size_pos hh
    have hapart := hI.base_apart hh
    omega
  · have hpos := hI.size_pos hk
    have hapart := hI.base_apart hk
    omega
  · exact absurd rfl hne

/-- A header is inside of the address space. -/
theorem header_end (hI : FreeList base G H F ptr size) (hh : h ∈ H ∨ h = base) :
    0 < h ∧ h + 16 ≤ 2 ^ 64 := by
  rcases hh with hh | rfl
  · have hpos := hI.size_pos hh
    have hend := hI.block_end hh
    omega
  · exact hI.static

/-- The successor of a free header is one. -/
theorem ptr_mem (hI : FreeList base G H F ptr size) (hp : p ∈ F) : ptr p ∈ F :=
  hI.ring.next_mem hp

/-- A successor that has a block is not the header itself. -/
theorem ptr_ne_self (hI : FreeList base G H F ptr size) (hp : p ∈ F) (hne : ptr p ≠ base) :
    ptr p ≠ p := by
  intro hself
  have halone := hI.ring.eq_of_next_eq_self hp hself hI.base_mem
  exact hne (hself.trans halone.symm)

/-- Only a block has something else at its end: the header `base` has size 0. -/
theorem ne_base_of_end (hI : FreeList base G H F ptr size) (hend : h + 16 * size h = k)
    (hk : k ≠ base) : h ≠ base := by
  rintro rfl
  rw [hI.size_base] at hend
  omega

/-! ## Steps -/

/-- A block becomes free: it is linked in behind `p`. -/
theorem link (hI : FreeList base G H F ptr size) (hh : h ∈ H) (hp : p ∈ F)
    (hbetween : Between p h (ptr p)) : FreeList base G H (insert h F)
      (Function.update (Function.update ptr h (ptr p)) p h) size where
  static := hI.static
  territory := hI.territory
  tiling := hI.tiling
  base_mem := Finset.mem_insert_of_mem hI.base_mem
  sub k hk hne := by
    rcases Finset.mem_insert.mp hk with rfl | hkF
    · exact hh
    · exact hI.sub k hkF hne
  ring := hI.ring.insert hp hbetween
  size_base := hI.size_base

/-- A free header `h` takes over the next free block, which starts at its end. -/
theorem join (hI : FreeList base G H F ptr size) (hh : h ∈ F) (hne : ptr h ≠ base)
    (hend : h + 16 * size h = ptr h) : FreeList base G (H.erase (ptr h)) (F.erase (ptr h))
      (Function.update ptr h (ptr (ptr h))) (Function.update size h (size h + size (ptr h))) where
  static := hI.static
  territory := hI.territory
  tiling := by
    have hbase : h ≠ base := hI.ne_base_of_end hend hne
    have hhH : h ∈ H := hI.sub h hh hbase
    have hnext : ptr h ∈ H := hI.sub _ (hI.ptr_mem hh) hne
    rw [← hend] at hnext ⊢
    refine hI.tiling.join hhH hnext fun x _ => ?_
    by_cases hx : x = h
    · rw [if_pos hx, hx, Function.update_self]
      ring
    · rw [if_neg hx, Function.update_of_ne hx]
  base_mem := Finset.mem_erase.mpr ⟨hne.symm, hI.base_mem⟩
  sub k hk hkbase := by
    obtain ⟨hkne, hkF⟩ := Finset.mem_erase.mp hk
    exact Finset.mem_erase.mpr ⟨hkne, hI.sub k hkF hkbase⟩
  ring := hI.ring.erase hh (hI.ptr_ne_self hh hne)
  size_base := by
    rw [Function.update_of_ne (hI.ne_base_of_end hend hne).symm]
    exact hI.size_base

/-- A block becomes free and takes over the free block behind it. -/
theorem link_join (hI : FreeList base G H F ptr size) (hh : h ∈ H) (hp : p ∈ F)
    (hbetween : Between p h (ptr p)) (hend : h + 16 * size h = ptr p) :
    FreeList base G (H.erase (ptr p)) ((insert h F).erase (ptr p))
      (Function.update (Function.update ptr h (ptr (ptr p))) p h)
      (Function.update size h (size h + size (ptr p))) := by
  have hne : ptr p ≠ base := by
    rw [← hend]
    exact (hI.block_end hh).2.2
  have hself : ptr p ≠ p := hI.ptr_ne_self hp hne
  have hnext : Function.update (Function.update ptr h (ptr p)) p h h = ptr p := by
    rw [Function.update_of_ne hbetween.ne_left, Function.update_self]
  have hjoin := (hI.link hh hp hbetween).join (Finset.mem_insert_self h F) (hnext.trans_ne hne)
    (hend.trans hnext.symm)
  rw [hnext, Function.update_of_ne hself, Function.update_of_ne hbetween.ne_right.symm,
    Function.update_comm hbetween.ne_left.symm, Function.update_idem] at hjoin
  exact hjoin

/-- The free block behind `p` is taken. -/
theorem unlink (hI : FreeList base G H F ptr size) (hp : p ∈ F) (hne : ptr p ≠ base) :
    FreeList base G H (F.erase (ptr p)) (Function.update ptr p (ptr (ptr p))) size where
  static := hI.static
  territory := hI.territory
  tiling := hI.tiling
  base_mem := Finset.mem_erase.mpr ⟨hne.symm, hI.base_mem⟩
  sub k hk hkbase := hI.sub k (Finset.mem_of_mem_erase hk) hkbase
  ring := hI.ring.erase hp (hI.ptr_ne_self hp hne)
  size_base := hI.size_base

/-- The last `n` units of a block become a block of their own. -/
theorem split (hI : FreeList base G H F ptr size) (hh : h ∈ H) (hpos : 0 < n)
    (hn : n < size h) : FreeList base G (insert (h + 16 * (size h - n)) H) F ptr
      (Function.update (Function.update size h (size h - n)) (h + 16 * (size h - n)) n) where
  static := hI.static
  territory := hI.territory
  tiling := by
    refine hI.tiling.split hh (by omega) (by omega) ?_ fun x hx => ?_
    · rw [Function.update_self]
      omega
    · have hnew : x ≠ h + 16 * (size h - n) := fun heq =>
        hI.tiling.notMem_of_inside hh (n := 16 * (size h - n)) (by omega) (by omega) (heq ▸ hx)
      rw [Function.update_of_ne hnew]
      by_cases hxh : x = h
      · rw [if_pos hxh, hxh, Function.update_self]
      · rw [if_neg hxh, Function.update_of_ne hxh]
  base_mem := hI.base_mem
  sub k hk hkbase := Finset.mem_insert_of_mem (hI.sub k hk hkbase)
  ring := hI.ring
  size_base := by
    have hapart := hI.base_apart hh
    have hbase : base ≠ h := fun heq => hI.base_notMem (heq ▸ hh)
    rw [Function.update_of_ne (by omega), Function.update_of_ne hbase]
    exact hI.size_base

/-- New memory from `a` on is a block. -/
theorem grow (hI : FreeList base G H F ptr size) (hpos : 0 < nu)
    (hnew : ∀ x, a ≤ x → x < a + 16 * nu → ¬ G x)
    (hG : ∀ x, G' x ↔ (a ≤ x ∧ x < a + 16 * nu) ∨ G x)
    (hterritory : ∀ x, G' x → 0 < x ∧ x < 2 ^ 64 ∧ (x + 1 < base ∨ base + 16 ≤ x)) :
    FreeList base G' (insert a H) F ptr (Function.update size a nu) where
  static := hI.static
  territory := hterritory
  tiling := by
    refine hI.tiling.add (n := 16 * nu) (by omega) hnew hG ?_ fun x hx => ?_
    · rw [Function.update_self]
    · have hne : x ≠ a := by
        rintro rfl
        exact hnew x (Nat.le_refl x) (by omega) (hI.tiling.start_mem hx)
      rw [Function.update_of_ne hne]
  base_mem := hI.base_mem
  sub k hk hkbase := Finset.mem_insert_of_mem (hI.sub k hk hkbase)
  ring := hI.ring
  size_base := by
    have hbase : base ≠ a := by
      rintro rfl
      have hfirst := (hterritory base ((hG base).mpr (Or.inl ⟨Nat.le_refl _, by omega⟩))).2.2
      omega
    rw [Function.update_of_ne hbase]
    exact hI.size_base

end FreeList

end Heap

end ParchTestbench
