import Mathlib.Data.Finset.Card
import Mathlib.Tactic.Common

/-!
# Tilings by blocks

A set of addresses that is cut into blocks.  A block is known by its first address and has a
length; no two blocks overlap and together they are the whole set.

Main results:

- Theorems `Tiling.join`, `Tiling.split` and `Tiling.add`: neighbours become one block, a block
  becomes two, and a new piece of the set becomes a block.
-/

namespace ParchTestbench

/-- The blocks that start at the members of `H` cut up the set `G`. -/
structure Tiling (G : Nat → Prop) (H : Finset Nat) (len : Nat → Nat) : Prop where
  pos : ∀ h ∈ H, 0 < len h
  apart : ∀ h ∈ H, ∀ k ∈ H, h < k → h + len h ≤ k
  cover : ∀ x, G x ↔ ∃ h ∈ H, h ≤ x ∧ x < h + len h

namespace Tiling

variable {G G' : Nat → Prop} {H : Finset Nat} {len len' : Nat → Nat} {h k n x : Nat}

theorem congr (hT : Tiling G H len) (hlen : ∀ h ∈ H, len' h = len h) : Tiling G H len' where
  pos h hh := by
    rw [hlen h hh]
    exact hT.pos h hh
  apart h hh := by
    rw [hlen h hh]
    exact hT.apart h hh
  cover x := by
    rw [hT.cover]
    refine exists_congr fun h => and_congr_right fun hh => ?_
    rw [hlen h hh]

theorem mem (hT : Tiling G H len) (hh : h ∈ H) (hx : h ≤ x) (hx' : x < h + len h) : G x :=
  (hT.cover x).mpr ⟨h, hh, hx, hx'⟩

theorem start_mem (hT : Tiling G H len) (hh : h ∈ H) : G h :=
  hT.mem hh (Nat.le_refl h) (Nat.lt_add_of_pos_right (hT.pos h hh))

/-- An address is in one block only. -/
theorem eq_of_mem (hT : Tiling G H len) (hh : h ∈ H) (hk : k ∈ H) (hhx : h ≤ x)
    (hhx' : x < h + len h) (hkx : k ≤ x) (hkx' : x < k + len k) : h = k := by
  rcases Nat.lt_trichotomy h k with hlt | heq | hlt
  · have hend := hT.apart h hh k hk hlt
    omega
  · exact heq
  · have hend := hT.apart k hk h hh hlt
    omega

/-- The set that no block covers is empty. -/
theorem empty (hG : ∀ x, ¬ G x) : Tiling G ∅ len where
  pos h hh := absurd hh (Finset.notMem_empty h)
  apart h hh := absurd hh (Finset.notMem_empty h)
  cover x := by
    refine ⟨fun hx => absurd hx (hG x), ?_⟩
    rintro ⟨h, hh, -⟩
    exact absurd hh (Finset.notMem_empty h)

/-- A block takes over the one behind it. -/
theorem join (hT : Tiling G H len) (hh : h ∈ H) (hk : h + len h ∈ H)
    (hlen : ∀ x ∈ H, len' x = if x = h then len h + len (h + len h) else len x) :
    Tiling G (H.erase (h + len h)) len' where
  pos x hx := by
    obtain ⟨-, hxH⟩ := Finset.mem_erase.mp hx
    have hpos := hT.pos x hxH
    have hposh := hT.pos h hh
    rw [hlen x hxH]
    split <;> omega
  apart x hx y hy hxy := by
    obtain ⟨hxk, hxH⟩ := Finset.mem_erase.mp hx
    obtain ⟨hyk, hyH⟩ := Finset.mem_erase.mp hy
    have hend := hT.apart x hxH y hyH hxy
    rw [hlen x hxH]
    split
    · rename_i heq
      subst heq
      -- what starts behind the first block starts behind the second
      have hbehind := hT.apart _ hk y hyH (by omega)
      omega
    · exact hend
  cover x := by
    rw [hT.cover]
    have hself := hlen h hh
    rw [if_pos rfl] at hself
    have hpos := hT.pos h hh
    have hhk : h ∈ H.erase (h + len h) := Finset.mem_erase.mpr ⟨by omega, hh⟩
    constructor
    · rintro ⟨y, hyH, hyx, hxy⟩
      by_cases hy : y = h ∨ y = h + len h
      · refine ⟨h, hhk, ?_, ?_⟩ <;> rcases hy with rfl | rfl <;> omega
      · refine ⟨y, Finset.mem_erase.mpr ⟨by omega, hyH⟩, hyx, ?_⟩
        rwa [hlen y hyH, if_neg (by omega)]
    · rintro ⟨y, hy, hyx, hxy⟩
      obtain ⟨hyk, hyH⟩ := Finset.mem_erase.mp hy
      rw [hlen y hyH] at hxy
      by_cases hyh : y = h
      · rw [if_pos hyh] at hxy
        subst hyh
        rcases Nat.lt_or_ge x (y + len y) with hfirst | hsecond
        · exact ⟨y, hyH, hyx, hfirst⟩
        · exact ⟨y + len y, hk, hsecond, by omega⟩
      · rw [if_neg hyh] at hxy
        exact ⟨y, hyH, hyx, hxy⟩

/-- What starts inside of a block is not the start of another. -/
theorem notMem_of_inside (hT : Tiling G H len) (hh : h ∈ H) (hpos : 0 < n) (hn : n < len h) :
    h + n ∉ H := by
  intro hmem
  have hend := hT.apart h hh (h + n) hmem (by omega)
  omega

/-- The end of a block becomes a block of its own. -/
theorem split (hT : Tiling G H len) (hh : h ∈ H) (hpos : 0 < n) (hn : n < len h)
    (hnew : len' (h + n) = len h - n)
    (hlen : ∀ x ∈ H, len' x = if x = h then n else len x) :
    Tiling G (insert (h + n) H) len' where
  pos x hx := by
    rcases Finset.mem_insert.mp hx with rfl | hxH
    · omega
    · have hposx := hT.pos x hxH
      rw [hlen x hxH]
      split <;> omega
  apart x hx y hy hxy := by
    rcases Finset.mem_insert.mp hx with rfl | hxH
    · rcases Finset.mem_insert.mp hy with rfl | hyH
      · omega
      · have hend := hT.apart h hh y hyH (by omega)
        omega
    · rcases Finset.mem_insert.mp hy with rfl | hyH
      · rw [hlen x hxH]
        split
        · omega
        · rename_i hxh
          rcases Nat.lt_or_ge x h with hbefore | hafter
          · have hend := hT.apart x hxH h hh hbefore
            omega
          · have hend := hT.apart h hh x hxH (by omega)
            omega
      · have hend := hT.apart x hxH y hyH hxy
        rw [hlen x hxH]
        split
        · rename_i hxh
          subst hxh
          omega
        · exact hend
  cover x := by
    rw [hT.cover]
    have hself := hlen h hh
    rw [if_pos rfl] at hself
    constructor
    · rintro ⟨y, hyH, hyx, hxy⟩
      by_cases hyh : y = h
      · subst hyh
        rcases Nat.lt_or_ge x (y + n) with hfirst | hsecond
        · exact ⟨y, Finset.mem_insert_of_mem hyH, hyx, by omega⟩
        · exact ⟨y + n, Finset.mem_insert_self _ _, hsecond, by omega⟩
      · refine ⟨y, Finset.mem_insert_of_mem hyH, hyx, ?_⟩
        rwa [hlen y hyH, if_neg hyh]
    · rintro ⟨y, hy, hyx, hxy⟩
      rcases Finset.mem_insert.mp hy with rfl | hyH
      · exact ⟨h, hh, by omega, by omega⟩
      · rw [hlen y hyH] at hxy
        split at hxy
        · rename_i hyh
          exact ⟨y, hyH, hyx, by subst hyh; omega⟩
        · exact ⟨y, hyH, hyx, hxy⟩

/-- A piece that was not in the set becomes a block. -/
theorem add (hT : Tiling G H len) (hpos : 0 < n) (hnew : ∀ x, h ≤ x → x < h + n → ¬ G x)
    (hG : ∀ x, G' x ↔ (h ≤ x ∧ x < h + n) ∨ G x) (hself : len' h = n)
    (hlen : ∀ x ∈ H, len' x = len x) : Tiling G' (insert h H) len' where
  pos x hx := by
    rcases Finset.mem_insert.mp hx with rfl | hxH
    · omega
    · rw [hlen x hxH]
      exact hT.pos x hxH
  apart x hx y hy hxy := by
    rcases Finset.mem_insert.mp hx with rfl | hxH
    · rcases Finset.mem_insert.mp hy with rfl | hyH
      · omega
      · -- the block at `y` would start inside of the piece
        by_contra hlt
        exact hnew y (by omega) (by omega) (hT.start_mem hyH)
    · rw [hlen x hxH]
      rcases Finset.mem_insert.mp hy with rfl | hyH
      · by_contra hlt
        exact hnew y (Nat.le_refl y) (by omega) (hT.mem hxH (by omega) (by omega))
      · exact hT.apart x hxH y hyH hxy
  cover x := by
    rw [hG, hT.cover]
    constructor
    · rintro (hx | ⟨y, hyH, hyx, hxy⟩)
      · exact ⟨h, Finset.mem_insert_self _ _, hx.1, by omega⟩
      · exact ⟨y, Finset.mem_insert_of_mem hyH, hyx, by rwa [hlen y hyH]⟩
    · rintro ⟨y, hy, hyx, hxy⟩
      rcases Finset.mem_insert.mp hy with rfl | hyH
      · exact Or.inl ⟨hyx, by omega⟩
      · exact Or.inr ⟨y, hyH, hyx, by rwa [hlen y hyH] at hxy⟩

end Tiling

end ParchTestbench
