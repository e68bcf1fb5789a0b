import ParchTestbench.Machine.Tiling

/-!
# Maximal runs

A set of addresses falls into maximal runs.  A tiling in which no block begins where another one
ends consists of these runs, so a run of addresses lies in one block.

Main results:

- Theorem `Tiling.isRun_iff`: the blocks of a separated tiling are the maximal runs.
- Theorem `Tiling.exists_of_stretch`: a run of addresses lies in one block.
-/

namespace ParchTestbench

variable {G : Nat → Prop} {H : Finset Nat} {len : Nat → Nat} {a h n x : Nat}

/-- The `n` addresses from `a` on are in the set. -/
def Stretch (G : Nat → Prop) (a n : Nat) : Prop := ∀ x, a ≤ x → x < a + n → G x

/-- The `n` addresses from `a` on are in the set, and the addresses next to them are not. -/
structure IsRun (G : Nat → Prop) (a n : Nat) : Prop where
  pos : 0 < n
  stretch : Stretch G a n
  before : ∀ x, x + 1 = a → ¬ G x
  behind : ¬ G (a + n)

/-- No block begins where another one ends. -/
def Separated (H : Finset Nat) (len : Nat → Nat) : Prop := ∀ h ∈ H, h + len h ∉ H

namespace Tiling

/-- Some of the blocks cut up what they cover. -/
theorem of_subset {G' : Nat → Prop} {F : Finset Nat} (hT : Tiling G H len)
    (hsub : ∀ h ∈ F, h ∈ H) (hcover : ∀ x, G' x ↔ ∃ h ∈ F, h ≤ x ∧ x < h + len h) :
    Tiling G' F len where
  pos h hh := hT.pos h (hsub h hh)
  apart h hh k hk := hT.apart h (hsub h hh) k (hsub k hk)
  cover := hcover

/-- A block is a stretch of the set. -/
theorem stretch (hT : Tiling G H len) (hh : h ∈ H) : Stretch G h (len h) := fun _ hx hx' =>
  hT.mem hh hx hx'

/-- The address at the end of a block is in the set only if a block begins there. -/
theorem mem_of_end (hT : Tiling G H len) (hh : h ∈ H) (hx : G (h + len h)) : h + len h ∈ H := by
  obtain ⟨k, hk, hkx, hxk⟩ := (hT.cover _).mp hx
  have hpos := hT.pos h hh
  have hend := hT.apart h hh k hk
  have hne : k ≠ h := fun heq => by
    subst heq
    omega
  have hstart : k = h + len h := by
    rcases Nat.lt_or_gt_of_ne hne with hlt | hlt
    · have hover := hT.apart k hk h hh hlt
      omega
    · have hover := hend hlt
      omega
  exact hstart ▸ hk

/-- A stretch that begins in a block of a separated tiling ends in it. -/
theorem stretch_le (hT : Tiling G H len) (hsep : Separated H len) (hs : Stretch G a n) (hh : h ∈ H)
    (ha : a < h + len h) : a + n ≤ h + len h := by
  by_contra hlt
  exact hsep h hh (hT.mem_of_end hh (hs _ (by omega) (by omega)))

/-- A stretch lies in one block of a separated tiling. -/
theorem exists_of_stretch (hT : Tiling G H len) (hsep : Separated H len) (hn : 0 < n)
    (hs : Stretch G a n) : ∃ h ∈ H, h ≤ a ∧ a + n ≤ h + len h := by
  obtain ⟨h, hh, ha, ha'⟩ := (hT.cover a).mp (hs a (Nat.le_refl a) (by omega))
  exact ⟨h, hh, ha, hT.stretch_le hsep hs hh ha'⟩

/-- The blocks of a separated tiling are the maximal runs of the set. -/
theorem isRun_iff (hT : Tiling G H len) (hsep : Separated H len) :
    IsRun G h n ↔ h ∈ H ∧ n = len h := by
  constructor
  · intro hrun
    obtain ⟨k, hk, hkh, hend⟩ := hT.exists_of_stretch hsep hrun.pos hrun.stretch
    have hpos := hrun.pos
    -- the block begins with the run, and ends with it
    have hstart : k = h := by
      by_contra hne
      exact hrun.before (h - 1) (by omega) (hT.mem hk (by omega) (by omega))
    subst hstart
    refine ⟨hk, ?_⟩
    by_contra hne
    exact hrun.behind (hT.mem hk (by omega) (by omega))
  · rintro ⟨hh, rfl⟩
    refine ⟨hT.pos h hh, hT.stretch hh, fun x hx hG => ?_,
      fun hG => hsep h hh (hT.mem_of_end hh hG)⟩
    obtain ⟨k, hk, hkx, hxk⟩ := (hT.cover x).mp hG
    have hend := hT.apart k hk h hh (by omega)
    have hstart : k + len k = h := by omega
    exact hsep k hk (hstart ▸ hh)

end Tiling

end ParchTestbench
