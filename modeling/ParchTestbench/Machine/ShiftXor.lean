import Mathlib.Logic.Function.Iterate

/-!
# Shift-and-xor maps on bit vectors

A word xored with a shift of itself loses nothing: the bits that were not shifted in are there,
and from them the others.

Main results:

- Theorems `leftXor_injective` and `rightXor_injective`: the maps are injective.
- Theorem `eq_of_agreeBelow`: words that agree on all bits are the same.
- Theorem `AgreeBelow.shiftLeft`: a left shift carries agreement to higher bits.
-/

namespace ParchTestbench

namespace ShiftXor

variable {w s k : Nat} {x y x' y' : BitVec w}

/-- A word xored with its left shift. -/
def leftXor (s : Nat) (x : BitVec w) : BitVec w := x ^^^ x <<< s

/-- A word xored with its right shift. -/
def rightXor (s : Nat) (x : BitVec w) : BitVec w := x ^^^ x >>> s

theorem getLsbD_leftXor (i : Nat) (hi : i < w) :
    (leftXor s x).getLsbD i = (x.getLsbD i ^^ (!decide (i < s) && x.getLsbD (i - s))) := by
  rw [leftXor, BitVec.getLsbD_xor, BitVec.getLsbD_shiftLeft, decide_eq_true hi, Bool.true_and]

theorem getLsbD_rightXor (i : Nat) :
    (rightXor s x).getLsbD i = (x.getLsbD i ^^ x.getLsbD (s + i)) := by
  rw [rightXor, BitVec.getLsbD_xor, BitVec.getLsbD_ushiftRight]

/-- Two left shifts one after the other. -/
theorem leftXor_leftXor {t : Nat} :
    leftXor s (leftXor t x) = x ^^^ (x <<< s ^^^ x <<< t ^^^ x <<< (t + s)) := by
  rw [leftXor, leftXor, BitVec.shiftLeft_xor_distrib, BitVec.shiftLeft_add]
  ac_rfl

/-! ## Injectivity -/

/-- The low bits are kept, and each other bit follows from one below it. -/
theorem leftXor_injective (hs : 0 < s) : Function.Injective (leftXor s : BitVec w → BitVec w) := by
  intro x y heq
  have hbits : ∀ i, i < w → x.getLsbD i = y.getLsbD i := by
    intro i
    induction i using Nat.strongRecOn with
    | ind i ih =>
        intro hi
        have hbit := congrArg (fun z => z.getLsbD i) heq
        simp only [getLsbD_leftXor i hi] at hbit
        by_cases hlow : i < s
        · simpa [hlow] using hbit
        · rw [ih (i - s) (by omega) (by omega)] at hbit
          exact Bool.xor_left_inj.mp hbit
  exact BitVec.eq_of_getLsbD_eq hbits

/-- The high bits are kept, and each other bit follows from one above it. -/
theorem rightXor_injective (hs : 0 < s) :
    Function.Injective (rightXor s : BitVec w → BitVec w) := by
  intro x y heq
  have hbits : ∀ d i, w ≤ i + d → x.getLsbD i = y.getLsbD i := by
    intro d
    induction d with
    | zero =>
        intro i hi
        rw [BitVec.getLsbD_of_ge x i hi, BitVec.getLsbD_of_ge y i hi]
    | succ d ih =>
        intro i hi
        have hbit := congrArg (fun z => z.getLsbD i) heq
        simp only [getLsbD_rightXor, ih (s + i) (by omega)] at hbit
        exact Bool.xor_left_inj.mp hbit
  exact BitVec.eq_of_getLsbD_eq fun i _ => hbits w i (Nat.le_add_left w i)

theorem leftXor_zero : leftXor s (0 : BitVec w) = 0 := by
  simp [leftXor]

/-! ## Agreement on low bits -/

/-- Two words have the same lowest `k` bits. -/
def AgreeBelow (k : Nat) (x y : BitVec w) : Prop := ∀ i, i < k → x.getLsbD i = y.getLsbD i

theorem AgreeBelow.mono {j : Nat} (h : AgreeBelow k x y) (hj : j ≤ k) : AgreeBelow j x y :=
  fun i hi => h i (by omega)

theorem AgreeBelow.xor (h : AgreeBelow k x y) (h' : AgreeBelow k x' y') :
    AgreeBelow k (x ^^^ x') (y ^^^ y') := by
  intro i hi
  rw [BitVec.getLsbD_xor, BitVec.getLsbD_xor, h i hi, h' i hi]

/-- A left shift carries agreement to higher bits. -/
theorem AgreeBelow.shiftLeft (h : AgreeBelow k x y) (s : Nat) :
    AgreeBelow (k + s) (x <<< s) (y <<< s) := by
  intro i hi
  rw [BitVec.getLsbD_shiftLeft, BitVec.getLsbD_shiftLeft]
  by_cases hlow : i < s
  · rw [decide_eq_true hlow, Bool.not_true, Bool.and_false, Bool.false_and, Bool.false_and]
  · rw [h (i - s) (by omega)]

theorem eq_of_agreeBelow (h : AgreeBelow k x y) (hk : w ≤ k) : x = y :=
  BitVec.eq_of_getLsbD_eq fun i hi => h i (by omega)

/-- A map that carries agreement `s` bits further has at most one fixed point, which is found by
iterating it from anywhere. -/
theorem agreeBelow_iterate {g : BitVec w → BitVec w}
    (hg : ∀ k x y, AgreeBelow k x y → AgreeBelow (k + s) (g x) (g y)) (hx : g x = x) (n : Nat) :
    AgreeBelow (n * s) x (g^[n] y) := by
  induction n with
  | zero => exact fun i hi => absurd hi (by omega)
  | succ n ih =>
      have hnext := hg _ _ _ ih
      rw [hx, ← Function.iterate_succ_apply' g n y] at hnext
      exact hnext.mono (Nat.le_of_eq (Nat.succ_mul n s))

end ShiftXor

end ParchTestbench
