import ParchTestbench.Machine.ShiftXor

/-!
# The random read/write benchmark: its generator

`rand` of the benchmark is a xorshift generator on a 64-bit state, which the program never
seeds.

Main results:

- Theorem `xorshift_injective`: a step of the generator is injective.
- Theorem `eq_zero_of_fixed`: its only fixed point is zero.
- Theorem `neverStuck_iff`: the generator gets stuck exactly when it starts at zero.
-/

namespace ParchTestbench

namespace RandomRw

open ShiftXor

/-- `struct rand_state`. -/
structure RandState where
  a : UInt64
deriving DecidableEq, Repr

/-- `state` when the program starts: a global variable without an initializer. -/
def RandState.start : RandState := ⟨0⟩

/-- The step of the generator. -/
def xorshift (x : UInt64) : UInt64 :=
  let x := x ^^^ (x <<< 13)
  let x := x ^^^ (x >>> 7)
  x ^^^ (x <<< 17)

/-- `rand`. -/
def rand (state : RandState) : UInt64 × RandState :=
  let x := xorshift state.a
  (x, { state with a := x })

/-- The state after some calls of `rand`. -/
def RandState.after (n : Nat) (state : RandState) : RandState :=
  (fun state => (rand state).2)^[n] state

/-! ## The step -/

variable {x : UInt64} {state : RandState} {n : Nat}

/-- The step as shift-and-xor maps. -/
theorem toBitVec_xorshift :
    (xorshift x).toBitVec = leftXor 17 (rightXor 7 (leftXor 13 x.toBitVec)) :=
  rfl

/-- A step of the generator is injective. -/
theorem xorshift_injective : Function.Injective xorshift := by
  intro x y heq
  have hbits := congrArg UInt64.toBitVec heq
  rw [toBitVec_xorshift, toBitVec_xorshift] at hbits
  exact UInt64.toBitVec_inj.mp (leftXor_injective (by omega) (rightXor_injective (by omega)
    (leftXor_injective (by omega) hbits)))

/-- Zero is the only state that steps to zero. -/
theorem xorshift_eq_zero : xorshift x = 0 ↔ x = 0 :=
  ⟨fun h => xorshift_injective (h.trans rfl), fun h => by rw [h]; rfl⟩

/-! ## Fixed points -/

/-- What the last shift of a step and the first one do together, but for the word itself. -/
def feedback (z : BitVec 64) : BitVec 64 := z <<< 13 ^^^ z <<< 17 ^^^ z <<< 30

/-- The high bits of the word in the middle of a step that comes back, from its low bits `l`. -/
def refine (l u : BitVec 64) : BitVec 64 := feedback (u <<< 7 ^^^ l ^^^ u)

theorem refine_agreeBelow (l : BitVec 64) (k : Nat) (u v : BitVec 64) (h : AgreeBelow k u v) :
    AgreeBelow (k + 13) (refine l u) (refine l v) := by
  have hword : AgreeBelow k (u <<< 7 ^^^ l ^^^ u) (v <<< 7 ^^^ l ^^^ v) :=
    ((((h.shiftLeft 7).mono (by omega)).xor fun _ _ => rfl)).xor h
  exact ((hword.shiftLeft 13).xor ((hword.shiftLeft 17).mono (by omega))).xor
    ((hword.shiftLeft 30).mono (by omega))

/-- From seven low bits other than zero no high bits follow that fit. -/
theorem refine_overflows : ∀ l : Fin 128,
    (refine (BitVec.ofNat 64 l))^[5] 0 >>> 57 = 0 → l = 0 := by
  decide +kernel

/-- The middle word of a step that comes back: its high bits follow from its low ones. -/
theorem refine_of_fixed {b y : BitVec 64} (hy : y = leftXor 13 b)
    (hfixed : leftXor 17 (rightXor 7 y) = b) (l : BitVec 64) (hl : y = y >>> 7 <<< 7 ^^^ l) :
    refine l (y >>> 7) = y >>> 7 := by
  obtain ⟨z, hz⟩ : ∃ z, z = rightXor 7 y := ⟨_, rfl⟩
  have hword : y >>> 7 <<< 7 ^^^ l ^^^ y >>> 7 = z := by
    rw [← hl, hz]
    rfl
  have hy' : y = z ^^^ feedback z := by
    rw [hy, ← hfixed, ← hz, leftXor_leftXor]
    rfl
  have hhigh : y >>> 7 = y ^^^ z := by
    rw [hz, rightXor, ← BitVec.xor_assoc, BitVec.xor_self, BitVec.zero_xor]
  rw [refine, hword, hhigh, hy', BitVec.xor_comm z, BitVec.xor_assoc, BitVec.xor_self,
    BitVec.xor_zero]

/-- A word is its high bits and its lowest seven bits. -/
theorem split_low (y : BitVec 64) : y = y >>> 7 <<< 7 ^^^ BitVec.ofNat 64 (y.toNat % 128) := by
  refine BitVec.eq_of_getLsbD_eq fun i hi => ?_
  have hlow : (BitVec.ofNat 64 (y.toNat % 128)).getLsbD i = (decide (i < 7) && y.getLsbD i) := by
    rw [BitVec.getLsbD_ofNat, decide_eq_true hi, Bool.true_and, show 128 = 2 ^ 7 by rfl,
      Nat.testBit_mod_two_pow]
    rfl
  rw [BitVec.getLsbD_xor, BitVec.getLsbD_shiftLeft, BitVec.getLsbD_ushiftRight, hlow,
    decide_eq_true hi, Bool.true_and]
  by_cases h : i < 7
  · rw [decide_eq_true h]
    simp
  · rw [decide_eq_false h, show 7 + (i - 7) = i by omega]
    simp

/-- The only fixed point of the step is zero. -/
theorem eq_zero_of_fixed (h : xorshift x = x) : x = 0 := by
  obtain ⟨y, hy⟩ : ∃ y, y = leftXor 13 x.toBitVec := ⟨_, rfl⟩
  have hfixed : leftXor 17 (rightXor 7 y) = x.toBitVec := by
    rw [hy, ← toBitVec_xorshift, h]
  obtain ⟨l, hl⟩ : ∃ l : Fin 128, (l : Nat) = y.toNat % 128 :=
    ⟨⟨y.toNat % 128, Nat.mod_lt _ (by omega)⟩, rfl⟩
  have hsplit := split_low y
  rw [← hl] at hsplit
  have hrefine := refine_of_fixed hy hfixed _ hsplit
  -- five rounds reach all 64 bits
  have hiterate : y >>> 7 = (refine (BitVec.ofNat 64 l))^[5] 0 :=
    eq_of_agreeBelow (agreeBelow_iterate (refine_agreeBelow _) hrefine 5) (by omega)
  have hfits : (refine (BitVec.ofNat 64 l))^[5] 0 >>> 57 = 0 := by
    rw [← hiterate, ← BitVec.shiftRight_add]
    exact BitVec.ushiftRight_eq_zero (Nat.le_refl 64)
  have hzero := refine_overflows l hfits
  have hy0 : y = 0 := by
    rw [hsplit, hiterate, hzero]
    decide
  rw [hy0] at hy
  have hx := leftXor_injective (show 0 < 13 by omega) (hy.symm.trans leftXor_zero.symm)
  exact UInt64.toBitVec_inj.mp hx

/-! ## Every run -/

/-- The generator is never stuck: after any number of calls its state is not zero, and the next
call changes it. -/
structure NeverStuck (state : RandState) : Prop where
  nonzero : ∀ n, (state.after n).a ≠ 0
  changes : ∀ n, (rand (state.after n)).2 ≠ state.after n

theorem RandState.after_succ : state.after (n + 1) = (rand (state.after n)).2 :=
  Function.iterate_succ_apply' _ n state

/-- One call keeps the state from zero, and a run of calls does. -/
theorem RandState.after_ne_zero (h : state.a ≠ 0) : (state.after n).a ≠ 0 := by
  induction n with
  | zero => exact h
  | succ n ih =>
      rw [after_succ]
      exact fun hzero => ih (xorshift_eq_zero.mp hzero)

/-- The generator is never stuck exactly when it does not start at zero; this rests on the step
being injective, with zero as the only state that steps to zero. -/
theorem neverStuck_iff (state : RandState) :
    Function.Injective xorshift ∧ (∀ x, xorshift x = 0 ↔ x = 0) ∧
      (NeverStuck state ↔ state.a ≠ 0) := by
  refine ⟨xorshift_injective, fun _ => xorshift_eq_zero, fun h => h.nonzero 0,
    fun h => ⟨fun n => RandState.after_ne_zero h, fun n hsame => ?_⟩⟩
  have hfixed : xorshift (state.after n).a = (state.after n).a := congrArg RandState.a hsame
  exact RandState.after_ne_zero h (eq_zero_of_fixed hfixed)

/-- The program starts at zero, which no call leaves. -/
theorem not_neverStuck : ¬ NeverStuck RandState.start := fun h => h.nonzero 0 rfl

end RandomRw

end ParchTestbench
