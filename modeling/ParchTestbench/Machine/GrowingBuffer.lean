import Mathlib.Data.Nat.Log
import Mathlib.Tactic.Ring

/-!
# Growing buffers

A buffer that is too small is replaced by one of twice its capacity.  Where no single growth has
to be larger than that, the capacities that it goes through are decided by the largest size that
it has ever had to hold.

Main results:

- Theorem `sizes_of_le`: as long as there is room, nothing is asked for.
- Theorem `sizes_of_lt`: a size beyond the capacity adds one growth.
-/

namespace ParchTestbench

namespace GrowingBuffer

/-- The capacity that replaces `cap` when room for `needed` is asked for. -/
def grow (first cap needed : Nat) : Nat := max first (max (2 * cap) needed)

/-- The capacity after some doublings, the first of which makes it `first`. -/
def capacity (first : Nat) : Nat → Nat
  | 0 => 0
  | k + 1 => first * 2 ^ k

/-- The number of doublings until there is room for `n`. -/
def growths (first n : Nat) : Nat :=
  if n = 0 then 0 else Nat.clog 2 ((n + first - 1) / first) + 1

/-- The capacities that a buffer goes through until it has room for `n`. -/
def sizes (first n : Nat) : List Nat :=
  (List.range (growths first n)).map fun k => capacity first (k + 1)

variable {first n m k needed : Nat}

/-- The doublings stop when there is room. -/
theorem growths_le_iff (hfirst : 0 < first) : growths first n ≤ k ↔ n ≤ capacity first k := by
  unfold growths
  cases k with
  | zero =>
      simp only [capacity, Nat.le_zero]
      split <;> simp_all
  | succ k =>
      by_cases hn : n = 0
      · simp [hn]
      · rw [if_neg hn, Nat.add_le_add_iff_right, Nat.clog_le_iff_le_pow Nat.one_lt_two,
          Nat.div_le_iff_le_mul_add_pred hfirst, capacity]
        omega

theorem le_capacity (hfirst : 0 < first) (n : Nat) : n ≤ capacity first (growths first n) :=
  (growths_le_iff hfirst).mp (Nat.le_refl _)

theorem growths_mono (hfirst : 0 < first) (h : n ≤ m) : growths first n ≤ growths first m :=
  (growths_le_iff hfirst).mpr (h.trans (le_capacity hfirst m))

theorem capacity_mono (h : n ≤ m) : capacity first n ≤ capacity first m := by
  match n, m with
  | 0, _ => exact Nat.zero_le _
  | n + 1, m + 1 =>
      have hle : n ≤ m := Nat.le_of_succ_le_succ h
      exact Nat.mul_le_mul_left first (Nat.pow_le_pow_right Nat.zero_lt_two hle)

/-- A growth that need not be larger doubles the capacity. -/
theorem grow_capacity (hlt : capacity first k < needed)
    (hle : needed ≤ capacity first k + first) :
    grow first (capacity first k) needed = capacity first (k + 1) := by
  unfold grow
  cases k with
  | zero =>
      simp only [capacity, Nat.mul_zero, Nat.pow_zero, Nat.mul_one] at *
      omega
  | succ k =>
      have hpow : first ≤ first * 2 ^ k := Nat.le_mul_of_pos_right _ (Nat.two_pow_pos k)
      have hdouble : first * 2 ^ (k + 1) = 2 * (first * 2 ^ k) := by
        rw [Nat.pow_succ, ← Nat.mul_assoc, Nat.mul_comm]
      simp only [capacity] at *
      omega

/-- The last of the capacities. -/
theorem getLastD_sizes (first n : Nat) :
    (sizes first n).getLastD 0 = capacity first (growths first n) := by
  unfold sizes
  cases growths first n with
  | zero => rfl
  | succ k => rw [List.range_succ, List.map_append, List.map_singleton, List.getLastD_concat]

theorem sizes_front (hfirst : 0 < first) (h : n ≤ m) : sizes first n <+: sizes first m := by
  obtain ⟨d, hd⟩ := Nat.exists_eq_add_of_le (growths_mono hfirst h)
  unfold sizes
  rw [hd, List.range_add, List.map_append]
  exact List.prefix_append _ _

/-- As long as there is room, nothing is asked for. -/
theorem sizes_of_le (hfirst : 0 < first) (h : needed ≤ capacity first (growths first n)) :
    sizes first (max n needed) = sizes first n := by
  have hle : growths first (max n needed) ≤ growths first n :=
    (growths_le_iff hfirst).mpr (max_le (le_capacity hfirst n) h)
  have heq := Nat.le_antisymm hle (growths_mono hfirst (le_max_left n needed))
  rw [sizes, heq, sizes]

/-- A size beyond the capacity adds one growth. -/
theorem sizes_of_lt (hfirst : 0 < first) (hlt : capacity first (growths first n) < needed)
    (hle : needed ≤ capacity first (growths first n) + first) :
    sizes first (max n needed) =
      sizes first n ++ [grow first (capacity first (growths first n)) needed] := by
  have hgrow := grow_capacity hlt hle
  have hroom : needed ≤ capacity first (growths first n + 1) := by
    rw [← hgrow]
    exact (le_max_right _ _).trans (le_max_right _ _)
  have hmore : growths first n < growths first (max n needed) := by
    by_contra hge
    have hheld := (growths_le_iff hfirst).mp (Nat.le_of_not_lt hge)
    exact absurd ((le_max_right n needed).trans hheld) (Nat.not_le_of_lt hlt)
  have hless : growths first (max n needed) ≤ growths first n + 1 :=
    (growths_le_iff hfirst).mpr
      (max_le ((le_capacity hfirst n).trans (capacity_mono (Nat.le_succ _))) hroom)
  have heq : growths first (max n needed) = growths first n + 1 := Nat.le_antisymm hless hmore
  rw [sizes, heq, List.range_succ, List.map_append, List.map_singleton, hgrow, sizes]

end GrowingBuffer

end ParchTestbench
