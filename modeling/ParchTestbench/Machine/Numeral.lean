import Mathlib.Data.Nat.Digits.Lemmas

/-!
# Positional numerals

The digits of a number in a base, most significant first, without leading zeros.

Main results:

- Theorem `digitsOf_of_div_ne_zero`: a numeral is the numeral of the quotient and one digit.
- Theorem `canonical_digitsOf`: the numeral of a number is canonical, and reads back.
- Theorem `Canonical.eq`: there is no other canonical numeral.
-/

namespace ParchTestbench

namespace Numeral

/-- The digits of `n` in base `b`, most significant first; zero has one digit. -/
def digitsOf (b n : Nat) : List Nat := if n = 0 then [0] else (Nat.digits b n).reverse

/-- The number with these digits, by Horner's rule. -/
def value (b : Nat) (ds : List Nat) : Nat := ds.foldl (fun acc d => acc * b + d) 0

variable {b n d k : Nat} {ds : List Nat}

theorem value_concat : value b (ds ++ [d]) = value b ds * b + d := by
  rw [value, List.foldl_append]
  rfl

/-! ## The numeral of a number -/

/-- A number below the base has one digit. -/
theorem digitsOf_of_lt (h : n < b) : digitsOf b n = [n] := by
  unfold digitsOf
  split
  · rename_i hzero
    rw [hzero]
  · rename_i hne
    rw [Nat.digits_of_lt b n hne h]
    rfl

/-- A longer numeral is that of the quotient with the remainder behind it. -/
theorem digitsOf_of_div_ne_zero (hb : 1 < b) (h : n / b ≠ 0) :
    digitsOf b n = digitsOf b (n / b) ++ [n % b] := by
  have hn : n ≠ 0 := fun hzero => h (by rw [hzero, Nat.zero_div])
  rw [digitsOf, if_neg hn, digitsOf, if_neg h, Nat.digits_def' hb (Nat.pos_of_ne_zero hn),
    List.reverse_cons]

theorem length_digitsOf_le (hb : 1 < b) (hk : 1 ≤ k) (h : n < b ^ k) :
    (digitsOf b n).length ≤ k := by
  unfold digitsOf
  split
  · exact hk
  · rw [List.length_reverse]
    exact (Nat.digits_length_le_iff hb n).mpr h

/-! ## Canonical numerals -/

/-- A numeral of `n`: digits below the base, and a leading zero in the numeral of zero only. -/
structure Canonical (b n : Nat) (ds : List Nat) : Prop where
  lt : ∀ d ∈ ds, d < b
  ne_nil : ds ≠ []
  head : ds.head? = some 0 → ds = [0]
  value_eq : value b ds = n

/-- The numeral of a number is canonical. -/
theorem canonical_digitsOf (hb : 1 < b) (n : Nat) : Canonical b n (digitsOf b n) := by
  induction n using Nat.strong_induction_on with
  | _ n ih =>
      by_cases hlt : n < b
      · rw [digitsOf_of_lt hlt]
        refine ⟨fun d hd => ?_, List.cons_ne_nil _ _, fun hhead => ?_, ?_⟩
        · rw [List.mem_singleton.mp hd]
          exact hlt
        · rw [List.head?_cons, Option.some_inj] at hhead
          rw [hhead]
        · rw [value, List.foldl_cons, Nat.zero_mul, Nat.zero_add]
          rfl
      · have hpos : 0 < n / b := Nat.div_pos (Nat.le_of_not_lt hlt) (by omega)
        have hquot := ih (n / b) (Nat.div_lt_self (by omega) hb)
        rw [digitsOf_of_div_ne_zero hb hpos.ne']
        refine ⟨fun d hd => ?_, List.append_ne_nil_of_left_ne_nil hquot.ne_nil _,
          fun hhead => ?_, ?_⟩
        · rcases List.mem_append.mp hd with hmem | hlast
          · exact hquot.lt d hmem
          · rw [List.mem_singleton.mp hlast]
            exact Nat.mod_lt _ (by omega)
        · -- the quotient is not zero, and so does not start with one
          rw [List.head?_append_of_ne_nil _ hquot.ne_nil] at hhead
          have hvalue := hquot.value_eq
          rw [hquot.head hhead] at hvalue
          exact absurd (hvalue.symm.trans (by simp [value])) hpos.ne'
        · rw [value_concat, hquot.value_eq, Nat.div_add_mod']

/-- A list of digits below the base that starts with no zero has a value that is not zero. -/
theorem value_pos (hb : 1 < b) (hne : ds ≠ []) (hhead : ds.head? ≠ some 0) : 0 < value b ds := by
  induction ds using List.reverseRecOn with
  | nil => exact absurd rfl hne
  | append_singleton ds d ih =>
      rw [value_concat]
      by_cases hds : ds = []
      · rw [hds, List.nil_append, List.head?_cons, ne_eq, Option.some_inj] at hhead
        omega
      · rw [List.head?_append_of_ne_nil _ hds] at hhead
        have hmul := Nat.mul_pos (ih hds hhead) (show 0 < b by omega)
        omega

/-- There is one canonical numeral for each number. -/
theorem Canonical.eq (h : Canonical b n ds) (hb : 1 < b) : ds = digitsOf b n := by
  induction ds using List.reverseRecOn generalizing n with
  | nil => exact absurd rfl h.ne_nil
  | append_singleton ds d ih =>
      have hd : d < b := h.lt d (List.mem_append_right _ (List.mem_singleton_self d))
      have hvalue := h.value_eq
      rw [value_concat] at hvalue
      by_cases hne : ds = []
      · rw [hne, show value b [] = 0 from rfl, Nat.zero_mul, Nat.zero_add] at hvalue
        rw [hne, ← hvalue, digitsOf_of_lt hd]
        rfl
      · have hnozero : ds.head? ≠ some 0 := fun hzero => by
          have hone := h.head (by rw [List.head?_append_of_ne_nil _ hne, hzero])
          have hlen := congrArg List.length hone
          rw [List.length_append, List.length_singleton, List.length_singleton] at hlen
          exact hne (List.length_eq_zero_iff.mp (by omega))
        have hpos := value_pos hb hne hnozero
        have hquot : n / b = value b ds := by
          rw [← hvalue, Nat.mul_comm, Nat.mul_add_div (by omega), Nat.div_eq_of_lt hd, Nat.add_zero]
        have hrem : n % b = d := by
          rw [← hvalue, Nat.mul_comm, Nat.mul_add_mod, Nat.mod_eq_of_lt hd]
        have hfront : Canonical b (n / b) ds := by
          refine ⟨fun d' hd' => h.lt d' (List.mem_append_left _ hd'), hne,
            fun hzero => absurd hzero hnozero, hquot.symm⟩
        rw [digitsOf_of_div_ne_zero hb (by omega), hrem, ← ih hfront]

end Numeral

end ParchTestbench
