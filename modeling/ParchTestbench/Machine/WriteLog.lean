import ParchTestbench.Machine.ByteMemory
import Mathlib.Data.List.Induction

/-!
# Byte arrays as logs of writes

The abstract model of a file: the writes made to it in their order, each an offset with
the bytes written there.  A file of records is the special case in which every write is
as long as a record and begins where the one before ended.

Main results:

- Theorem `overlay_eq_lastByte`: a byte is the one of the last write that covers it.
- Theorem `packed_record`: a packed record reads back at its place.
-/

namespace ParchTestbench

namespace Mem

/-- A memory of zero bytes. -/
def blank : Mem := fun _ => 0

end Mem

/-- Writes in their order: offset and bytes. -/
abbrev WriteLog := List (Nat × List UInt8)

namespace WriteLog

open Mem (blank copy)

/-- The byte array after the writes. -/
def overlay (ws : WriteLog) : Mem := ws.foldl (fun m w => copy m w.1 w.2) blank

/-- The end of the furthest write. -/
def extent (ws : WriteLog) : Nat := ws.foldl (fun n w => max n (w.1 + w.2.length)) 0

/-- The write covers offset `o`. -/
def Covers (w : Nat × List UInt8) (o : Nat) : Prop := w.1 ≤ o ∧ o < w.1 + w.2.length

instance (w : Nat × List UInt8) (o : Nat) : Decidable (Covers w o) :=
  inferInstanceAs (Decidable (_ ∧ _))

/-- The byte that the last write to cover `o` has put there, zero if there is none. -/
def lastByte (ws : WriteLog) (o : Nat) : UInt8 :=
  match (ws.filter (fun w => Covers w o)).getLast? with
  | some w => w.2[o - w.1]?.getD 0
  | none => 0

variable {ws : WriteLog} {w : Nat × List UInt8} {o n : Nat}

@[simp]
theorem extent_nil : extent [] = 0 := rfl

@[simp]
theorem overlay_concat : overlay (ws ++ [w]) = copy (overlay ws) w.1 w.2 := by
  rw [overlay, List.foldl_append]
  rfl

@[simp]
theorem extent_concat : extent (ws ++ [w]) = max (extent ws) (w.1 + w.2.length) := by
  rw [extent, List.foldl_append]
  rfl

/-- A byte is the one of the last write that covers it. -/
theorem overlay_eq_lastByte (ws : WriteLog) (o : Nat) : overlay ws o = lastByte ws o := by
  induction ws using List.reverseRecOn with
  | nil => rfl
  | append_singleton ws w ih =>
      rw [overlay_concat, lastByte, List.filter_append]
      by_cases hw : Covers w o
      · have hidx : o - w.1 < w.2.length := by
          have hend := hw.2
          have hstart := hw.1
          omega
        rw [List.filter_cons_of_pos (by exact decide_eq_true hw), List.filter_nil,
          List.getLast?_concat, Mem.copy_of_mem hw.1 hidx]
        simp only [List.getElem?_eq_getElem hidx, Option.getD_some]
      · rw [List.filter_cons_of_neg (by rw [decide_eq_true_iff]; exact hw), List.filter_nil,
          List.append_nil, Mem.copy_of_notMem (by unfold Covers at hw; omega), ih]
        rfl

theorem extent_le_iff : extent ws ≤ n ↔ ∀ w ∈ ws, w.1 + w.2.length ≤ n := by
  induction ws using List.reverseRecOn with
  | nil => simp
  | append_singleton ws w ih =>
      rw [extent_concat, Nat.max_le, ih]
      simp only [List.mem_append, List.mem_singleton, or_imp, forall_and, forall_eq]

end WriteLog

/-! ## Packed records -/

namespace Mem

variable {size j k x : Nat} {rs : List (List UInt8)} {r : List UInt8}

/-- Records one behind the other. -/
def packed (rs : List (List UInt8)) : Mem := copy blank 0 rs.flatten

theorem length_flatten (hsize : ∀ r ∈ rs, r.length = size) :
    rs.flatten.length = size * rs.length := by
  induction rs with
  | nil => rfl
  | cons r rs ih =>
      rw [List.flatten_cons, List.length_append, List.length_cons,
        hsize r List.mem_cons_self, ih fun r hr => hsize r (List.mem_cons_of_mem _ hr),
        Nat.mul_succ, Nat.add_comm]

/-- A record copied behind the others. -/
theorem copy_packed (hsize : ∀ r ∈ rs, r.length = size) :
    copy (packed rs) (size * rs.length) r = packed (rs ++ [r]) := by
  have happend := copy_append (m := blank) (a := 0) rs.flatten r
  rw [Nat.zero_add, length_flatten hsize] at happend
  rw [packed, happend, packed, List.flatten_append, List.flatten_singleton]

/-- Behind the records all bytes are zero. -/
theorem packed_of_ge (hsize : ∀ r ∈ rs, r.length = size) (hx : size * rs.length ≤ x) :
    packed rs x = 0 :=
  copy_of_notMem (Or.inr (by rw [length_flatten hsize]; omega))

/-- A packed record reads back at its place. -/
theorem packed_record (hsize : ∀ r ∈ rs, r.length = size) (hj : rs[j]? = some r) (hk : k < size) :
    some (packed rs (size * j + k)) = r[k]? := by
  induction rs using List.reverseRecOn generalizing r with
  | nil => cases hj
  | append_singleton rs r' ih =>
      have hsize' : ∀ r ∈ rs, r.length = size := fun r hr => hsize r (List.mem_append_left _ hr)
      have hlen : r'.length = size :=
        hsize r' (List.mem_append_right _ (List.mem_singleton_self r'))
      rw [← copy_packed hsize']
      rcases Nat.lt_or_ge j rs.length with hlt | hge
      · rw [List.getElem?_append_left hlt] at hj
        have hbefore : size * j + k < size * rs.length := by
          have hmul : size * (j + 1) ≤ size * rs.length := Nat.mul_le_mul_left size hlt
          rw [Nat.mul_succ] at hmul
          omega
        rw [copy_of_notMem (Or.inl hbefore)]
        exact ih hsize' hj
      · rw [List.getElem?_append_right hge] at hj
        have hlast : j - rs.length = 0 := by
          rcases hd : j - rs.length with _ | d
          · rfl
          · rw [hd] at hj
            cases hj
        rw [hlast] at hj
        cases hj
        have hjeq : j = rs.length := by omega
        rw [hjeq, copy_of_mem (Nat.le_add_right _ _) (by omega)]
        rw [List.getElem?_eq_getElem (by omega)]
        simp only [Nat.add_sub_cancel_left]

/-- Records of one size are determined by the bytes in which they lie. -/
theorem packed_injective {rs' : List (List UInt8)} (hsize : ∀ r ∈ rs, r.length = size)
    (hsize' : ∀ r ∈ rs', r.length = size) (hlen : rs.length = rs'.length)
    (heq : packed rs = packed rs') : rs = rs' := by
  refine List.ext_getElem hlen fun j hj hj' => ?_
  have hone := hsize _ (List.getElem_mem hj)
  have htwo := hsize' _ (List.getElem_mem hj')
  refine List.ext_getElem (by rw [hone, htwo]) fun k hk hk' => ?_
  have hfirst := packed_record hsize (List.getElem?_eq_getElem hj) (show k < size by omega)
  have hsecond := packed_record hsize' (List.getElem?_eq_getElem hj') (show k < size by omega)
  rw [heq, hsecond, List.getElem?_eq_getElem hk, List.getElem?_eq_getElem hk'] at hfirst
  exact (Option.some.inj hfirst).symm

end Mem

end ParchTestbench
