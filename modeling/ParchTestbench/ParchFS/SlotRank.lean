import ParchTestbench.ParchFS.BlockMap
import ParchTestbench.Machine.SerialPlacement

/-!
# ParchFS: the order of the slots

A file grows slot by slot in one fixed order: the direct blocks, the index block of the
indirect range and its entries, the index block of the double-indirect range, and then each
second-level index block in front of its entries.

Main results:

- Theorem `Slot.rank_injective`: the order is one of all valid slots.
- Theorem `rank_dataSlot`: the slots that a file of `n` blocks needs are those of a rank
  below `blocksFor n`.
-/

namespace ParchTestbench

open ParchFS

variable {σ τ p : Slot} {k n off : Nat}

/-! ## Valid slots -/

/-- The four kinds of slots. -/
theorem Slot.Valid.cases (h : σ.Valid) :
    (∃ k, k < 18 ∧ σ = .field k) ∨ (∃ j, j < 1024 ∧ σ = .entry (.field 16) j) ∨
      (∃ q, q < 1024 ∧ σ = indexSlot q) ∨
        ∃ q j, q < 1024 ∧ j < 1024 ∧ σ = .entry (indexSlot q) j := by
  cases σ with
  | field k => exact Or.inl ⟨k, h, rfl⟩
  | entry p j =>
      obtain ⟨hp, hidx, hj⟩ := h
      cases p with
      | field k =>
          rcases hidx with rfl | rfl
          · exact Or.inr (Or.inl ⟨j, hj, rfl⟩)
          · exact Or.inr (Or.inr (Or.inl ⟨j, hj, rfl⟩))
      | entry r q =>
          obtain ⟨-, -, hq⟩ := hp
          cases r with
          | field k =>
              obtain rfl : k = 17 := hidx
              exact Or.inr (Or.inr (Or.inr ⟨q, j, hq, hj, rfl⟩))
          | entry _ _ => exact absurd hidx not_false

/-! ## The rank of a slot -/

/-- The turn of a slot when the file of an inode grows. -/
def Slot.rank : Slot → Nat
  | .field k => if k < 17 then k else 1041
  | .entry (.field k) j => if k = 16 then 17 + j else 1042 + 1025 * j
  | .entry (.entry _ q) j => 1043 + 1025 * q + j

namespace Slot

theorem rank_field (hk : k < 17) : (field k).rank = k := if_pos hk

@[simp]
theorem rank_field_seventeen : (field 17).rank = 1041 := rfl

@[simp]
theorem rank_entry_sixteen : (entry (field 16) k).rank = 17 + k := rfl

@[simp]
theorem rank_indexSlot : (indexSlot k).rank = 1042 + 1025 * k := rfl

@[simp]
theorem rank_entry_indexSlot : (entry (indexSlot k) n).rank = 1043 + 1025 * k + n := rfl

/-- An index block has its turn before its entries. -/
theorem rank_lt_entry (h : (entry p k).Valid) : p.rank < (entry p k).rank := by
  obtain ⟨-, hidx, -⟩ := h
  cases p with
  | field l =>
      rcases hidx with rfl | rfl
      · rw [rank_entry_sixteen, rank_field (by omega)]
        omega
      · rw [rank_field_seventeen, rank_indexSlot]
        omega
  | entry r q =>
      cases r with
      | field l =>
          obtain rfl : l = 17 := hidx
          rw [rank_indexSlot, rank_entry_indexSlot]
          omega
      | entry _ _ => exact absurd hidx not_false

/-- No two slots have the same turn. -/
theorem rank_injective (hσ : σ.Valid) (hτ : τ.Valid) (h : σ.rank = τ.rank) : σ = τ := by
  have hfield : ∀ k, k < 18 → (field k).rank = k ∧ k < 17 ∨ (field k).rank = 1041 ∧ k = 17 := by
    intro k hk
    rcases Nat.lt_or_ge k 17 with hlt | hge
    · exact Or.inl ⟨rank_field hlt, hlt⟩
    · obtain rfl : k = 17 := by omega
      exact Or.inr ⟨rfl, rfl⟩
  obtain ⟨k, hk, rfl⟩ | ⟨j, hj, rfl⟩ | ⟨q, hq, rfl⟩ | ⟨q, j, hq, hj, rfl⟩ := hσ.cases <;>
    obtain ⟨k', hk', rfl⟩ | ⟨j', hj', rfl⟩ | ⟨q', hq', rfl⟩ | ⟨q', j', hq', hj', rfl⟩ := hτ.cases
  case inl.inl =>
    have hone := hfield k hk
    have htwo := hfield k' hk'
    rw [show k = k' by omega]
  case inr.inl.inr.inl =>
    rw [rank_entry_sixteen, rank_entry_sixteen] at h
    rw [Nat.add_left_cancel h]
  case inr.inr.inl.inr.inr.inl =>
    rw [rank_indexSlot, rank_indexSlot] at h
    rw [show q = q' by omega]
  case inr.inr.inr.inr.inr.inr =>
    rw [rank_entry_indexSlot, rank_entry_indexSlot] at h
    rw [show q = q' by omega, show j = j' by omega]
  all_goals
    simp only [rank_entry_sixteen, rank_indexSlot, rank_entry_indexSlot] at h
    first
      | omega
      | rcases hfield k hk with hone | hone <;> omega
      | rcases hfield k' hk' with hone | hone <;> omega

theorem rank_eq_iff (hσ : σ.Valid) (hτ : τ.Valid) : τ.rank = σ.rank ↔ τ = σ :=
  ⟨rank_injective hτ hσ, fun h => by rw [h]⟩

end Slot

/-! ## The blocks of a file -/

/-- The blocks that a file of `n` data blocks takes, with its index blocks. -/
def blocksFor (n : Nat) : Nat :=
  if n ≤ 16 then n else if n ≤ 1040 then n + 1 else n + 3 + (n - 1041) / 1024

theorem blocksFor_direct (h : n ≤ 16) : blocksFor n = n := by
  unfold blocksFor
  exact if_pos h

@[simp]
theorem blocksFor_zero : blocksFor 0 = 0 := blocksFor_direct (Nat.zero_le 16)

theorem blocksFor_indirect (h : 16 < n) (h' : n ≤ 1040) : blocksFor n = n + 1 := by
  unfold blocksFor
  rw [if_neg (by omega), if_pos h']

theorem blocksFor_double (h : 1040 < n) : blocksFor n = n + 3 + (n - 1041) / 1024 := by
  unfold blocksFor
  rw [if_neg (by omega), if_neg (by omega)]

theorem blocksFor_lt {m : Nat} (h : m < n) : blocksFor m < blocksFor n := by
  unfold blocksFor
  split <;> split <;> (try split) <;> (try split) <;> omega

theorem blocksFor_le {m : Nat} (h : m ≤ n) : blocksFor m ≤ blocksFor n := by
  rcases Nat.eq_or_lt_of_le h with rfl | hlt
  · exact le_rfl
  · exact (blocksFor_lt hlt).le

theorem blocksFor_max {m : Nat} : blocksFor (max m n) = max (blocksFor m) (blocksFor n) := by
  rcases Nat.le_total m n with hle | hle
  · rw [max_eq_right hle, max_eq_right (blocksFor_le hle)]
  · rw [max_eq_left hle, max_eq_left (blocksFor_le hle)]

/-- The slot of block `k` is the last one that a file of `k + 1` blocks needs. -/
theorem rank_dataSlot (k : Nat) : (dataSlot k).rank + 1 = blocksFor (k + 1) := by
  unfold dataSlot
  split
  · rw [Slot.rank_field (by omega), blocksFor_direct (by omega)]
  · split
    · rw [Slot.rank_entry_sixteen, blocksFor_indirect (by omega) (by omega)]
      omega
    · rw [Slot.rank_entry_indexSlot, blocksFor_double (by omega)]
      omega

theorem rank_dataSlot_lt_iff : (dataSlot k).rank < blocksFor n ↔ k < n := by
  have hk := rank_dataSlot k
  constructor
  · intro h
    by_contra hge
    have hle := blocksFor_le (show n ≤ k from Nat.le_of_not_lt hge)
    have hlt := blocksFor_lt (Nat.lt_succ_self k)
    have hsucc : blocksFor k.succ = blocksFor (k + 1) := rfl
    -- the rank of the next index block may lie between
    omega
  · intro h
    have hle := blocksFor_le (Nat.succ_le_of_lt h)
    have hsucc : blocksFor k.succ = blocksFor (k + 1) := rfl
    omega

theorem dataSlot_rank_lt {l : Nat} (h : k < l) : (dataSlot k).rank < (dataSlot l).rank := by
  have hk := rank_dataSlot k
  have hl := rank_dataSlot l
  have hlt := blocksFor_lt (Nat.succ_lt_succ h)
  have hsucc : blocksFor k.succ = blocksFor (k + 1) := rfl
  have hsucc' : blocksFor l.succ = blocksFor (l + 1) := rfl
  omega

theorem rank_dataSlot_max {l : Nat} :
    max (dataSlot k).rank (dataSlot l).rank = (dataSlot (max k l)).rank := by
  rcases Nat.lt_trichotomy k l with hlt | rfl | hlt
  · rw [max_eq_right hlt.le, max_eq_right (dataSlot_rank_lt hlt).le]
  · rw [max_self, max_self]
  · rw [max_eq_left hlt.le, max_eq_left (dataSlot_rank_lt hlt).le]

/-- The index blocks that a file of `n` blocks needs. -/
theorem rank_sixteen_lt_iff : (Slot.field 16).rank < blocksFor n ↔ 16 < n := by
  rw [Slot.rank_field (by omega)]
  unfold blocksFor
  split <;> (try split) <;> omega

theorem rank_seventeen_lt_iff : (Slot.field 17).rank < blocksFor n ↔ 1040 < n := by
  rw [Slot.rank_field_seventeen]
  unfold blocksFor
  split <;> (try split) <;> omega

theorem rank_indexSlot_lt_iff : (indexSlot k).rank < blocksFor n ↔ 1040 + 1024 * k < n := by
  rw [Slot.rank_indexSlot]
  unfold blocksFor
  split <;> (try split) <;> omega

/-! ## Growth -/

/-- The data blocks of a file of `n` blocks after a call of `get_blkno` with `create` for
offset `off`.  In the double-indirect range the call leaves its scan at a fresh entry behind
the block of the offset only. -/
def grownTo (n off : Nat) : Nat :=
  if off < 4259840 then max n (off / 4096 + 1) else max (max n 1040) (off / 4096 + 1) + 1

theorem grownTo_of_lt (h : off < 4259840) : grownTo n off = max n (off / 4096 + 1) := by
  unfold grownTo
  exact if_pos h

theorem grownTo_of_ge (h : 4259840 ≤ off) :
    grownTo n off = max (max n 1040) (off / 4096 + 1) + 1 := by
  unfold grownTo
  exact if_neg (Nat.not_lt.mpr h)

theorem le_grownTo : n ≤ grownTo n off := by
  unfold grownTo
  split <;> omega

theorem lt_grownTo : off / 4096 < grownTo n off := by
  unfold grownTo
  split <;> omega

end ParchTestbench
