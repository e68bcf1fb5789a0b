import Mathlib.Data.List.Nodup
import Mathlib.Logic.Function.Iterate

/-!
# Trees that grow by numbered leaves

A tree whose root is node 1, and whose node `k + 2` is the leaf that was hung up as number
`k`, below a node that was there before.  Nothing is ever moved or taken away, so that the
number of a node orders it behind its ancestors.

Main results:

- Theorem `exists_iterate_parent`: the parents of a node lead to the root.
- Theorem `mem_children_iff`: the children of a node are the leaves hung up below it.
- Theorem `children_unique`: a node is the child of one node, and at one place.
-/

namespace ParchTestbench

/-- A tree with labelled nodes; the root has no label. -/
structure NumberedTree (α : Type*) where
  leaves : List (Nat × α)
  below : ∀ k p a, leaves[k]? = some (p, a) → 0 < p ∧ p < k + 2

namespace NumberedTree

variable {α : Type*} {t : NumberedTree α} {i j k p : Nat} {a b : α}

/-- The tree of the root alone. -/
def leafless : NumberedTree α where
  leaves := []
  below := by simp

/-- The number of nodes, which is the number of the last one. -/
def size (t : NumberedTree α) : Nat := t.leaves.length + 1

/-- The parent of a node; the root is its own. -/
def parent (t : NumberedTree α) : Nat → Nat
  | k + 2 => ((t.leaves[k]?).map Prod.fst).getD 1
  | _ => 1

/-- The children of node `j` with their labels, the oldest first. -/
def children (t : NumberedTree α) (j : Nat) : List (Nat × α) :=
  (t.leaves.zipIdx 2).filterMap fun l => if l.1.1 = j then some (l.2, l.1.2) else none

theorem below_concat (hp : 0 < p) (hp' : p ≤ t.size) (k q : Nat) (b : α)
    (hk : (t.leaves ++ [(p, a)])[k]? = some (q, b)) : 0 < q ∧ q < k + 2 := by
  rcases Nat.lt_trichotomy k t.leaves.length with hlt | rfl | hgt
  · rw [List.getElem?_append_left hlt] at hk
    exact t.below k q b hk
  · rw [List.getElem?_concat_length] at hk
    cases hk
    exact ⟨hp, Nat.lt_succ_of_le hp'⟩
  · have hlen : (t.leaves ++ [(p, a)]).length ≤ k := by
      rw [List.length_append, List.length_singleton]
      exact hgt
    rw [List.getElem?_eq_none hlen] at hk
    cases hk

/-- Hang up a leaf below node `p`. -/
def grow (t : NumberedTree α) (p : Nat) (a : α) (hp : 0 < p) (hp' : p ≤ t.size) :
    NumberedTree α where
  leaves := t.leaves ++ [(p, a)]
  below := below_concat hp hp'

theorem size_pos : 0 < t.size := Nat.succ_pos _

/-- The leaf of a node. -/
theorem exists_leaf (hi : 1 < i) (hi' : i ≤ t.size) :
    ∃ a, t.leaves[i - 2]? = some (t.parent i, a) := by
  obtain ⟨k, rfl⟩ := Nat.exists_eq_add_of_lt hi
  have hk : k < t.leaves.length := by
    unfold size at hi'
    omega
  refine ⟨t.leaves[k].2, ?_⟩
  rw [show 1 + k + 1 - 2 = k by omega, show 1 + k + 1 = k + 2 by omega, parent,
    List.getElem?_eq_getElem hk]
  rfl

/-- The parent of a node is an older node. -/
theorem parent_lt (hi : 1 < i) (hi' : i ≤ t.size) : 0 < t.parent i ∧ t.parent i < i := by
  obtain ⟨a, ha⟩ := exists_leaf hi hi'
  have hbelow := t.below _ _ _ ha
  omega

/-- The parents of a node lead to the root. -/
theorem exists_iterate_parent (hi : 0 < i) (hi' : i ≤ t.size) : ∃ n, t.parent^[n] i = 1 := by
  induction i using Nat.strongRecOn with
  | _ i ih =>
    by_cases hroot : i = 1
    · exact ⟨0, hroot⟩
    · obtain ⟨hpos, hlt⟩ := parent_lt (t := t) (by omega) hi'
      obtain ⟨n, hn⟩ := ih _ hlt hpos (by omega)
      exact ⟨n + 1, hn⟩

/-- The children of a node are the leaves hung up below it. -/
theorem mem_children_iff :
    (i, a) ∈ t.children j ↔ 1 < i ∧ t.leaves[i - 2]? = some (j, a) := by
  unfold children
  rw [List.mem_filterMap]
  constructor
  · rintro ⟨⟨⟨p, b⟩, n⟩, hmem, hl⟩
    rw [List.mem_zipIdx_iff_le_and_getElem?_sub] at hmem
    split at hl
    · rename_i hp
      cases hl
      cases hp
      exact hmem
    · cases hl
  · intro hleaf
    refine ⟨((j, a), i), ?_, if_pos rfl⟩
    rw [List.mem_zipIdx_iff_le_and_getElem?_sub]
    exact hleaf

/-- A child is a node with its parent. -/
theorem parent_of_mem (h : (i, a) ∈ t.children j) : 1 < i ∧ i ≤ t.size ∧ t.parent i = j := by
  obtain ⟨hi, hget⟩ := mem_children_iff.mp h
  have hlt := (List.getElem?_eq_some_iff.mp hget).1
  have hle : i ≤ t.size := by
    unfold size
    omega
  obtain ⟨b, hb⟩ := exists_leaf hi hle
  rw [hget] at hb
  cases hb
  exact ⟨hi, hle, rfl⟩

/-- Every node but the root is a child of its parent. -/
theorem exists_mem_children (hi : 1 < i) (hi' : i ≤ t.size) :
    ∃ a, (i, a) ∈ t.children (t.parent i) := by
  obtain ⟨a, ha⟩ := exists_leaf hi hi'
  exact ⟨a, mem_children_iff.mpr ⟨hi, ha⟩⟩

theorem length_children_lt : (t.children j).length < t.size := by
  have hle := List.length_filterMap_le
    (fun l : (Nat × α) × Nat => if l.1.1 = j then some (l.2, l.1.2) else none)
    (t.leaves.zipIdx 2)
  rw [List.length_zipIdx] at hle
  exact Nat.lt_succ_of_le hle

/-- No node is the child of a node twice. -/
theorem nodup_children : ((t.children j).map Prod.fst).Nodup := by
  have hsub : ((t.children j).map Prod.fst).Sublist ((t.leaves.zipIdx 2).map Prod.snd) := by
    unfold children
    induction t.leaves.zipIdx 2 with
    | nil => exact List.Sublist.refl _
    | cons l ls ih =>
        rw [List.filterMap_cons]
        split
        · exact ih.cons _
        · rename_i hl
          split at hl
          · cases hl
            exact ih.cons_cons _
          · cases hl
  refine hsub.nodup ?_
  rw [List.zipIdx_map_snd]
  exact List.nodup_range'

/-- A node is the child of one node, and at one place. -/
theorem children_unique {l : Nat} (hk : (t.children j)[k]? = some (i, a))
    (hl : (t.children p)[l]? = some (i, b)) : j = p ∧ k = l := by
  have hj := (parent_of_mem (List.mem_of_getElem? hk)).2.2
  have hp := (parent_of_mem (List.mem_of_getElem? hl)).2.2
  obtain rfl : j = p := hj.symm.trans hp
  have hlen : k < ((t.children j).map Prod.fst).length := by
    rw [List.length_map]
    exact (List.getElem?_eq_some_iff.mp hk).1
  refine ⟨rfl, (List.getElem?_inj hlen nodup_children).mp ?_⟩
  rw [List.getElem?_map, List.getElem?_map, hk, hl]
  rfl

/-! ## Growing -/

section Grow

variable {hp : 0 < p} {hp' : p ≤ t.size}

@[simp]
theorem size_grow : (t.grow p a hp hp').size = t.size + 1 := by
  simp [size, grow]

/-- The nodes that were there keep their parents. -/
theorem parent_grow_of_le (hi : i ≤ t.size) : (t.grow p a hp hp').parent i = t.parent i := by
  match i with
  | 0 | 1 => rfl
  | k + 2 =>
      have hk : k < t.leaves.length := by
        unfold size at hi
        omega
      unfold parent grow
      dsimp only
      rw [List.getElem?_append_left hk]

@[simp]
theorem parent_grow_self : (t.grow p a hp hp').parent (t.size + 1) = p := by
  show ((t.leaves ++ [(p, a)])[t.leaves.length]?.map Prod.fst).getD 1 = p
  rw [List.getElem?_concat_length]
  rfl

/-- The new leaf is the youngest child of its parent. -/
theorem children_grow :
    (t.grow p a hp hp').children j =
      t.children j ++ if p = j then [(t.size + 1, a)] else [] := by
  unfold children grow
  dsimp only
  rw [List.zipIdx_append, List.filterMap_append, List.zipIdx_singleton]
  congr 1
  rw [List.filterMap_cons, List.filterMap_nil]
  split
  · rename_i hl
    split at hl
    · cases hl
    · rename_i hne
      rw [if_neg hne]
  · rename_i hl
    split at hl
    · rename_i heq
      cases hl
      rw [if_pos heq, Nat.add_comm 2]
      rfl
    · cases hl

end Grow

end NumberedTree

end ParchTestbench
