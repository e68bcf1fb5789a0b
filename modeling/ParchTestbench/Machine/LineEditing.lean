import Mathlib.Data.List.Basic

/-!
# Line editing

A line that is typed one symbol after the other, where one symbol takes the last one of the
line away again.

Main results:

- Theorem `edits_of_notMem`: symbols that take nothing away are appended.
- Theorem `length_edit_le`: one symbol keeps the bound of a line that is not full.
- Theorem `max_peak_cons`: the largest size of the line, one symbol after the other.
-/

namespace ParchTestbench

namespace LineEditing

variable {α : Type*} [DecidableEq α]

/-- One symbol: `del` takes the last one of the line away, any other is appended. -/
def edit (del : α) (line : List α) (a : α) : List α :=
  if a = del then line.dropLast else line ++ [a]

/-- The line after some symbols. -/
def edits (del : α) (line keys : List α) : List α := keys.foldl (edit del) line

/-- Typing into a line that holds `bound` symbols at most, up to the first symbol that ends
it: the line, and the symbols that are left.  Nothing is taken once the line is full. -/
def typed (del : α) (ends : α → Bool) (bound : Nat) : List α → List α → List α × List α
  | line, [] => (line, [])
  | line, a :: keys =>
      if bound ≤ line.length then (line, a :: keys)
      else if ends a then (line, keys)
      else typed del ends bound (edit del line a) keys

/-- The largest size that the line has while the symbols are typed into it. -/
def peak (del : α) (size : List α → Nat) : List α → List α → Nat
  | line, [] => size line
  | line, a :: keys => max (size line) (peak del size (edit del line a) keys)

variable {del a : α} {ends : α → Bool} {bound : Nat} {line keys : List α}

theorem edit_of_ne (h : a ≠ del) (line : List α) : edit del line a = line ++ [a] := if_neg h

@[simp]
theorem edits_nil (del : α) (line : List α) : edits del line [] = line := rfl

@[simp]
theorem edits_cons (del : α) (line : List α) (a : α) (keys : List α) :
    edits del line (a :: keys) = edits del (edit del line a) keys := rfl

/-- Without `del` the symbols are appended. -/
theorem edits_of_notMem (h : del ∉ keys) (line : List α) : edits del line keys = line ++ keys := by
  induction keys generalizing line with
  | nil => rw [edits_nil, List.append_nil]
  | cons a keys ih =>
      rw [List.mem_cons, not_or] at h
      rw [edits_cons, edit_of_ne (Ne.symm h.1), ih h.2, List.append_assoc, List.singleton_append]

theorem length_edit_le (h : line.length < bound) : (edit del line a).length ≤ bound := by
  unfold edit
  split
  · rw [List.length_dropLast]
    omega
  · rw [List.length_append, List.length_singleton]
    exact h

/-! ## The largest size -/

variable {size : List α → Nat} {n : Nat}

theorem size_le_peak : size line ≤ peak del size line keys := by
  cases keys with
  | nil => exact Nat.le_refl _
  | cons a keys => exact Nat.le_max_left _ _

/-- The largest size so far takes in one symbol after the other. -/
theorem max_peak_cons (h : size line ≤ n) : max n (peak del size line (a :: keys)) =
    max (max n (size (edit del line a))) (peak del size (edit del line a) keys) := by
  have hle : size (edit del line a) ≤ peak del size (edit del line a) keys := size_le_peak
  rw [peak]
  omega

/-- Without `del` the line is largest at the end. -/
theorem peak_of_notMem (hmono : ∀ line a, size line ≤ size (line ++ [a])) (h : del ∉ keys)
    (line : List α) : peak del size line keys = size (line ++ keys) := by
  induction keys generalizing line with
  | nil => rw [peak, List.append_nil]
  | cons a keys ih =>
      rw [List.mem_cons, not_or] at h
      have hrest := ih h.2 (line ++ [a])
      rw [List.append_assoc, List.singleton_append] at hrest
      have hle : size (line ++ [a]) ≤ peak del size (line ++ [a]) keys := size_le_peak
      have hstep := hmono line a
      rw [peak, edit_of_ne (Ne.symm h.1)]
      omega

end LineEditing

end ParchTestbench
