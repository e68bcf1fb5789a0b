import Mathlib.Data.List.Basic

/-!
# Nested runs

A process takes items from a list one after the other, in a state of its own.  An item changes
the state, ends the process, or starts another process, which takes the items from there on;
when that one has ended, the first goes on with what it has left.  At the end of the list every
process ends.

Main results:

- Theorem `leaves_iff`: a run leaves what a machine with a stack of states leaves.
- Theorem `unstack_append`: the machine works off its stack from the top.
-/

namespace ParchTestbench

namespace NestedRun

variable {σ α : Type*}

/-- What an item does to the process that takes it. -/
inductive Move (σ : Type*)
  | stay (s : σ)
  | enter (inner outer : σ)
  | leave

/-- A process in state `s` that is given the items `l` ends and leaves the items `r`. -/
inductive Leaves (move : σ → α → Move σ) : σ → List α → List α → Prop
  | nil (s : σ) : Leaves move s [] []
  | stay {s t : σ} {a : α} {l r : List α} (hmove : move s a = .stay t)
      (hrest : Leaves move t l r) : Leaves move s (a :: l) r
  | enter {s inner outer : σ} {a : α} {l m r : List α} (hmove : move s a = .enter inner outer)
      (hinner : Leaves move inner l m) (houter : Leaves move outer m r) :
      Leaves move s (a :: l) r
  | leave {s : σ} {a : α} {l : List α} (hmove : move s a = .leave) : Leaves move s (a :: l) l

/-- The items that a machine leaves, which keeps the states of the processes on a stack. -/
def unstack (move : σ → α → Move σ) : List σ → List α → List α
  | [], l => l
  | _ :: _, [] => []
  | s :: stack, a :: l =>
      match move s a with
      | .stay t => unstack move (t :: stack) l
      | .enter inner outer => unstack move (inner :: outer :: stack) l
      | .leave => unstack move stack l

variable {move : σ → α → Move σ} {s t inner outer : σ} {a : α} {l r : List α}
  {stack stack' : List σ}

@[simp]
theorem unstack_nil (stack : List σ) : unstack move stack [] = [] := by
  cases stack <;> rfl

@[simp]
theorem unstack_empty (l : List α) : unstack move [] l = l := by
  cases l <;> rfl

theorem unstack_stay (h : move s a = .stay t) :
    unstack move (s :: stack) (a :: l) = unstack move (t :: stack) l := by
  rw [unstack, h]

theorem unstack_enter (h : move s a = .enter inner outer) :
    unstack move (s :: stack) (a :: l) = unstack move (inner :: outer :: stack) l := by
  rw [unstack, h]

theorem unstack_leave (h : move s a = .leave) :
    unstack move (s :: stack) (a :: l) = unstack move stack l := by
  rw [unstack, h]

/-- The machine works off its stack from the top. -/
theorem unstack_append (stack stack' : List σ) (l : List α) :
    unstack move (stack ++ stack') l = unstack move stack' (unstack move stack l) := by
  induction l generalizing stack with
  | nil => simp
  | cons a l ih =>
      cases stack with
      | nil => simp
      | cons s stack =>
          cases hmove : move s a with
          | stay t => simpa [unstack_stay hmove] using ih (t :: stack)
          | enter inner outer => simpa [unstack_enter hmove] using ih (inner :: outer :: stack)
          | leave => simpa [unstack_leave hmove] using ih stack

/-- The item that starts a process: that one leaves what the first goes on with. -/
theorem unstack_enter_singleton (h : move s a = .enter inner outer) :
    unstack move [s] (a :: l) = unstack move [outer] (unstack move [inner] l) := by
  rw [unstack_enter h, ← unstack_append, List.singleton_append]

theorem unstack_suffix (stack : List σ) (l : List α) : unstack move stack l <:+ l := by
  induction l generalizing stack with
  | nil => simp
  | cons a l ih =>
      cases stack with
      | nil => simp
      | cons s stack =>
          cases hmove : move s a with
          | stay t =>
              rw [unstack_stay hmove]
              exact (ih _).trans (List.suffix_cons a l)
          | enter inner outer =>
              rw [unstack_enter hmove]
              exact (ih _).trans (List.suffix_cons a l)
          | leave =>
              rw [unstack_leave hmove]
              exact (ih _).trans (List.suffix_cons a l)

/-- What a run leaves, the machine leaves. -/
theorem Leaves.eq_unstack (h : Leaves move s l r) : r = unstack move [s] l := by
  induction h with
  | nil s => rfl
  | stay hmove _ ih => rw [ih, unstack_stay hmove]
  | enter hmove _ _ ihinner ihouter => rw [ihouter, ihinner, unstack_enter_singleton hmove]
  | leave hmove => rw [unstack_leave hmove, unstack_empty]

theorem Leaves.suffix (h : Leaves move s l r) : r <:+ l :=
  h.eq_unstack ▸ unstack_suffix [s] l

/-- Every process ends. -/
theorem leaves_unstack (s : σ) (l : List α) : Leaves move s l (unstack move [s] l) := by
  match l with
  | [] => exact .nil s
  | a :: l =>
      cases hmove : move s a with
      | stay t =>
          rw [unstack_stay hmove]
          exact .stay hmove (leaves_unstack t l)
      | enter inner outer =>
          -- the inner process leaves no more than it was given
          have hle : (unstack move [inner] l).length ≤ l.length :=
            (unstack_suffix [inner] l).length_le
          rw [unstack_enter_singleton hmove]
          exact .enter hmove (leaves_unstack inner l) (leaves_unstack outer _)
      | leave =>
          rw [unstack_leave hmove, unstack_empty]
          exact .leave hmove
termination_by l.length

/-- A run leaves what the machine leaves. -/
theorem leaves_iff : Leaves move s l r ↔ r = unstack move [s] l :=
  ⟨Leaves.eq_unstack, fun h => h ▸ leaves_unstack s l⟩

end NestedRun

end ParchTestbench
