import ParchTestbench.Machine.Program
import Mathlib.Order.Filter.AtTopBot.Basic

/-!
# Loops with enough fuel

A loop that nothing bounds is a program that takes fuel and aborts when the fuel is used up.
What such a loop does is what it does with any large enough fuel.

Main results:

- Theorems `Settles.bind` and `Settles.of_succ`: sequences and passes of a loop settle.
- Theorem `Settles.unique`: a loop settles on one result.
- Theorem `StableAt.eq_of_settles`: a run that does not use up its fuel shows the result.
-/

namespace ParchTestbench

namespace Program

open Filter

variable {σ ε α β : Type}

/-- With any large enough fuel the program does `r`. -/
def Settles (f : Nat → Program σ ε α) (s : σ) (r : Except ε (α × σ)) : Prop :=
  ∀ᶠ fuel in atTop, f fuel s = r

namespace Settles

variable {f : Nat → Program σ ε α} {g : Nat → α → Program σ ε β} {p : Program σ ε α}
  {s t : σ} {a : α} {e : ε} {r r' : Except ε (α × σ)} {u : Except ε (β × σ)}

/-- A program that takes no fuel settles. -/
theorem of_eq (h : p s = r) : Settles (fun _ => p) s r := Eventually.of_forall fun _ => h

theorem congr {f' : Nat → Program σ ε α} (h : Settles f s r)
    (heq : ∀ fuel, f' fuel s = f fuel s) : Settles f' s r := by
  filter_upwards [h] with fuel hfuel
  exact (heq fuel).trans hfuel

theorem bind (h : Settles f s (.ok (a, t))) (hrest : Settles (fun fuel => g fuel a) t u) :
    Settles (fun fuel => f fuel >>= g fuel) s u := by
  filter_upwards [h, hrest] with fuel hfirst hsecond
  exact (bind_eq_ok hfirst).trans hsecond

theorem bind_error (h : Settles f s (.error e)) :
    Settles (fun fuel => f fuel >>= g fuel) s (.error e) := by
  filter_upwards [h] with fuel hfirst
  exact bind_eq_error hfirst

/-- A sequence after a program that takes no fuel. -/
theorem bind_of_ok (h : p s = .ok (a, t)) (hrest : Settles (fun fuel => g fuel a) t u) :
    Settles (fun fuel => p >>= g fuel) s u := bind (of_eq h) hrest

/-- One unit of fuel more or less does not matter. -/
theorem of_succ (h : Settles (fun fuel => f (fuel + 1)) s r) : Settles f s r := by
  unfold Settles
  rw [← map_add_atTop_eq_nat 1]
  exact eventually_map.mpr h

/-- A loop settles on one result. -/
theorem unique (h : Settles f s r) (h' : Settles f s r') : r = r' := by
  obtain ⟨fuel, hfuel, hfuel'⟩ := (h.and h').exists
  exact hfuel.symm.trans hfuel'

end Settles

/-! ## Runs that do not use up their fuel -/

/-- With this much fuel the program uses it up, or does the same with one unit more. -/
def StableAt (out : ε) (f : Nat → Program σ ε α) (fuel : Nat) : Prop :=
  ∀ s, f fuel s = .error out ∨ f (fuel + 1) s = f fuel s

namespace StableAt

variable {out : ε} {f : Nat → Program σ ε α} {g : Nat → α → Program σ ε β} {fuel : Nat}

theorem const (p : Program σ ε α) : StableAt out (fun _ => p) fuel := fun _ => Or.inr rfl

theorem bind (hf : StableAt out f fuel) (hg : ∀ a, StableAt out (fun k => g k a) fuel) :
    StableAt out (fun k => f k >>= g k) fuel := by
  intro s
  rcases hf s with hout | hsame
  · exact Or.inl (bind_eq_error hout)
  cases hrun : f fuel s with
  | ok r =>
      have hnext : f (fuel + 1) s = .ok (r.1, r.2) := hsame.trans hrun
      rcases hg r.1 r.2 with hout | hrest
      · exact Or.inl ((bind_eq_ok hrun).trans hout)
      · exact Or.inr ((bind_eq_ok hnext).trans (hrest.trans (bind_eq_ok hrun).symm))
  | error e => exact Or.inr ((bind_eq_error (hsame.trans hrun)).trans (bind_eq_error hrun).symm)

theorem ite {c : Prop} [Decidable c] {f' : Nat → Program σ ε α} (hf : StableAt out f fuel)
    (hf' : StableAt out f' fuel) : StableAt out (fun k => if c then f k else f' k) fuel := by
  by_cases hc : c
  · simpa only [if_pos hc] using hf
  · simpa only [if_neg hc] using hf'

/-- A run that does not use up its fuel is what the program settles on. -/
theorem settles {s : σ} (hf : ∀ k, StableAt out f k) (hrun : f fuel s ≠ .error out) :
    Settles f s (f fuel s) := by
  refine eventually_atTop.mpr ⟨fuel, fun more hmore => ?_⟩
  induction more, hmore using Nat.le_induction with
  | base => rfl
  | succ k _ ih =>
      rcases hf k s with hout | hsame
      · exact absurd (ih.symm.trans hout) hrun
      · exact hsame.trans ih

/-- A loop settles on what one such run shows. -/
theorem eq_of_settles {s : σ} {r : Except ε (α × σ)} (hf : ∀ k, StableAt out f k)
    (h : Settles f s r) (hrun : f fuel s ≠ .error out) : r = f fuel s :=
  h.unique (settles hf hrun)

end StableAt

end Program

end ParchTestbench
