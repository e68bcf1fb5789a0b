import Mathlib.Order.Basic

/-!
# Serial placement

Keys have ranks, and each key is given a place when its turn comes: the keys of the next
ranks go to the next places behind a cursor.  A place of zero means none.

Main results:

- Theorem `Placed.trans`: two placements one after the other are one.
- Theorem `Placed.filled`: which keys have a place.
- Theorem `Placed.increasing`: later keys lie behind earlier ones.
-/

namespace ParchTestbench

namespace SerialPlacement

variable {κ : Type} {rank : κ → Nat} {P : κ → Prop} {c d d' e : Nat} {v v' v'' : κ → Nat}

/-- Of the keys in `P` exactly those of a rank below `c` have a place. -/
def Filled (rank : κ → Nat) (P : κ → Prop) (c : Nat) (v : κ → Nat) : Prop :=
  ∀ k, P k → (v k ≠ 0 ↔ rank k < c)

/-- A key of a higher rank lies behind one of a lower rank. -/
def Increasing (rank : κ → Nat) (P : κ → Prop) (v : κ → Nat) : Prop :=
  ∀ k l, P k → P l → v k ≠ 0 → v l ≠ 0 → rank k < rank l → v k < v l

/-- From `v` to `v'` the keys of the ranks from `c` to `d` have been placed one behind the
other from place `e` on. -/
structure Placed (rank : κ → Nat) (P : κ → Prop) (c d e : Nat) (v v' : κ → Nat) : Prop where
  kept : ∀ k, P k → rank k < c ∨ d ≤ rank k → v' k = v k
  fresh : ∀ k, P k → c ≤ rank k → rank k < d → v' k = e + (rank k - c)

namespace Placed

theorem refl : Placed rank P c c e v v where
  kept _ _ _ := rfl
  fresh _ _ hge hlt := absurd hlt (Nat.not_lt.mpr hge)

/-- The second placement goes on where the first one has stopped. -/
theorem trans (h : Placed rank P c d e v v') (h' : Placed rank P d d' (e + (d - c)) v' v'')
    (hcd : c ≤ d) (hdd : d ≤ d') : Placed rank P c d' e v v'' where
  kept k hk hout := by
    rw [h'.kept k hk (by omega), h.kept k hk (by omega)]
  fresh k hk hge hlt := by
    by_cases hfirst : rank k < d
    · rw [h'.kept k hk (Or.inl hfirst), h.fresh k hk hge hfirst]
    · rw [h'.fresh k hk (by omega) hlt]
      omega

/-- One key of rank `c` is placed. -/
theorem single {k : κ} (hrank : ∀ l, P l → (rank l = c ↔ l = k)) (hnew : v' k = e)
    (hold : ∀ l, P l → l ≠ k → v' l = v l) : Placed rank P c (c + 1) e v v' where
  kept l hl hout := hold l hl fun heq => by
    have hc := (hrank l hl).mpr heq
    omega
  fresh l hl hge hlt := by
    have hc : rank l = c := by omega
    rw [(hrank l hl).mp hc, hnew, ← (hrank l hl).mp hc, hc, Nat.sub_self, Nat.add_zero]

theorem filled (h : Placed rank P c d e v v') (hv : Filled rank P c v) (he : 0 < e)
    (hcd : c ≤ d) : Filled rank P d v' := by
  intro k hk
  by_cases hold : rank k < c ∨ d ≤ rank k
  · rw [h.kept k hk hold, hv k hk]
    omega
  · rw [h.fresh k hk (by omega) (by omega)]
    omega

/-- A placement behind everything that has a place keeps the order. -/
theorem increasing (h : Placed rank P c d e v v') (hv : Filled rank P c v)
    (hinc : Increasing rank P v) (hbelow : ∀ k, P k → v k < e) : Increasing rank P v' := by
  have hkept : ∀ k, P k → v' k ≠ 0 → ¬ (c ≤ rank k ∧ rank k < d) →
      rank k < c ∧ v' k = v k := by
    intro k hk hne hout
    have hsame := h.kept k hk (by omega)
    rw [hsame] at hne
    exact ⟨(hv k hk).mp hne, hsame⟩
  intro k l hk hl hne hne' hlt
  by_cases hnew : c ≤ rank l ∧ rank l < d
  · rw [h.fresh l hl hnew.1 hnew.2]
    by_cases hnew' : c ≤ rank k ∧ rank k < d
    · rw [h.fresh k hk hnew'.1 hnew'.2]
      omega
    · rw [(hkept k hk hne hnew').2]
      have hb := hbelow k hk
      omega
  · obtain ⟨hlow, hsame⟩ := hkept l hl hne' hnew
    obtain ⟨-, hsame'⟩ := hkept k hk hne fun hnew' => by omega
    rw [hsame] at hne' ⊢
    rw [hsame'] at hne ⊢
    exact hinc k l hk hl hne hne' hlt

/-- Everything that has a place lies in front of the new cursor. -/
theorem below (h : Placed rank P c d e v v') (hbelow : ∀ k, P k → v k < e) :
    ∀ k, P k → v' k < e + (d - c) := by
  intro k hk
  by_cases hold : rank k < c ∨ d ≤ rank k
  · rw [h.kept k hk hold]
    have hb := hbelow k hk
    omega
  · rw [h.fresh k hk (by omega) (by omega)]
    omega

end Placed

end SerialPlacement

end ParchTestbench
