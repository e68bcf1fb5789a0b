import Mathlib.Data.Finset.Card
import Mathlib.Data.Finset.Filter
import Mathlib.Tactic.Common

/-!
# Sorted rings

A singly linked ring that is kept in increasing order, with one link from its largest member
back to its smallest.  The ring is a finite set of members and a successor function; there is
no first member, so everything is said through what lies strictly between a member and its
successor.  The relation differs from Mathlib's `sbtw` on an arc from a member to itself,
which goes around the whole ring here and is empty there.

Main results:

- Theorem `SortedRing.insert`: a new member goes where it lies between a member and its
  successor.
- Theorem `SortedRing.erase`: the successor of a member is bypassed.
- Theorem `SortedRing.gap_next_lt`: a step along the ring comes closer to any target.
- Theorem `SortedRing.exists_iterate_eq`: every member is reached from every other.
-/

namespace ParchTestbench

variable {α : Type} [LinearOrder α]

/-- Going up from `p`, and around from the top to the bottom, `b` is passed before `q`. -/
def Between (p b q : α) : Prop := (p < b ∧ b < q) ∨ (q ≤ p ∧ (p < b ∨ b < q))

/-! ## Arcs -/

namespace Between

variable {p b q h k x : α}

instance : Decidable (Between p b q) := inferInstanceAs (Decidable (_ ∨ _))

theorem ne_left (hb : Between p b q) : b ≠ p := by
  unfold Between at hb
  grind

theorem ne_right (hb : Between p b q) : b ≠ q := by
  unfold Between at hb
  grind

/-- The arc from a member to itself is everything else. -/
theorem self_iff : Between p b p ↔ b ≠ p := by
  unfold Between
  grind

/-- What is passed before `b` is passed before everything after `b`. -/
theorem trans_left (hb : Between p b q) (hx : Between p x b) : Between p x q := by
  unfold Between at *
  grind

/-- What is passed after `b` and before `q` is passed before `q`. -/
theorem trans_right (hb : Between p b q) (hx : Between b x q) : Between p x q := by
  unfold Between at *
  grind

/-- An arc is cut in two by any point. -/
theorem cut (b : α) (hx : Between p x q) : x = b ∨ Between p x b ∨ Between b x q := by
  unfold Between at *
  grind

/-- Of two arcs that share a point, one holds the start of the other. -/
theorem overlap (hp : Between p b q) (hh : Between h b k) (hne : p ≠ h) :
    Between p h q ∨ Between h p k := by
  unfold Between at *
  grind

/-- Of two arcs that end alike, one holds the start of the other. -/
theorem same_end (q : α) (hne : p ≠ h) : Between p h q ∨ Between h p q := by
  unfold Between
  grind

/-- Of two other points, one is passed before the other. -/
theorem total (p : α) (hne : b ≠ q) : Between p b q ∨ Between p q b ∨ q = p := by
  unfold Between
  grind

end Between

/-! ## Rings -/

/-- Every member's successor is the next member up, or from the largest the smallest. -/
def SortedRing (F : Finset α) (next : α → α) : Prop :=
  ∀ h ∈ F, next h ∈ F ∧ ∀ x ∈ F, ¬ Between h x (next h)

/-- How many members are passed between `h` and `k`. -/
def ringGap (F : Finset α) (h k : α) : Nat := (F.filter fun x => Between h x k).card

namespace SortedRing

variable {F : Finset α} {next next' : α → α} {p b h k : α}

theorem next_mem (hR : SortedRing F next) (hh : h ∈ F) : next h ∈ F := (hR h hh).1

theorem congr (hR : SortedRing F next) (heq : ∀ h ∈ F, next' h = next h) :
    SortedRing F next' := by
  intro h hh
  rw [heq h hh]
  exact hR h hh

theorem singleton (h : next p = p) : SortedRing {p} next := by
  intro x hx
  rw [Finset.mem_singleton] at hx
  rw [hx, h]
  refine ⟨Finset.mem_singleton_self p, fun y hy hb => ?_⟩
  exact hb.ne_left (Finset.mem_singleton.mp hy)

/-- A member that is its own successor is alone. -/
theorem eq_of_next_eq_self (hR : SortedRing F next) (hp : p ∈ F) (hself : next p = p)
    (hh : h ∈ F) : h = p := by
  by_contra hne
  have hnone := (hR p hp).2 h hh
  rw [hself, Between.self_iff] at hnone
  exact hnone hne

/-- Two members have different successors. -/
theorem next_inj (hR : SortedRing F next) (hp : p ∈ F) (hh : h ∈ F) (heq : next p = next h) :
    p = h := by
  by_contra hne
  rcases Between.same_end (next p) hne with hbetween | hbetween
  · exact (hR p hp).2 h hh hbetween
  · rw [heq] at hbetween
    exact (hR h hh).2 p hp hbetween

/-- A new member is linked in where it lies between a member and its successor. -/
theorem insert (hR : SortedRing F next) (hp : p ∈ F) (hb : Between p b (next p)) :
    SortedRing (Insert.insert b F) (Function.update (Function.update next b (next p)) p b) := by
  have hbF : b ∉ F := fun hmem => (hR p hp).2 b hmem hb
  intro h hh
  rcases Finset.mem_insert.mp hh with rfl | hhF
  · -- the new member takes over the rest of the arc
    rw [Function.update_of_ne hb.ne_left, Function.update_self]
    refine ⟨Finset.mem_insert_of_mem (hR.next_mem hp), fun x hx hbetween => ?_⟩
    rcases Finset.mem_insert.mp hx with rfl | hxF
    · exact hbetween.ne_left rfl
    · exact (hR p hp).2 x hxF (hb.trans_right hbetween)
  rcases eq_or_ne h p with rfl | hne
  · rw [Function.update_self]
    refine ⟨Finset.mem_insert_self _ _, fun x hx hbetween => ?_⟩
    rcases Finset.mem_insert.mp hx with rfl | hxF
    · exact hbetween.ne_right rfl
    · exact (hR h hp).2 x hxF (hb.trans_left hbetween)
  · have hhb : h ≠ b := fun heq => hbF (heq ▸ hhF)
    rw [Function.update_of_ne hne, Function.update_of_ne hhb]
    refine ⟨Finset.mem_insert_of_mem (hR.next_mem hhF), fun x hx hbetween => ?_⟩
    rcases Finset.mem_insert.mp hx with rfl | hxF
    · -- another arc that held the new member would share it with that of `p`
      rcases hb.overlap hbetween hne.symm with hstart | hstart
      · exact (hR p hp).2 h hhF hstart
      · exact (hR h hhF).2 p hp hstart
    · exact (hR h hhF).2 x hxF hbetween

/-- The successor of a member leaves the ring when the member bypasses it. -/
theorem erase (hR : SortedRing F next) (hp : p ∈ F) (hne : next p ≠ p) :
    SortedRing (F.erase (next p)) (Function.update next p (next (next p))) := by
  have hbF : next p ∈ F := hR.next_mem hp
  intro h hh
  obtain ⟨hhb, hhF⟩ := Finset.mem_erase.mp hh
  rcases eq_or_ne h p with rfl | hhp
  · rw [Function.update_self]
    refine ⟨Finset.mem_erase.mpr ⟨fun hself => ?_, hR.next_mem hbF⟩, fun x hx hbetween => ?_⟩
    · exact hne.symm (hR.eq_of_next_eq_self hbF hself hp)
    · obtain ⟨hxb, hxF⟩ := Finset.mem_erase.mp hx
      rcases hbetween.cut (next h) with heq | hleft | hright
      · exact hxb heq
      · exact (hR h hp).2 x hxF hleft
      · exact (hR _ hbF).2 x hxF hright
  · rw [Function.update_of_ne hhp]
    have hother : next h ≠ next p := fun heq => hhp (hR.next_inj hhF hp heq)
    exact ⟨Finset.mem_erase.mpr ⟨hother, hR.next_mem hhF⟩,
      fun x hx => (hR h hhF).2 x (Finset.mem_of_mem_erase hx)⟩

/-! ## Going around -/

/-- A step along the ring that does not arrive comes closer. -/
theorem gap_next_lt (hR : SortedRing F next) (hh : h ∈ F) (hk : Between h (next h) k) :
    ringGap F (next h) k < ringGap F h k := by
  refine Finset.card_lt_card ((Finset.ssubset_iff_of_subset ?_).mpr ⟨next h, ?_, ?_⟩)
  · intro x hx
    obtain ⟨hxF, hbetween⟩ := Finset.mem_filter.mp hx
    exact Finset.mem_filter.mpr ⟨hxF, hk.trans_right hbetween⟩
  · exact Finset.mem_filter.mpr ⟨hR.next_mem hh, hk⟩
  · intro hmem
    exact (Finset.mem_filter.mp hmem).2.ne_left rfl

/-- From a member, a step arrives at another member or comes closer to it. -/
theorem between_next (hR : SortedRing F next) (hh : h ∈ F) (hk : k ∈ F) (hne : k ≠ h)
    (hnot : next h ≠ k) : Between h (next h) k := by
  rcases Between.total h hnot with hbetween | hbetween | heq
  · exact hbetween
  · exact absurd hbetween ((hR h hh).2 k hk)
  · exact absurd heq hne

/-- Every member is reached from every other. -/
theorem exists_iterate_eq (hR : SortedRing F next) (hh : h ∈ F) (hk : k ∈ F) :
    ∃ n, next^[n] h = k := by
  induction hgap : ringGap F h k using Nat.strong_induction_on generalizing h with
  | _ gap ih =>
      rcases eq_or_ne k h with rfl | hne
      · exact ⟨0, rfl⟩
      rcases eq_or_ne (next h) k with heq | hnot
      · exact ⟨1, heq⟩
      · have hcloser := hR.gap_next_lt hh (hR.between_next hh hk hne hnot)
        obtain ⟨n, hn⟩ := ih _ (hgap ▸ hcloser) (hR.next_mem hh) rfl
        exact ⟨n + 1, hn⟩

/-- From a member only members are reached. -/
theorem iterate_mem (hR : SortedRing F next) (hh : h ∈ F) (n : Nat) : next^[n] h ∈ F := by
  induction n generalizing h with
  | zero => exact hh
  | succ n ih => exact ih (hR.next_mem hh)

end SortedRing

end ParchTestbench
