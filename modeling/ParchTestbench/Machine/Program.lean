import Mathlib.Tactic.Common

/-!
# Programs that change a state and may abort

A program over a state type either returns a value with a new state or aborts
with a reason.  This file gives the outcome predicate of a program, its rules
for sequencing, branching and counted loops, and the induction rule for runs of
a list of operations.

Main results:

- Theorem `Program.Outcome.bind`: a sequence is judged by its first program,
  with the rest as the postcondition.
- Theorem `Program.Outcome.forUpTo`: a counted loop keeps an invariant indexed
  by the number of iterations made.
- Theorem `Program.Outcome.untilDone`: a loop that a pass ends, by an invariant that bounds
  its index.
- Theorem `Program.runAll_induct`: a run of operations keeps an invariant that
  relates the operations done, those still to do and the current state.
-/

namespace ParchTestbench

/-- A program over states `σ` that returns an `α` or aborts with an `ε`. -/
abbrev Program (σ ε α : Type) := StateT σ (Except ε) α

namespace Program

variable {σ ε α β Op : Type}

/-- Stop the whole program with a reason. -/
def abort (e : ε) : Program σ ε α := fun _ => .error e

/-- Run a program only when a condition holds. -/
def onlyIf (c : Prop) [Decidable c] (p : Program σ ε Unit) : Program σ ε Unit :=
  if c then p else pure ()

/-- Run `body 0`, ..., `body (n - 1)` in this order. -/
def forUpTo : Nat → (Nat → Program σ ε Unit) → Program σ ε Unit
  | 0, _ => pure ()
  | n + 1, body => do
      forUpTo n body
      body n

/-- Run `body k`, `body (k + 1)`, ... until one of them returns `true`; after `fuel` of them
stop with `out`. -/
def untilDone (out : ε) (body : Nat → Program σ ε Bool) : Nat → Nat → Program σ ε Unit
  | 0, _ => abort out
  | fuel + 1, k => do
      let done ← body k
      onlyIf (done = false) (untilDone out body fuel (k + 1))

/-- Run a list of operations in order. -/
def runAll (exec : Op → Program σ ε Unit) : List Op → Program σ ε Unit
  | [] => pure ()
  | op :: ops => do
      exec op
      runAll exec ops

/-- Started in `s`, the program returns into `Q` or aborts into `E`. -/
def Outcome (p : Program σ ε α) (s : σ) (Q : α → σ → Prop) (E : ε → Prop) : Prop :=
  match p s with
  | .ok r => Q r.1 r.2
  | .error e => E e

/-! ## Rules -/

section Rules

variable {p : Program σ ε α} {f : α → Program σ ε β} {s s' : σ} {a : α}
  {Q Q' : α → σ → Prop} {R : β → σ → Prop} {E E' : ε → Prop} {e : ε}

theorem Outcome.of_ok (h : Outcome p s Q E) (hrun : p s = .ok (a, s')) : Q a s' := by
  simpa only [Outcome, hrun] using h

theorem Outcome.of_error (h : Outcome p s Q E) (hrun : p s = .error e) : E e := by
  simpa only [Outcome, hrun] using h

theorem Outcome.intro (hok : ∀ a s', p s = .ok (a, s') → Q a s')
    (herror : ∀ e, p s = .error e → E e) : Outcome p s Q E := by
  unfold Outcome
  cases hrun : p s with
  | ok r => exact hok r.1 r.2 hrun
  | error e => exact herror e hrun

/-- A program that cannot abort returns. -/
theorem Outcome.exists_ok (h : Outcome p s Q fun _ => False) :
    ∃ a s', p s = .ok (a, s') ∧ Q a s' := by
  cases hrun : p s with
  | ok r => exact ⟨r.1, r.2, rfl, h.of_ok hrun⟩
  | error e => exact (h.of_error hrun).elim

theorem Outcome.of_eq_ok (hrun : p s = .ok (a, s')) (h : Q a s') : Outcome p s Q E := by
  simpa only [Outcome, hrun] using h

theorem Outcome.of_eq_error (hrun : p s = .error e) (h : E e) : Outcome p s Q E := by
  simpa only [Outcome, hrun] using h

/-- Programs that run alike have the same outcomes. -/
theorem Outcome.congr {q : Program σ ε α} (hpq : p s = q s) (h : Outcome q s Q E) :
    Outcome p s Q E := by
  unfold Outcome at h ⊢
  rwa [hpq]

theorem Outcome.mono (h : Outcome p s Q E) (hQ : ∀ a s', Q a s' → Q' a s')
    (hE : ∀ e, E e → E' e) : Outcome p s Q' E' :=
  Outcome.intro (fun a s' hrun => hQ a s' (h.of_ok hrun)) (fun e hrun => hE e (h.of_error hrun))

/-- What two outcomes of one program say holds together. -/
theorem Outcome.both (h : Outcome p s Q E) (h' : Outcome p s Q' E') :
    Outcome p s (fun a t => Q a t ∧ Q' a t) (fun e => E e ∧ E' e) :=
  Outcome.intro (fun _ _ hrun => ⟨h.of_ok hrun, h'.of_ok hrun⟩)
    fun _ hrun => ⟨h.of_error hrun, h'.of_error hrun⟩

theorem Outcome.pure (h : Q a s) : Outcome (Pure.pure a : Program σ ε α) s Q E := h

theorem Outcome.abort (h : E e) : Outcome (Program.abort e : Program σ ε α) s Q E := h

theorem bind_eq_ok (hrun : p s = .ok (a, s')) : (p >>= f) s = f a s' := by
  show (p s >>= fun r => f r.1 r.2) = f a s'
  rw [hrun]
  rfl

theorem bind_eq_error (hrun : p s = .error e) : (p >>= f) s = .error e := by
  show (p s >>= fun r => f r.1 r.2) = .error e
  rw [hrun]
  rfl

/-- A sequence that returned went through its first program. -/
theorem exists_of_bind_eq_ok {b : β} (hrun : (p >>= f) s = .ok (b, s')) :
    ∃ a t, p s = .ok (a, t) ∧ f a t = .ok (b, s') := by
  cases hp : p s with
  | ok r => exact ⟨r.1, r.2, rfl, by rwa [bind_eq_ok hp] at hrun⟩
  | error e =>
      rw [bind_eq_error hp] at hrun
      cases hrun

/-- What follows a step matters in the states that the step reaches only. -/
theorem bind_congr_of_ok {q : Program σ ε α} {g : α → Program σ ε β} (hpq : p s = q s)
    (h : ∀ a t, q s = .ok (a, t) → f a t = g a t) : (p >>= f) s = (q >>= g) s := by
  cases hq : q s with
  | ok r =>
      have hr : q s = .ok (r.1, r.2) := hq
      rw [bind_eq_ok (hpq.trans hr), bind_eq_ok hr, h r.1 r.2 hr]
  | error e => rw [bind_eq_error (hpq.trans hq), bind_eq_error hq]

/-- What returned outside of a state went through its first part as well. -/
theorem exists_of_except_ok {x : Except ε α} {g : α → Except ε β} {b : β}
    (hrun : (x >>= g) = .ok b) : ∃ a, x = .ok a ∧ g a = .ok b := by
  cases x with
  | ok a => exact ⟨a, rfl, hrun⟩
  | error e => cases hrun

/-- What stopped outside of a state stopped in one of its parts. -/
theorem error_of_except_error {x : Except ε α} {g : α → Except ε β}
    (hrun : (x >>= g) = .error e) : x = .error e ∨ ∃ a, x = .ok a ∧ g a = .error e := by
  cases x with
  | ok a => exact Or.inr ⟨a, rfl, hrun⟩
  | error e' =>
      cases hrun
      exact Or.inl rfl

/-- A sequence is judged by its first program, with the rest as postcondition. -/
theorem Outcome.bind (h : Outcome p s (fun a t => Outcome (f a) t R E) E) :
    Outcome (p >>= f) s R E := by
  cases hrun : p s with
  | ok r =>
      have hrest := h.of_ok hrun
      simpa only [Outcome, bind_eq_ok hrun] using hrest
  | error e => exact Outcome.of_eq_error (bind_eq_error hrun) (h.of_error hrun)

/-- Sequencing after a program whose result and new state are known. -/
theorem Outcome.bind_ok (hrun : p s = .ok (a, s')) (h : Outcome (f a) s' R E) :
    Outcome (p >>= f) s R E :=
  Outcome.bind (Outcome.of_eq_ok hrun h)

theorem Outcome.onlyIf {c : Prop} [Decidable c] {q : Program σ ε Unit} {Q : Unit → σ → Prop}
    (hyes : c → Outcome q s Q E) (hno : ¬ c → Q () s) : Outcome (Program.onlyIf c q) s Q E := by
  unfold Program.onlyIf
  split
  · exact hyes ‹_›
  · exact hno ‹_›

theorem onlyIf_pos {c : Prop} [Decidable c] {q : Program σ ε Unit} (h : c) : onlyIf c q = q :=
  if_pos h

theorem onlyIf_neg {c : Prop} [Decidable c] {q : Program σ ε Unit} (h : ¬ c) :
    onlyIf c q = Pure.pure () :=
  if_neg h

theorem onlyIf_bind_neg {c : Prop} [Decidable c] {q : Program σ ε Unit}
    {f : Unit → Program σ ε β} (h : ¬ c) : (onlyIf c q >>= f) s = f () s := by
  rw [onlyIf_neg h]
  rfl

/-- Sequencing after a program that is not run. -/
theorem Outcome.onlyIf_bind_neg {c : Prop} [Decidable c] {q : Program σ ε Unit}
    {f : Unit → Program σ ε β} (hc : ¬ c) (h : Outcome (f ()) s R E) :
    Outcome (Program.onlyIf c q >>= f) s R E := by
  rw [onlyIf_neg hc]
  exact Outcome.bind_ok rfl h

/-- A counted loop keeps an invariant indexed by the iterations made. -/
theorem Outcome.forUpTo {n : Nat} {body : Nat → Program σ ε Unit} {I : Nat → σ → Prop}
    (hstart : I 0 s)
    (hstep : ∀ k t, k < n → I k t → Outcome (body k) t (fun _ => I (k + 1)) E) :
    Outcome (Program.forUpTo n body) s (fun _ => I n) E := by
  induction n with
  | zero => exact Outcome.pure hstart
  | succ n ih =>
      refine Outcome.bind ((ih fun k t hk => hstep k t (by omega)).mono ?_ fun _ h => h)
      intro _ t ht
      exact hstep n t (by omega) ht

/-- An invariant that bounds the index carries a loop to the pass that ends it. -/
theorem Outcome.untilDone {out : ε} {body : Nat → Program σ ε Bool} {I : Nat → σ → Prop}
    {Q : Unit → σ → Prop} {fuel k bound : Nat} (hbound : ∀ k t, I k t → k < bound)
    (hfuel : bound ≤ fuel + k) (hstart : I k s)
    (hstep : ∀ k t, I k t → Outcome (body k) t
      (fun done u => (done = true → Q () u) ∧ (done = false → I (k + 1) u)) E) :
    Outcome (Program.untilDone out body fuel k) s Q E := by
  induction fuel generalizing k s with
  | zero =>
      have hlt := hbound k s hstart
      omega
  | succ fuel ih =>
      refine Outcome.bind ((hstep k s hstart).mono ?_ fun _ he => he)
      rintro done t ⟨hyes, hno⟩
      refine Outcome.onlyIf (fun hfalse => ?_) fun htrue => ?_
      · exact ih (by omega) (hno hfalse)
      · exact hyes (eq_true_of_ne_false htrue)

/-- Two counted loops whose bodies keep a relation between their states go in step. -/
theorem forUpTo_inStep {τ δ : Type} {n : Nat} {body : Nat → Program σ ε Unit}
    {body' : Nat → Program τ δ Unit} {R : Nat → σ → τ → Prop} {t : τ} (hstart : R 0 s t)
    (hstep : ∀ k u v, k < n → R k u v → ∃ u' v', body k u = .ok ((), u') ∧
      body' k v = .ok ((), v') ∧ R (k + 1) u' v') :
    ∃ s' t', forUpTo n body s = .ok ((), s') ∧ forUpTo n body' t = .ok ((), t') ∧ R n s' t' := by
  induction n with
  | zero => exact ⟨s, t, rfl, rfl, hstart⟩
  | succ n ih =>
      obtain ⟨u, v, hu, hv, huv⟩ := ih fun k u v hk => hstep k u v (by omega)
      obtain ⟨u', v', hu', hv', huv'⟩ := hstep n u v (by omega) huv
      exact ⟨u', v', (bind_eq_ok hu).trans hu', (bind_eq_ok hv).trans hv', huv'⟩

end Rules

/-! ## The passes of a loop -/

/-- Pass `k` of the loop starts in state `t`. -/
inductive Pass (body : Nat → Program σ ε Bool) (s : σ) : Nat → σ → Prop
  | start : Pass body s 0 s
  | next {k : Nat} {t u : σ} (h : Pass body s k t) (hstep : body k t = .ok (false, u)) :
      Pass body s (k + 1) u

/-- What holds at the start and is kept by a pass that does not end the loop holds at the
start of every pass. -/
theorem Pass.invariant {body : Nat → Program σ ε Bool} {I : Nat → σ → Prop} {s t : σ} {k : Nat}
    (h : Pass body s k t) (hstart : I 0 s)
    (hstep : ∀ k t u, I k t → body k t = .ok (false, u) → I (k + 1) u) : I k t := by
  induction h with
  | start => exact hstart
  | next _ hrun ih => exact hstep _ _ _ ih hrun

/-! ## Programs that only read -/

/-- Whenever the program returns, the state is as before. -/
def ReadOnly (p : Program σ ε α) : Prop := ∀ s a t, p s = .ok (a, t) → t = s

namespace ReadOnly

variable {p : Program σ ε α} {f : α → Program σ ε β}

theorem pure (a : α) : ReadOnly (Pure.pure a : Program σ ε α) := by
  intro s b t hrun
  cases hrun
  rfl

theorem abort (e : ε) : ReadOnly (Program.abort e : Program σ ε α) := by
  intro s a t hrun
  cases hrun

theorem bind (hp : ReadOnly p) (hf : ∀ a, ReadOnly (f a)) : ReadOnly (p >>= f) := by
  intro s b u hrun
  obtain ⟨a, t, hfirst, hrest⟩ := exists_of_bind_eq_ok hrun
  rw [hf a t b u hrest, hp s a t hfirst]

theorem onlyIf {c : Prop} [Decidable c] {q : Program σ ε Unit} (hq : ReadOnly q) :
    ReadOnly (Program.onlyIf c q) := by
  unfold Program.onlyIf
  split
  · exact hq
  · exact ReadOnly.pure ()

/-- What returned went through a first part that only reads. -/
theorem exists_of_bind {s t : σ} {b : β} (hp : ReadOnly p)
    (hrun : (p >>= f) s = .ok (b, t)) : ∃ a, f a s = .ok (b, t) := by
  obtain ⟨a, u, hfirst, hrest⟩ := exists_of_bind_eq_ok hrun
  rw [hp s a u hfirst] at hrest
  exact ⟨a, hrest⟩

end ReadOnly

/-! ## Programs that keep a property -/

/-- Whenever the program returns, a property of the state is kept. -/
def Preserves (P : σ → Prop) (p : Program σ ε α) : Prop :=
  ∀ s a t, P s → p s = .ok (a, t) → P t

namespace Preserves

variable {P : σ → Prop} {p : Program σ ε α} {f : α → Program σ ε β} {q : Program σ ε Unit}

/-- A program that only reads keeps every property. -/
theorem of_readOnly (h : ReadOnly p) : Preserves P p := by
  intro s a t hs hrun
  rwa [h s a t hrun]

theorem pure (a : α) : Preserves P (Pure.pure a : Program σ ε α) :=
  of_readOnly (ReadOnly.pure a)

theorem abort (e : ε) : Preserves P (Program.abort e : Program σ ε α) :=
  of_readOnly (ReadOnly.abort e)

theorem bind (hp : Preserves P p) (hf : ∀ a, Preserves P (f a)) : Preserves P (p >>= f) := by
  intro s b u hs hrun
  obtain ⟨a, t, hfirst, hrest⟩ := exists_of_bind_eq_ok hrun
  exact hf a t b u (hp s a t hs hfirst) hrest

theorem onlyIf {c : Prop} [Decidable c] (hq : Preserves P q) :
    Preserves P (Program.onlyIf c q) := by
  unfold Program.onlyIf
  split
  · exact hq
  · exact pure ()

theorem forUpTo {n : Nat} {body : Nat → Program σ ε Unit} (hbody : ∀ k, Preserves P (body k)) :
    Preserves P (Program.forUpTo n body) := by
  induction n with
  | zero => exact pure ()
  | succ n ih => exact bind ih fun _ => hbody n

theorem runAll {exec : Op → Program σ ε Unit} (hexec : ∀ op, Preserves P (exec op))
    (ops : List Op) : Preserves P (Program.runAll exec ops) := by
  induction ops with
  | nil => exact pure ()
  | cons op ops ih => exact bind (hexec op) fun _ => ih

end Preserves

-- from here on an outcome is established by the rules, never by running the program
attribute [irreducible] Outcome

/-! ## Runs of operations -/

section Runs

variable {exec : Op → Program σ ε Unit} {s s' : σ}

theorem runAll_append (ops ops' : List Op) :
    runAll exec (ops ++ ops') = (do runAll exec ops; runAll exec ops') := by
  induction ops with
  | nil => rfl
  | cons op ops ih =>
      funext s
      show (exec op >>= fun _ => runAll exec (ops ++ ops')) s = _
      rw [ih]
      show _ = ((exec op >>= fun _ => runAll exec ops) >>= fun _ => runAll exec ops') s
      rw [bind_assoc]

/-- An invariant that relates the operations done, those still to do and the
current state holds at the end of every run that returns. -/
theorem runAll_induct {I : List Op → List Op → σ → Prop}
    (hstep : ∀ done op rest t t', I done (op :: rest) t → exec op t = .ok ((), t') →
      I (done ++ [op]) rest t') :
    ∀ {ops done : List Op} {s s' : σ}, I done ops s → runAll exec ops s = .ok ((), s') →
      I (done ++ ops) [] s' := by
  intro ops
  induction ops with
  | nil =>
      intro done s s' hI hrun
      cases hrun
      simpa using hI
  | cons op ops ih =>
      intro done s s' hI hrun
      obtain ⟨_, t, hop, hrest⟩ := exists_of_bind_eq_ok hrun
      have hnext := ih (hstep done op ops s t hI hop) hrest
      simpa using hnext

end Runs

end Program

end ParchTestbench
