import ParchTestbench.ParchFS.Constructor

/-!
# ParchFS: volumes in use

The invariant of a volume under the public operations, and what one operation may do
to it.  Every fact about reachable volumes is derived from these two.

Main results:

- Theorem `Op.effect_of_exec`: what a call that returns has done.
- Theorem `Op.Effect.healthy`: a call keeps the invariant.
- Theorem `run_induct`: an invariant of the calls holds after every run.
-/

namespace ParchTestbench

open ParchFS Program

variable {lo hi last i : Nat} {base s t u : ParchFS} {op : Op}

/-- `s` is a volume with the inodes `0 ... last` that has come from `base`: its blocks
are owned, none lies beyond the pool, and the memory up to block `lo` is untouched. -/
structure Healthy (lo hi last : Nat) (base s : ParchFS) : Prop where
  owned : Ownership lo hi last s
  closed : Closed hi s.mem
  state : s = base.withMem s.mem
  low : ∀ x, x < 4096 * (lo + 1) → s.mem x = base.mem x

namespace Healthy

/-- The invariant survives work on one inode. -/
theorem touches (h : Healthy lo hi last base s) (hown : Ownership lo hi last t)
    (ht : Touches lo hi last i s t) : Healthy lo hi last base t where
  owned := hown
  closed := ht.closed h.closed
  state := by
    rw [ht.state, h.state]
    rfl
  low x hx := (ht.low x hx).trans (h.low x hx)

/-- The invariant survives the creation of an inode. -/
theorem spawned {ty : FType} {size links : Nat} (h : Healthy lo hi last base s)
    (hlast : last < 8191) (ht : Spawned lo hi last ty size links s t) :
    Healthy lo hi (last + 1) base t where
  owned := ht.owned
  closed := ht.closed hlast h.closed
  state := by
    rw [ht.state, h.state]
    rfl
  low x hx := by
    have hlo := h.owned.lo_lt
    rw [ht.low (by omega), h.low x hx]

end Healthy

/-! ## One operation -/

namespace ParchFS.Op

/-- The inodes that a call adds. -/
def added (op : Op) : Nat := if op.creates then 1 else 0

/-- What a call that returns does to a volume with the inodes `0 ... last`. -/
def Effect (lo hi last : Nat) : Op → ParchFS → ParchFS → Prop
  | makeDir env p name, s, u => name.length ≤ 118 ∧ p ≠ 0 ∧ p ≤ last + 1 ∧
      ∃ t v j, Spawned lo hi last .DIR 256 3 s t ∧ Dotted lo hi (last + 1) (last + 1) p t v ∧
        Added lo hi (last + 1) p 0 j (dirEntry env (last + 1) name) v u
  | makeFile _ p name, s, u => ValidParent last s.mem p name ∧
      ∃ t j, Spawned lo hi last .REGULAR 0 1 s t ∧
        Added lo hi (last + 1) p 0 j (fileEntry (last + 1) name) t u
  | write i off buf, s, u => i ≤ last ∧ Written lo hi last i off buf s u
  | getBlkno i off, s, u => i ≤ last ∧ Mapped lo hi last i off s u
  | getDentry i pos, s, u => i ≤ last ∧ fileType s.mem i = FType.DIR.code ∧
      Mapped lo hi last i (128 * ((pos + 1) % 2 ^ 32)) s u
  | addDentry i d, s, u => i ≤ last ∧ fileType s.mem i = FType.DIR.code ∧
      ∃ j, Added lo hi last i 0 j d s u

/-- A call on an inode starts with `get_inode`, which lets allocated inodes pass only. -/
theorem getInode_bind_ok {β : Type} {f : Nat → ParchM β} {b : β} (h : Ownership lo hi last s)
    (hi' : i < 8192) (hrun : (getInode i >>= f) s = .ok (b, t)) :
    i ≤ last ∧ f i s = .ok (b, t) := by
  obtain ⟨_, v, hget, hrest⟩ := exists_of_bind_eq_ok hrun
  obtain ⟨hbit, rfl, rfl⟩ := getInode_ok h.mapped_ge (by omega) hget
  exact ⟨(h.inodeBit_iff _ (by omega)).mp hbit, hrest⟩

/-- A call whose result is dropped. -/
theorem exists_of_drop {β : Type} {p : ParchM β}
    (hrun : (p >>= fun _ => pure ()) s = .ok ((), t)) : ∃ b, p s = .ok (b, t) := by
  obtain ⟨b, v, hp, hrest⟩ := exists_of_bind_eq_ok hrun
  cases hrest
  exact ⟨b, hp⟩

/-- What a call that returns has done. -/
theorem effect_of_exec (h : Healthy lo hi last base s) (hroot : 0 < last)
    (hlast : last + op.added < 8192) (hop : op.WellTyped) (hrun : op.exec s = .ok ((), t)) :
    op.Effect lo hi last s t := by
  have hown := h.owned
  have hclosed := h.closed
  cases op with
  | makeDir env p name =>
      obtain ⟨no, hrun⟩ := exists_of_drop hrun
      exact ((makeDir_outcome hown hclosed (Nat.lt_of_succ_lt_succ hlast) hroot hop).of_ok hrun).2
  | makeFile env p name =>
      obtain ⟨no, hrun⟩ := exists_of_drop hrun
      exact ((makeFile_outcome hown hclosed (Nat.lt_of_succ_lt_succ hlast) hop).of_ok hrun).2
  | write i off buf =>
      obtain ⟨hle, hrun⟩ := getInode_bind_ok hown hop.1 hrun
      exact ⟨hle, (write_outcome hown hclosed hle hop.2.1).of_ok hrun⟩
  | getBlkno i off =>
      obtain ⟨hle, hrun⟩ := getInode_bind_ok hown hop.1 hrun
      obtain ⟨b, hrun⟩ := exists_of_drop hrun
      exact ⟨hle, ((getBlkno_outcome hown hclosed hle hop.2).of_ok hrun).1⟩
  | getDentry i pos =>
      obtain ⟨hle, hrun⟩ := getInode_bind_ok hown hop.1 hrun
      obtain ⟨de, hrun⟩ := exists_of_drop hrun
      exact ⟨hle, getDentry_ok hown hclosed hle hrun⟩
  | addDentry i d =>
      obtain ⟨hle, hrun⟩ := getInode_bind_ok hown hop hrun
      exact ⟨hle, addDentry_ok hown hclosed hle hrun⟩

/-- A call keeps the invariant. -/
theorem Effect.healthy (heff : op.Effect lo hi last s t) (h : Healthy lo hi last base s)
    (hlast : last + op.added < 8192) : Healthy lo hi (last + op.added) base t := by
  cases op with
  | makeDir env p name =>
      rcases heff with ⟨-, -, -, v, w, j, hv, hw, hj⟩
      have hfresh := h.spawned (Nat.lt_of_succ_lt_succ hlast) hv
      exact (hfresh.touches hw.owned hw.touches).touches hj.owned hj.touches
  | makeFile env p name =>
      rcases heff with ⟨-, v, j, hv, hj⟩
      have hfresh := h.spawned (Nat.lt_of_succ_lt_succ hlast) hv
      exact hfresh.touches hj.owned hj.touches
  | write i off buf => exact h.touches heff.2.owned heff.2.touches
  | getBlkno i off => exact h.touches heff.2.grown.owned heff.2.grown.grows.toTouches
  | getDentry i pos => exact h.touches heff.2.2.grown.owned heff.2.2.grown.grows.toTouches
  | addDentry i d =>
      rcases heff with ⟨-, -, j, hj⟩
      exact h.touches hj.owned hj.touches

end ParchFS.Op

/-! ## Runs -/

section Runs

variable {s₀ : ParchFS} {ops : List Op} {I : List Op → ParchFS → Prop}

theorem creations_concat (done : List Op) (op : Op) :
    creations (done ++ [op]) = creations done + op.added := by
  unfold creations Op.added
  rw [List.countP_append, List.countP_singleton]

theorem creations_append (ops ops' : List Op) :
    creations (ops ++ ops') = creations ops + creations ops' :=
  List.countP_append

/-- The side conditions of a run: what is left to do is well typed and leaves the inode
table room. -/
structure Admissible (last : Nat) (done rest : List Op) : Prop where
  wellTyped : ∀ op ∈ rest, op.WellTyped
  room : last + creations (done ++ rest) < 8192

theorem Admissible.left {ops' : List Op} (h : Admissible last [] (ops ++ ops')) :
    Admissible last [] ops := by
  have hroom := h.room
  rw [List.nil_append, creations_append] at hroom
  exact ⟨fun op hop => h.wellTyped op (List.mem_append_left _ hop), by
    rw [List.nil_append]
    omega⟩

theorem Admissible.right (ops : List Op) {ops' : List Op} (h : Admissible last [] (ops ++ ops')) :
    Admissible (last + creations ops) [] ops' := by
  have hroom := h.room
  rw [List.nil_append, creations_append] at hroom
  exact ⟨fun op hop => h.wellTyped op (List.mem_append_right _ hop), by
    rw [List.nil_append]
    omega⟩

/-- An invariant of the calls made so far holds after every run, and the volume stays
healthy. -/
theorem run_induct (hstart : Healthy lo hi last base s₀) (hroot : 0 < last) (hI : I [] s₀)
    (hstep : ∀ done op s t, Healthy lo hi (last + creations done) base s →
      last + creations done + op.added < 8192 → op.WellTyped → op.exec s = .ok ((), t) →
      op.Effect lo hi (last + creations done) s t → I done s → I (done ++ [op]) t)
    (hops : Admissible last [] ops) (hrun : runAll Op.exec ops s₀ = .ok ((), u)) :
    Healthy lo hi (last + creations ops) base u ∧ I ops u := by
  have hall := runAll_induct (I := fun done rest t => Admissible last done rest ∧
    Healthy lo hi (last + creations done) base t ∧ I done t) ?_ ⟨hops, hstart, hI⟩ hrun
  · exact hall.2
  · rintro done op rest t t' ⟨hadm, hhealthy, hinv⟩ hexec
    have hroom := hadm.room
    rw [creations_append, ← List.singleton_append, creations_append, ← List.nil_append [op],
      creations_concat] at hroom
    have hnil : creations [] = 0 := rfl
    have htyped := hadm.wellTyped op List.mem_cons_self
    have heff := Op.effect_of_exec hhealthy (by omega) (by omega) htyped hexec
    have hnext := heff.healthy hhealthy (by omega)
    refine ⟨⟨fun op' hop' => hadm.wellTyped op' (List.mem_cons_of_mem _ hop'), ?_⟩, ?_, ?_⟩
    · rw [List.append_assoc, List.singleton_append]
      exact hadm.room
    · rw [creations_concat, ← Nat.add_assoc]
      exact hnext
    · exact hstep done op t t' hhealthy (by omega) htyped hexec heff hinv

/-- Every run of well-typed calls leaves the volume healthy. -/
theorem run_healthy (hstart : Healthy lo hi last base s₀) (hroot : 0 < last)
    (hops : Admissible last [] ops) (hrun : runAll Op.exec ops s₀ = .ok ((), u)) :
    Healthy lo hi (last + creations ops) base u :=
  (run_induct (I := fun _ _ => True) hstart hroot trivial (fun _ _ _ _ _ _ _ _ _ _ => trivial) hops
    hrun).1

end Runs

/-! ## The volume that a run starts from -/

theorem Founded.state (h : Founded lo hi base s t u) : u = base.withMem u.mem := by
  rw [h.dotted.touches.state, h.spawned.state, h.formatted.state]
  rfl

/-- A founded volume with a marked reserve is healthy. -/
theorem Founded.healthy (h : Founded lo (poolEnd base) base s t u)
    (hr : reserveStart base ≤ 0x7FDDE) : Healthy lo (poolEnd base) 1 base u := by
  have hclosed : Closed (poolEnd base) s.mem := h.formatted.closed hr
  have hlo := h.dotted.owned.lo_lt
  refine ⟨h.dotted.owned, h.dotted.touches.closed (h.spawned.closed (by omega) hclosed), h.state,
    fun x hx => ?_⟩
  rw [h.dotted.touches.low x hx, h.spawned.low (by omega), h.formatted.low x (by omega)]

/-- When the reserve is marked from below the metadata on, the constructor returns a
healthy volume. -/
theorem healthy_of_init {env : Env} (hrun : init env base = .ok ((), u))
    (hr : reserveStart base ≤ 0x7FDDE) :
    Healthy (pa2blkno base base.eKernel) (poolEnd base) 1 base u := by
  have hlt : pa2blkno base base.eKernel + 1 < reserveStart base :=
    (initial_of_init hrun).accepted.lt_reserve
  obtain ⟨s, t, hfounded⟩ := founded_of_init hrun (by omega)
  exact hfounded.healthy hr

end ParchTestbench
