import ParchTestbench.ParchFS.Volume
import ParchTestbench.ParchFS.Directory

/-!
# ParchFS: only the bytes change

Whatever the calls do to the mapping, and on every layout, they leave its length and the
addresses from the symbol file alone.

Main results:

- Theorem `Op.keepsSymbols`: every call.
- Theorem `allocBlk_ok`: `alloc_blk` returns a block of the bitmap.
-/

namespace ParchTestbench

open ParchFS Program

variable {base s t : ParchFS} {b : Nat}

/-- `s` differs from `base` in the bytes of the mapping only. -/
def SameSymbols (base s : ParchFS) : Prop := s = base.withMem s.mem

theorem SameSymbols.refl (s : ParchFS) : SameSymbols s s := rfl

theorem SameSymbols.withMem (h : SameSymbols base s) (m : Mem) :
    SameSymbols base (s.withMem m) := by
  unfold SameSymbols
  rw [h]
  rfl

theorem SameSymbols.mapped (h : SameSymbols base s) : s.mapped = base.mapped := by
  rw [h]
  rfl

theorem SameSymbols.eKernel (h : SameSymbols base s) : s.eKernel = base.eKernel := by
  rw [h]
  rfl

theorem SameSymbols.sKernel (h : SameSymbols base s) : s.sKernel = base.sKernel := by
  rw [h]
  rfl

/-- The program changes the bytes of the mapping only. -/
abbrev KeepsSymbols {α : Type} (p : ParchM α) : Prop := ∀ base, Preserves (SameSymbols base) p

namespace KeepsSymbols

variable {α β : Type} {p : ParchM α} {f : α → ParchM β}

theorem of_readOnly (h : ReadOnly p) : KeepsSymbols p := fun _ => Preserves.of_readOnly h

theorem pure (a : α) : KeepsSymbols (Pure.pure a : ParchM α) := fun _ => Preserves.pure a

theorem abort (e : Abort) : KeepsSymbols (Program.abort e : ParchM α) := fun _ => Preserves.abort e

theorem bind (hp : KeepsSymbols p) (hf : ∀ a, KeepsSymbols (f a)) : KeepsSymbols (p >>= f) :=
  fun base => Preserves.bind (hp base) fun a => hf a base

theorem onlyIf {c : Prop} [Decidable c] {q : ParchM Unit} (hq : KeepsSymbols q) :
    KeepsSymbols (Program.onlyIf c q) := fun base => Preserves.onlyIf (hq base)

theorem forUpTo {n : Nat} {body : Nat → ParchM Unit} (hbody : ∀ k, KeepsSymbols (body k)) :
    KeepsSymbols (Program.forUpTo n body) := fun base => Preserves.forUpTo fun k => hbody k base

theorem load (a n : Nat) : KeepsSymbols (ParchFS.load a n) := of_readOnly (load_readOnly a n)

theorem assert {c : Prop} [Decidable c] (expression : String) :
    KeepsSymbols (ParchFS.assert c expression) := of_readOnly (assert_readOnly expression)

/-- A step that puts other bytes into the mapping, or aborts. -/
theorem of_withMem (h : ∀ s a t, p s = .ok (a, t) → ∃ m, t = s.withMem m) :
    KeepsSymbols p := by
  intro base s a t hs hrun
  obtain ⟨m, rfl⟩ := h s a t hrun
  exact hs.withMem m

theorem store (a n v : Nat) : KeepsSymbols (ParchFS.store a n v) := of_withMem fun s _ t hrun => by
  unfold ParchFS.store at hrun
  split at hrun <;> cases hrun
  exact ⟨_, rfl⟩

theorem memset (a : Nat) (c : UInt8) (n : Nat) : KeepsSymbols (ParchFS.memset a c n) :=
  of_withMem fun s _ t hrun => by
    unfold ParchFS.memset at hrun
    split at hrun <;> cases hrun
    exact ⟨_, rfl⟩

theorem memcpy (a : Nat) (bs : List UInt8) : KeepsSymbols (ParchFS.memcpy a bs) :=
  of_withMem fun s _ t hrun => by
    unfold ParchFS.memcpy at hrun
    split at hrun <;> cases hrun
    exact ⟨_, rfl⟩

end KeepsSymbols

/-! ## Allocation -/

namespace KeepsSymbols

theorem bitmapGet (a pos : Nat) : KeepsSymbols (Bitmap.get a pos) :=
  of_readOnly (bitmapGet_readOnly a pos)

theorem bitmapSet (a pos : Nat) : KeepsSymbols (Bitmap.set a pos) :=
  bind (onlyIf (abort _)) fun _ => bind (load _ _) fun _ => store _ _ _

theorem firstAvailableFrom (a : Nat) (full : String) (fuel pos : Nat) :
    KeepsSymbols (Bitmap.firstAvailableFrom a full fuel pos) := by
  induction fuel generalizing pos with
  | zero => exact abort _
  | succ fuel ih =>
      refine bind (bitmapGet _ _) fun used => ?_
      split
      · exact ih _
      · exact pure _

theorem decrement (a : Nat) : KeepsSymbols (ParchFS.decrement a) :=
  bind (load _ _) fun _ => store _ _ _

theorem getBlk (b : Nat) : KeepsSymbols (ParchFS.getBlk b) := of_readOnly (getBlk_readOnly b)

theorem allocBlk : KeepsSymbols ParchFS.allocBlk :=
  bind (firstAvailableFrom _ _ _ _) fun _ => bind (bitmapSet _ _) fun _ =>
    bind (bitmapSet _ _) fun _ => bind (decrement _) fun _ => bind (getBlk _) fun _ =>
      bind (memset _ _ _) fun _ => pure _

theorem getInode (i : Nat) : KeepsSymbols (ParchFS.getInode i) :=
  bind (bitmapGet _ _) fun _ => bind (assert _) fun _ => pure _

theorem allocInode : KeepsSymbols ParchFS.allocInode :=
  bind (firstAvailableFrom _ _ _ _) fun _ => bind (decrement _) fun _ =>
    bind (bitmapSet _ _) fun _ => bind (getInode _) fun _ => bind (memset _ _ _) fun _ =>
      bind (getInode _) fun _ => pure _

end KeepsSymbols

/-! ## Inodes -/

namespace KeepsSymbols

theorem allocInto (p : Nat) : KeepsSymbols (INode.allocInto p) := bind allocBlk fun _ => store _ _ _

theorem allocIfBad (p : Nat) : KeepsSymbols (INode.allocIfBad p) :=
  bind (load _ _) fun _ => onlyIf (allocInto p)

theorem fillIndirect2Block (off i blks fuel : Nat) :
    KeepsSymbols (INode.fillIndirect2Block off i blks fuel) := by
  induction fuel with
  | zero => exact pure _
  | succ fuel ih =>
      refine bind (load _ _) fun blk => ?_
      split
      · refine bind (allocInto _) fun _ => ?_
        split
        · exact pure _
        · exact ih
      · exact ih

theorem fillIndirect2 (off blks fuel i : Nat) :
    KeepsSymbols (INode.fillIndirect2 off blks fuel i) := by
  induction fuel generalizing i with
  | zero => exact abort _
  | succ fuel ih =>
      exact bind (allocIfBad _) fun _ => bind (load _ _) fun _ => bind (getBlk _) fun _ =>
        bind (fillIndirect2Block _ _ _ _) fun _ => onlyIf (ih _)

theorem getBlknoIndirect2 (i off : Nat) (create : Bool) :
    KeepsSymbols (INode.getBlknoIndirect2 i off create) := by
  refine bind (onlyIf (bind (allocIfBad _) fun _ => bind (load _ _) fun _ =>
    bind (getBlk _) fun _ => fillIndirect2 _ _ _ _)) fun _ => ?_
  split
  · exact bind (load _ _) fun _ => bind (getBlk _) fun _ => bind (load _ _) fun _ =>
      bind (getBlk _) fun _ => load _ _
  · exact abort _

theorem getBlknoIndirect (i off : Nat) (create : Bool) :
    KeepsSymbols (INode.getBlknoIndirect i off create) := by
  refine bind (onlyIf (bind (allocIfBad _) fun _ => bind (load _ _) fun _ =>
    bind (getBlk _) fun _ => forUpTo fun _ => allocIfBad _)) fun _ => ?_
  split
  · exact bind (load _ _) fun _ => bind (getBlk _) fun _ => load _ _
  · exact getBlknoIndirect2 _ _ _

theorem getBlkno (i off : Nat) (create : Bool) : KeepsSymbols (INode.getBlkno i off create) := by
  refine bind (load _ _) fun _ => bind (onlyIf (store _ _ _)) fun _ => bind (load _ _) fun _ =>
    bind (assert _) fun _ => bind (onlyIf (forUpTo fun _ => allocIfBad _)) fun _ => ?_
  split
  · exact load _ _
  · exact getBlknoIndirect _ _ _

theorem writeLoop (i off : Nat) (buf : List UInt8) : KeepsSymbols (INode.writeLoop i off buf) := by
  induction off, buf using INode.writeLoop.induct with
  | case1 off buf hnil =>
      unfold INode.writeLoop
      rw [dif_pos hnil]
      exact pure _
  | case2 off buf hne ih =>
      unfold INode.writeLoop
      rw [dif_neg hne]
      exact bind (getBlkno _ _ _) fun _ => bind (onlyIf (abort _)) fun _ =>
        bind (getBlk _) fun _ => bind (memcpy _ _) fun _ => ih

theorem write (i off : Nat) (buf : List UInt8) : KeepsSymbols (INode.write i off buf) :=
  bind (load _ _) fun _ => bind (onlyIf (bind (getBlkno _ _ _) fun _ => pure _)) fun _ =>
    writeLoop _ _ _

theorem getDentry (i pos : Nat) : KeepsSymbols (INode.getDentry i pos) :=
  bind (load _ _) fun _ => bind (onlyIf (abort _)) fun _ => bind (getBlkno _ _ _) fun _ =>
    bind (onlyIf (abort _)) fun _ => bind (getBlkno _ _ _) fun _ =>
      bind (onlyIf (abort _)) fun _ => bind (getBlk _) fun _ => pure _

theorem addDentryFrom (i : Nat) (d : DEntry) (fuel pos : Nat) :
    KeepsSymbols (INode.addDentryFrom i d fuel pos) := by
  induction fuel generalizing pos with
  | zero => exact abort _
  | succ fuel ih =>
      refine bind (load _ _) fun _ => onlyIf (bind (getDentry _ _) fun _ =>
        bind (load _ _) fun inode => ?_)
      split
      · exact bind (memset _ _ _) fun _ => memcpy _ _
      · exact ih _

theorem addDentry (i : Nat) (d : DEntry) : KeepsSymbols (INode.addDentry i d) :=
  bind (load _ _) fun _ => bind (onlyIf (abort _)) fun _ => addDentryFrom _ _ _ _

end KeepsSymbols

/-! ## Calls -/

namespace KeepsSymbols

variable (env : Env) (parent : Nat) (name : List UInt8)

theorem initInode (i : Nat) (ty : FType) (size links : Nat) :
    KeepsSymbols (ParchFS.initInode env i ty size links) :=
  bind (store _ _ _) fun _ => bind (store _ _ _) fun _ => bind (store _ _ _) fun _ =>
    bind (store _ _ _) fun _ => bind (store _ _ _) fun _ => bind (store _ _ _) fun _ =>
      bind (store _ _ _) fun _ => bind (store _ _ _) fun _ => bind (store _ _ _) fun _ =>
        store _ _ _

theorem makeDir : KeepsSymbols (ParchFS.makeDir env parent name) := by
  refine bind (assert _) fun _ => bind (assert _) fun _ => bind allocInode fun no =>
    bind (getInode _) fun _ => bind (initInode _ _ _ _ _) fun _ => bind (addDentry _ _) fun _ =>
      bind (addDentry _ _) fun _ => ?_
  split
  · exact bind (onlyIf (abort _)) fun _ => pure _
  · exact bind (getInode _) fun _ => bind (addDentry _ _) fun _ => pure _

theorem makeFile : KeepsSymbols (ParchFS.makeFile env parent name) :=
  bind (assert _) fun _ => bind (bitmapGet _ _) fun _ => bind (assert _) fun _ =>
    bind (assert _) fun _ => bind allocInode fun _ => bind (getInode _) fun _ =>
      bind (initInode _ _ _ _ _) fun _ => bind (getInode _) fun _ => bind (load _ _) fun _ =>
        bind (assert _) fun _ => bind (addDentry _ _) fun _ => pure _

end KeepsSymbols

/-- Every call changes the bytes of the mapping only. -/
theorem ParchFS.Op.keepsSymbols (op : Op) : KeepsSymbols op.exec := by
  cases op with
  | makeDir env p name => exact (KeepsSymbols.makeDir env p name).bind fun _ => .pure _
  | makeFile env p name => exact (KeepsSymbols.makeFile env p name).bind fun _ => .pure _
  | write i off buf => exact (KeepsSymbols.getInode i).bind fun _ => .write _ _ _
  | getBlkno i off =>
      exact (KeepsSymbols.getInode i).bind fun _ =>
        (KeepsSymbols.getBlkno _ _ _).bind fun _ => .pure _
  | getDentry i pos =>
      exact (KeepsSymbols.getInode i).bind fun _ =>
        (KeepsSymbols.getDentry _ _).bind fun _ => .pure _
  | addDentry i d => exact (KeepsSymbols.getInode i).bind fun _ => .addDentry _ _

/-- `alloc_blk` returns a block of the bitmap, on every layout. -/
theorem allocBlk_ok (hmapped : 0x80000000 ≤ s.mapped) (hrun : allocBlk s = .ok (b, t)) :
    b < 524288 ∧ t = s.withMem (allocMem s.mem b) := by
  by_cases hfull : ∃ q, q < 524288 ∧ fsBit s.mem q = false
  · have hfirst := Nat.find_spec hfull
    have hset : ∀ q, q < Nat.find hfull → fsBit s.mem q = true := fun q hq =>
      Bool.eq_true_of_not_eq_false fun hclear =>
        Nat.find_min hfull hq ⟨hq.trans hfirst.1, hclear⟩
    rw [allocBlk_eq hmapped hfirst.1 hfirst.2 hset] at hrun
    cases hrun
    exact ⟨hfirst.1, rfl⟩
  · have hset : ∀ q, q < 524288 → fsBit s.mem q = true := fun q hq =>
      Bool.eq_true_of_not_eq_false fun hclear => hfull ⟨q, hq, hclear⟩
    rw [allocBlk_full hmapped hset] at hrun
    cases hrun

end ParchTestbench
