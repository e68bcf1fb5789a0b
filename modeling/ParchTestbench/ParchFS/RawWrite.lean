import ParchTestbench.ParchFS.BytesOnly
import ParchTestbench.ParchFS.LayoutSafety

/-!
# ParchFS: raw block writes

`write_blk` is for the holder of a block that `alloc_blk` has handed out.  Its second check
compares an offset into the mapping with the physical address of the end of the kernel, which
lies above all offsets, so that it never lets a block pass.

Main results:

- Theorem `writeBlk_eq`: what a raw write does on a volume of an accepted layout.
- Theorem `Session.fits_of_run`: every session keeps the layout.
- Theorem `guardedWrite_iff`: the check does its work on the blocks that were not handed out,
  and on these only.
-/

namespace ParchTestbench

open ParchFS Program

variable {s t u : ParchFS} {b : Nat} {buf : List UInt8} {env : Env} {bin : MMAPBinContent}
  {lines : List (List Char)}

/-! ## The function -/

namespace ParchFS

/-- The two checks of `write_blk`, in front of its copy.  They only read. -/
def writeChecks (blkNo : Nat) : ParchM Unit := do
  let allocated ← BlockBitmap.get fsBlockBitmap blkNo
  onlyIf (allocated = false) (panic "Writing to block that was not allocated.")
  let s ← get
  onlyIf (blkSize * blkNo < s.eKernel) (panic "Overwriting kernel")

/-- `ParchFS::write_blk`. -/
def writeBlk (blkNo : Nat) (buf : List UInt8) : ParchM Unit := do
  writeChecks blkNo
  memcpy (blkSize * blkNo) buf

end ParchFS

/-- What the second check relies on: the mapping has the metadata, and the kernel ends at a
physical address. -/
structure Fits (s : ParchFS) : Prop where
  mapped : 0x80000000 ≤ s.mapped
  eKernel : 0x80000000 ≤ s.eKernel

/-- An accepted layout fits. -/
theorem Accepted.fits (h : Accepted s) : Fits s := by
  have hlt : pa2blkno s s.eKernel + 1 < 524288 := h.lt
  have hbase := h.checked.sKernel_eq
  have hblk : pa2blkno s s.eKernel =
      (s.eKernel + 2 ^ 64 - s.sKernel) % 2 ^ 64 / 4096 % 2 ^ 32 := rfl
  rw [hbase] at hblk
  exact ⟨h.mapped, by omega⟩

/-- What the checks stop with. -/
def refusal (s : ParchFS) (b : Nat) : Abort :=
  if fsBit s.mem b then .panic "Overwriting kernel"
  else .panic "Writing to block that was not allocated."

/-- The checks let no block pass. -/
theorem writeChecks_eq (hs : Fits s) (hb : b < 524288) :
    writeChecks b s = .error (refusal s b) := by
  have hmapped := hs.mapped
  have hget : BlockBitmap.get fsBlockBitmap b s = .ok (fsBit s.mem b, s) :=
    Bitmap.get_eq (by omega) (by simp only [fsBlockBitmap]; omega)
  unfold writeChecks refusal
  rw [bind_eq_ok hget]
  cases fsBit s.mem b with
  | false => rfl
  | true =>
      -- the offset of the block lies below every physical address
      have hbelow : blkSize * b < s.eKernel := by
        have he := hs.eKernel
        unfold blkSize
        omega
      show (do onlyIf (blkSize * b < s.eKernel) (ParchFS.panic "Overwriting kernel") :
        ParchM Unit) s = _
      rw [onlyIf_pos hbelow]
      rfl

/-- A raw write to a block of the volume stops in the checks. -/
theorem writeBlk_eq (hs : Fits s) (hb : b < 524288) :
    writeBlk b buf s = .error (refusal s b) := by
  unfold writeBlk
  rw [bind_eq_error (writeChecks_eq hs hb)]

/-! ## Sessions -/

/-- A volume in use, and the blocks that its user got from `alloc_blk`. -/
structure Session where
  fs : ParchFS
  obtained : List Nat

/-- One call of a user who works with blocks as well. -/
inductive RawOp
  | call (op : Op)
  | allocBlk
  | writeBlk (blkNo : Nat) (buf : List UInt8)

/-- Make the call. -/
def RawOp.exec : RawOp → Program Session Abort Unit
  | call op => fun s => do
      let r ← op.exec s.fs
      pure ((), { s with fs := r.2 })
  | allocBlk => fun s => do
      let r ← ParchFS.allocBlk s.fs
      pure ((), ⟨r.2, r.1 :: s.obtained⟩)
  | writeBlk blkNo buf => fun s => do
      let r ← ParchFS.writeBlk blkNo buf s.fs
      pure ((), { s with fs := r.2 })

/-- The constructor followed by a list of calls. -/
def session (env : Env) (bin : MMAPBinContent) (lines : List (List Char)) (ops : List RawOp) :
    Except Abort Session := do
  let s ← construct env bin lines
  let r ← runAll RawOp.exec ops ⟨s, []⟩
  pure r.2

/-- What a raw write is to do: on a block that was obtained it replaces the bytes of the
block; it is refused on a block of the kernel image and on a block whose bit is clear. -/
structure GuardedWrite (s : Session) (b : Nat) (buf : List UInt8) : Prop where
  written : b ∈ s.obtained →
    writeBlk b buf s.fs = .ok ((), s.fs.withMem (s.fs.mem.copy (4096 * b) buf))
  refused : Overlaps b 0 (s.fs.eKernel - s.fs.sKernel) ∨ fsBit s.fs.mem b = false →
    ∃ message, writeChecks b s.fs = .error (.panic message)

/-- The invariant of a session: the layout is as the constructor left it, and what was
obtained are blocks. -/
structure Session.Sound (base : ParchFS) (s : Session) : Prop where
  symbols : SameSymbols base s.fs
  blocks : ∀ b ∈ s.obtained, b < 524288

namespace Session

variable {base : ParchFS} {ops : List RawOp} {v : Session}

theorem Sound.fits (h : v.Sound base) (hbase : Fits base) : Fits v.fs :=
  ⟨h.symbols.mapped ▸ hbase.mapped, h.symbols.eKernel ▸ hbase.eKernel⟩

theorem writeChecks_keepsSymbols (b : Nat) : KeepsSymbols (writeChecks b) :=
  .bind (.bitmapGet _ _) fun _ => .bind (.onlyIf (.abort _)) fun _ =>
    .bind (.of_readOnly fun _ _ _ hrun => by cases hrun; rfl) fun _ => .onlyIf (.abort _)

theorem writeBlk_keepsSymbols (b : Nat) (buf : List UInt8) : KeepsSymbols (writeBlk b buf) :=
  .bind (writeChecks_keepsSymbols b) fun _ => .memcpy _ _

/-- A call keeps the invariant. -/
theorem sound_of_exec (hbase : Fits base) (op : RawOp) : Preserves (Sound base) op.exec := by
  rintro s ⟨⟩ t hs hrun
  cases op with
  | call op =>
      obtain ⟨r, hop, hlast⟩ := exists_of_except_ok hrun
      cases hlast
      exact ⟨op.keepsSymbols base s.fs _ _ hs.symbols hop, hs.blocks⟩
  | allocBlk =>
      obtain ⟨r, halloc, hlast⟩ := exists_of_except_ok hrun
      cases hlast
      have hblk := (allocBlk_ok (hs.fits hbase).mapped halloc).1
      exact ⟨KeepsSymbols.allocBlk base s.fs _ _ hs.symbols halloc,
        List.forall_mem_cons.mpr ⟨hblk, hs.blocks⟩⟩
  | writeBlk b buf =>
      obtain ⟨r, hwrite, hlast⟩ := exists_of_except_ok hrun
      cases hlast
      exact ⟨writeBlk_keepsSymbols b buf base s.fs _ _ hs.symbols hwrite, hs.blocks⟩

/-- Every session keeps the layout. -/
theorem fits_of_run (hrun : session env bin lines ops = .ok v) :
    Fits v.fs ∧ ∀ b ∈ v.obtained, b < 524288 := by
  obtain ⟨w, hconstruct, hrest⟩ := exists_of_except_ok hrun
  obtain ⟨r, hops, hlast⟩ := exists_of_except_ok hrest
  cases hlast
  obtain ⟨syms, -, hinit⟩ := construct_ok hconstruct
  have hinitial := initial_of_init hinit
  have hbase := hinitial.accepted.fits
  have hsound : Sound (ofSymbols bin syms) ⟨w, []⟩ := ⟨hinitial.symbols, fun _ hmem => by
    cases hmem⟩
  have hend := Preserves.runAll (sound_of_exec hbase) ops _ _ _ hsound hops
  exact ⟨hend.fits hbase, hend.blocks⟩

/-- In every session, a raw write to a block of the volume is refused, whatever the block
holds, and so it does what it is to do exactly on the blocks that were not obtained. -/
theorem guardedWrite_iff (hrun : session env bin lines ops = .ok v) (hb : b < 524288)
    (buf : List UInt8) :
    writeBlk b buf v.fs = .error (refusal v.fs b) ∧ (GuardedWrite v b buf ↔ b ∉ v.obtained) := by
  obtain ⟨hfits, -⟩ := fits_of_run hrun
  refine ⟨writeBlk_eq hfits hb, fun h hmem => ?_, fun hnot => ⟨fun hmem => absurd hmem hnot, ?_⟩⟩
  · have hwritten := h.written hmem
    rw [writeBlk_eq hfits hb] at hwritten
    cases hwritten
  · intro _
    rw [writeChecks_eq hfits hb]
    unfold refusal
    split <;> exact ⟨_, rfl⟩

/-- A new volume hands out the block behind the root's. -/
theorem exists_obtained : ∃ v, session blankEnv blankImage sampleLines [.allocBlk] = .ok v ∧
    v.obtained = [0x202] := by
  obtain ⟨w, hconstruct⟩ := exists_sample
  have hinitial := initial_of_init (init_of_construct sample_read hconstruct)
  have hroot : rootBlkNo (ofSymbols blankImage (layout 0x80200000 0xffdde000)) = 0x201 := by decide
  have hreserve : reserveStart (ofSymbols blankImage (layout 0x80200000 0xffdde000)) = 0x7FDDD := by
    decide
  have hbit : ∀ q, q < 524288 → fsBit w.mem q = decide (q ≤ 0x201 ∨ 0x7FDDD ≤ q) := fun q hq => by
    rw [hinitial.fsBit_eq (by omega) hq, hroot, hreserve]
  have hmapped := hinitial.accepted.fits.mapped
  have halloc : ParchFS.allocBlk w = .ok (0x202, w.withMem (allocMem w.mem 0x202)) := by
    refine allocBlk_eq ?_ (by omega) ?_ fun q hq => ?_
    · rw [(show SameSymbols _ w from hinitial.symbols).mapped]
      exact hmapped
    · rw [hbit _ (by omega), decide_eq_false_iff_not]
      omega
    · rw [hbit q (by omega), decide_eq_true_iff]
      omega
  refine ⟨⟨w.withMem (allocMem w.mem 0x202), [0x202]⟩, ?_, rfl⟩
  unfold session
  rw [hconstruct]
  show (runAll RawOp.exec [.allocBlk] ⟨w, []⟩ >>= fun r => pure r.2) = _
  have hexec : RawOp.allocBlk.exec ⟨w, []⟩ =
      .ok ((), ⟨w.withMem (allocMem w.mem 0x202), [0x202]⟩) := by
    show (ParchFS.allocBlk w >>= fun r => pure ((), (⟨r.2, r.1 :: []⟩ : Session))) = _
    rw [halloc]
    rfl
  rw [runAll, bind_eq_ok hexec]
  rfl

theorem guardedWrite_iff_sample : ∃ v,
    session blankEnv blankImage sampleLines [.allocBlk] = .ok v ∧
      writeBlk 0x202 (List.replicate 4096 1) v.fs = .error (refusal v.fs 0x202) ∧
        (GuardedWrite v 0x202 (List.replicate 4096 1) ↔ 0x202 ∉ v.obtained) := by
  obtain ⟨v, hrun, -⟩ := exists_obtained
  exact ⟨v, hrun, guardedWrite_iff hrun (by omega) _⟩

/-- The first block that a new volume hands out cannot be written to. -/
theorem not_guardedWrite : ∃ v, session blankEnv blankImage sampleLines [.allocBlk] = .ok v ∧
    ¬ GuardedWrite v 0x202 (List.replicate 4096 1) := by
  obtain ⟨v, hrun, hobtained⟩ := exists_obtained
  refine ⟨v, hrun, fun h => ?_⟩
  have hwritten := h.written (hobtained ▸ List.mem_singleton_self _)
  rw [writeBlk_eq (fits_of_run hrun).1 (by omega)] at hwritten
  cases hwritten

end Session

end ParchTestbench
