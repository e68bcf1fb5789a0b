import ParchTestbench.ParchFS.LayoutSafety
import Mathlib.Data.Finset.Basic

/-!
# ParchFS: bitmaps as finite sets

A bitmap should be a finite set of positions: `set` inserts, `clear` removes, `set_val`
does either, and the search finds the least position outside.  The source's `clear`
inserts as well, so that this holds as long as no position was cleared last.

Main results:

- Theorem `mem_denotes_iff`: the abstract set is given by the last operation on each
  position.
- Theorem `run_bits`: the set that a run of operations leaves in memory.
- Theorem `implementsSet_iff`: the two sets agree exactly when no last operation is a
  `clear`.
-/

namespace ParchTestbench

open ParchFS Program

variable {s t u : ParchFS} {base p q : Nat}

/-! ## Clearing a bit of a byte -/

section Bits

variable {pos : Nat} {val : Bool}

/-- The predecessor of an odd number differs in its lowest bit only. -/
theorem testBit_pred_of_odd {x k : Nat} (hodd : x % 2 = 1) :
    (x - 1).testBit k = (decide (k ≠ 0) && x.testBit k) := by
  cases k with
  | zero =>
      have hzero : (x - 1) % 2 = 0 := by omega
      simp [Nat.testBit_zero, hzero]
  | succ k =>
      have hhalf : (x - 1) / 2 = x / 2 := by omega
      rw [Nat.testBit_succ, Nat.testBit_succ, hhalf]
      simp

/-- `clear_bit` changes one bit and no other. -/
theorem testBit_clearBit {bits k : Nat} :
    (clearBit bits pos).testBit k = (decide (k ≠ pos) && bits.testBit k) := by
  have hsplit := Nat.div_add_mod bits (2 ^ pos)
  have hlow : bits % 2 ^ pos < 2 ^ pos := Nat.mod_lt _ (Nat.two_pow_pos pos)
  rw [clearBit, Nat.one_shiftLeft, Nat.and_two_pow]
  cases hbit : bits.testBit pos with
  | false =>
      rw [Bool.toNat_false, Nat.zero_mul, Nat.sub_zero]
      by_cases hk : k = pos
      · rw [hk, hbit]
        simp
      · simp [hk]
  | true =>
      have hodd : bits / 2 ^ pos % 2 = 1 := by
        rwa [Nat.testBit_eq_decide_div_mod_eq, decide_eq_true_eq] at hbit
      have hpos : bits / 2 ^ pos ≠ 0 := fun hzero => by
        rw [hzero] at hodd
        cases hodd
      have hone : bits / 2 ^ pos = bits / 2 ^ pos - 1 + 1 := (Nat.succ_pred hpos).symm
      have hpred : bits - 2 ^ pos = 2 ^ pos * (bits / 2 ^ pos - 1) + bits % 2 ^ pos := by
        rw [hone, Nat.mul_succ] at hsplit
        omega
      have hold : bits.testBit k = (2 ^ pos * (bits / 2 ^ pos) + bits % 2 ^ pos).testBit k := by
        rw [hsplit]
      rw [Bool.toNat_true, Nat.one_mul, hpred, hold, Nat.testBit_two_pow_mul_add _ hlow,
        Nat.testBit_two_pow_mul_add _ hlow]
      split
      · have hne : k ≠ pos := by omega
        simp [hne]
      · rw [testBit_pred_of_odd hodd]
        congr 1
        exact decide_eq_decide.mpr (by omega)

/-- The memory after storing `val` at position `pos` of the bit array at `base`. -/
def putBit (m : Mem) (base pos : Nat) (val : Bool) : Mem :=
  m.store (base + pos / 8) 1 (setBitVal (m.load (base + pos / 8) 1) val (pos % 8))

theorem bit_putBit {m : Mem} :
    (putBit m base pos val).bit base q = if q = pos then val else m.bit base q := by
  cases val with
  | true =>
      have hset : putBit m base pos true = m.setBit base pos := rfl
      rw [hset, Mem.bit_setBit]
      by_cases hq : q = pos <;> simp [hq]
  | false =>
      by_cases hbyte : q / 8 = pos / 8
      · have hstore : (putBit m base pos false (base + pos / 8)).toNat =
            clearBit (m (base + pos / 8)).toNat (pos % 8) := by
          have hlt : (m (base + pos / 8)).toNat < 256 := (m (base + pos / 8)).toNat_lt
          have hsub := Nat.sub_le (m (base + pos / 8)).toNat
            ((m (base + pos / 8)).toNat &&& 1 <<< (pos % 8))
          rw [← Mem.load_one, ← Mem.load_one (m := m)] at *
          exact Mem.load_store_of_lt (lt_of_le_of_lt hsub hlt)
        rw [Mem.bit, Mem.bit, hbyte, hstore, testBit_clearBit]
        by_cases hq : q = pos
        · simp [hq]
        · have hne : q % 8 ≠ pos % 8 := by omega
          simp [hq, hne]
      · have hq : q ≠ pos := fun h => hbyte (by rw [h])
        rw [if_neg hq]
        exact Mem.bit_congr (Mem.store_of_notMem (by omega))

theorem Bitmap.setVal_eq (hpos : pos < 2 ^ 31) (h : base + pos / 8 + 1 ≤ s.mapped) :
    Bitmap.setVal base pos val s = .ok ((), s.withMem (putBit s.mem base pos val)) := by
  unfold Bitmap.setVal Bitmap.update
  rw [onlyIf_bind_neg (by omega), bind_eq_ok (load_eq h), store_eq h]
  rfl

end Bits

/-! ## The two bitmap classes -/

/-- The methods of one bitmap object, its size in bytes and what its search stops with
when all positions are in use. -/
structure BitmapMethods where
  clearAll : ParchM Unit
  set : Nat → ParchM Unit
  clear : Nat → ParchM Unit
  setVal : Nat → Bool → ParchM Unit
  get : Nat → ParchM Bool
  firstAvailable : ParchM Nat
  bytes : Nat
  full : Abort

/-- The number of positions. -/
def BitmapMethods.positions (M : BitmapMethods) : Nat := M.bytes * 8

def INodeBitmap.methods : BitmapMethods where
  clearAll := INodeBitmap.clearAll
  set := INodeBitmap.set
  clear := INodeBitmap.clear
  setVal := INodeBitmap.setVal
  get := INodeBitmap.get
  firstAvailable := INodeBitmap.firstAvailable
  bytes := 4096
  full := inodeBitmapFull

def BlockBitmap.methods (this : Nat) : BitmapMethods where
  clearAll := BlockBitmap.clearAll this
  set := BlockBitmap.set this
  clear := BlockBitmap.clear this
  setVal := BlockBitmap.setVal this
  get := BlockBitmap.get this
  firstAvailable := BlockBitmap.firstAvailable this
  bytes := 16 * 4096
  full := blockBitmapFull

/-- The bitmap objects of a volume. -/
def bitmaps : List BitmapMethods :=
  [INodeBitmap.methods, BlockBitmap.methods fsBlockBitmap, BlockBitmap.methods mmBlockBitmap]

/-- A call that changes one position. -/
inductive BitmapOp
  | set (pos : Nat)
  | clear (pos : Nat)
  | setVal (pos : Nat) (val : Bool)
deriving DecidableEq

namespace BitmapOp

def pos : BitmapOp → Nat
  | set pos => pos
  | clear pos => pos
  | setVal pos _ => pos

/-- Make the call on a bitmap. -/
def exec (M : BitmapMethods) : BitmapOp → ParchM Unit
  | set pos => M.set pos
  | clear pos => M.clear pos
  | setVal pos val => M.setVal pos val

/-- Is the position in the set after the call? -/
def value : BitmapOp → Bool
  | set _ => true
  | clear _ => false
  | setVal _ val => val

/-- Is the bit of the position set after the call? -/
def bitValue : BitmapOp → Bool
  | set _ => true
  | clear _ => true
  | setVal _ val => val

def isClear : BitmapOp → Bool
  | clear _ => true
  | _ => false

/-- The same change of a finite set. -/
def apply (op : BitmapOp) (S : Finset Nat) : Finset Nat :=
  if op.value then insert op.pos S else S.erase op.pos

theorem mem_apply {op : BitmapOp} {S : Finset Nat} :
    p ∈ op.apply S ↔ if p = op.pos then op.value = true else p ∈ S := by
  unfold apply
  by_cases hp : p = op.pos <;> cases op.value <;> simp [hp]

theorem bitValue_eq_value_iff (op : BitmapOp) : op.bitValue = op.value ↔ op.isClear = false := by
  cases op <;> simp [bitValue, value, isClear]

end BitmapOp

/-! ## Runs -/

variable {ops : List BitmapOp} {op : BitmapOp} {M : BitmapMethods}

/-- The set after a run from the empty set on. -/
def denotes (ops : List BitmapOp) : Finset Nat := ops.foldl (fun S op => op.apply S) ∅

/-- The last call of a run on position `p`. -/
def lastOp (ops : List BitmapOp) (p : Nat) : Option BitmapOp :=
  ops.reverse.find? fun op => op.pos = p

theorem denotes_concat : denotes (ops ++ [op]) = op.apply (denotes ops) := by
  unfold denotes
  rw [List.foldl_append]
  rfl

theorem lastOp_concat :
    lastOp (ops ++ [op]) p = if op.pos = p then some op else lastOp ops p := by
  unfold lastOp
  rw [List.reverse_append, List.reverse_singleton, List.singleton_append, List.find?_cons]
  by_cases hp : op.pos = p <;> simp [hp]

/-- A position is in the set when the last call on it put it there. -/
theorem mem_denotes_iff : p ∈ denotes ops ↔ (lastOp ops p).map BitmapOp.value = some true := by
  induction ops using List.reverseRecOn with
  | nil => simp [denotes, lastOp]
  | append_singleton ops op ih =>
      rw [denotes_concat, BitmapOp.mem_apply, lastOp_concat]
      by_cases hp : op.pos = p
      · simp [hp]
      · have hne : p ≠ op.pos := fun h => hp h.symm
        rw [if_neg hne, if_neg hp, ih]

/-- Where the bits of a bitmap lie, and what its methods do to them. -/
structure BitmapAt (M : BitmapMethods) (base : Nat) (s : ParchFS) : Prop where
  mapped : base + M.bytes ≤ s.mapped
  small : M.positions ≤ 2 ^ 31
  clearAll_eq : M.clearAll = memset base 0 M.bytes
  set_eq : M.set = Bitmap.set base
  clear_eq : M.clear = Bitmap.set base
  setVal_eq : M.setVal = Bitmap.setVal base
  get_eq : M.get = Bitmap.get base
  firstAvailable_eq : ∃ full, M.full = .panic full ∧
    M.firstAvailable = Bitmap.firstAvailableFrom base full M.positions 0

theorem INodeBitmap.bitmapAt (hmapped : 0x80000000 ≤ s.mapped) :
    BitmapAt INodeBitmap.methods inodeBitmap s where
  mapped := by
    simp only [INodeBitmap.methods, inodeBitmap]
    omega
  small := by
    simp only [BitmapMethods.positions, INodeBitmap.methods]
    omega
  clearAll_eq := by simp only [INodeBitmap.methods, INodeBitmap.clearAll]
  set_eq := rfl
  clear_eq := rfl
  setVal_eq := rfl
  get_eq := rfl
  firstAvailable_eq := ⟨"inode bitmap full", rfl, by
    simp only [BitmapMethods.positions, INodeBitmap.methods, INodeBitmap.firstAvailable]⟩

theorem BlockBitmap.bitmapAt {this : Nat} (hle : this + 65536 ≤ s.mapped) :
    BitmapAt (BlockBitmap.methods this) this s where
  mapped := by
    simp only [BlockBitmap.methods]
    omega
  small := by
    simp only [BitmapMethods.positions, BlockBitmap.methods]
    omega
  clearAll_eq := by simp only [BlockBitmap.methods, BlockBitmap.clearAll]
  set_eq := rfl
  clear_eq := rfl
  setVal_eq := rfl
  get_eq := rfl
  firstAvailable_eq := ⟨"fs block bitmap full", rfl, by
    simp only [BitmapMethods.positions, BlockBitmap.methods, BlockBitmap.firstAvailable]⟩

theorem exists_bitmapAt (hM : M ∈ bitmaps) (hmapped : 0x80000000 ≤ s.mapped) :
    ∃ base, BitmapAt M base s := by
  simp only [bitmaps, List.mem_cons, List.not_mem_nil, or_false] at hM
  rcases hM with rfl | rfl | rfl
  · exact ⟨_, INodeBitmap.bitmapAt hmapped⟩
  · exact ⟨_, BlockBitmap.bitmapAt (by simp only [fsBlockBitmap]; omega)⟩
  · exact ⟨_, BlockBitmap.bitmapAt (by simp only [mmBlockBitmap]; omega)⟩

namespace BitmapAt

theorem withMem (h : BitmapAt M base s) (m : Mem) : BitmapAt M base (s.withMem m) := by
  cases h
  constructor <;> assumption

theorem byte_le (h : BitmapAt M base s) (hp : p < M.positions) : base + p / 8 + 1 ≤ s.mapped := by
  have hle := h.mapped
  unfold BitmapMethods.positions at hp
  omega

/-- A call stores its bit value at its position. -/
theorem exec_eq (h : BitmapAt M base s) (hp : op.pos < M.positions) :
    op.exec M s = .ok ((), s.withMem (putBit s.mem base op.pos op.bitValue)) := by
  have hsmall := h.small
  have hbyte := h.byte_le hp
  cases op with
  | set pos =>
      have hrun := Bitmap.set_eq (s := s) (show pos < 2 ^ 31 from hp.trans_le hsmall) hbyte
      rw [BitmapOp.exec, h.set_eq, hrun]
      rfl
  | clear pos =>
      have hrun := Bitmap.set_eq (s := s) (show pos < 2 ^ 31 from hp.trans_le hsmall) hbyte
      rw [BitmapOp.exec, h.clear_eq, hrun]
      rfl
  | setVal pos val =>
      rw [BitmapOp.exec, h.setVal_eq]
      exact Bitmap.setVal_eq (hp.trans_le hsmall) hbyte

/-- The bits that a run leaves: those that the last call on the position stored. -/
theorem run_bits (h : BitmapAt M base s) (hops : ∀ op ∈ ops, op.pos < M.positions) :
    ∃ m, (do
        M.clearAll
        runAll (BitmapOp.exec M) ops) s = .ok ((), s.withMem m) ∧
      ∀ p, p < M.positions → m.bit base p = ((lastOp ops p).map BitmapOp.bitValue).getD false := by
  induction ops using List.reverseRecOn with
  | nil =>
      refine ⟨s.mem.fill base M.bytes 0, ?_, fun p hp => ?_⟩
      · rw [h.clearAll_eq, bind_eq_ok (memset_eq h.mapped)]
        rfl
      · unfold BitmapMethods.positions at hp
        exact Mem.bit_eq_false (Mem.fill_of_mem (by omega) (by omega))
  | append_singleton ops op ih =>
      obtain ⟨m, hrun, hbits⟩ := ih fun op' hop' => hops op' (List.mem_append_left _ hop')
      have hpos := hops op (List.mem_append_right _ (List.mem_singleton_self op))
      have hlast : runAll (BitmapOp.exec M) [op] (s.withMem m) =
          .ok ((), s.withMem (putBit m base op.pos op.bitValue)) := by
        unfold runAll
        rw [bind_eq_ok ((h.withMem m).exec_eq hpos)]
        rfl
      refine ⟨putBit m base op.pos op.bitValue, ?_, fun p hp => ?_⟩
      · rw [runAll_append, ← bind_assoc, bind_eq_ok hrun, hlast]
      · rw [bit_putBit, lastOp_concat]
        by_cases heq : op.pos = p
        · simp [heq]
        · have hne : p ≠ op.pos := fun h => heq h.symm
          rw [if_neg hne, if_neg heq, hbits p hp]

end BitmapAt

/-! ## Against the abstract set -/

/-- In state `t`, after the calls `ops`, the bitmap is the finite set that they denote:
`get` tells the members, the search finds the least non-member, and one more call
changes no other position. -/
structure ImplementsSet (M : BitmapMethods) (ops : List BitmapOp) (t : ParchFS) : Prop where
  get : ∀ p, p < M.positions → M.get p t = .ok (decide (p ∈ denotes ops), t)
  first : ∀ p, p < M.positions → p ∉ denotes ops → (∀ q, q < p → q ∈ denotes ops) →
    M.firstAvailable t = .ok (p, t)
  full : (∀ p, p < M.positions → p ∈ denotes ops) → M.firstAvailable t = .error M.full
  frame : ∀ op : BitmapOp, op.pos < M.positions → ∃ u, op.exec M t = .ok ((), u) ∧
    ∀ p, p < M.positions → p ≠ op.pos → ∀ b, M.get p t = .ok (b, t) → M.get p u = .ok (b, u)

namespace BitmapAt

theorem get_bit (h : BitmapAt M base t) (hp : p < M.positions) :
    M.get p t = .ok (t.mem.bit base p, t) := by
  rw [h.get_eq]
  exact Bitmap.get_eq (hp.trans_le h.small) (h.byte_le hp)

/-- Bits that are those of the set make the bitmap that set. -/
theorem implementsSet (h : BitmapAt M base t)
    (hbits : ∀ p, p < M.positions → t.mem.bit base p = decide (p ∈ denotes ops)) :
    ImplementsSet M ops t := by
  obtain ⟨full, hfull, hsearch⟩ := h.firstAvailable_eq
  have hsmall := h.small
  refine ⟨fun p hp => ?_, fun p hp hout hin => ?_, fun hall => ?_, fun op hop => ?_⟩
  · rw [h.get_bit hp, hbits p hp]
  · rw [hsearch]
    refine Bitmap.firstAvailableFrom_eq (by omega) (fun q hq => h.byte_le (by omega))
      (Nat.zero_le p) (by omega) ?_ fun q _ hq => ?_
    · rw [hbits p hp, decide_eq_false hout]
    · rw [hbits q (by omega), decide_eq_true (hin q hq)]
  · rw [hsearch, hfull]
    refine Bitmap.firstAvailableFrom_full (by omega) (fun q hq => h.byte_le (by omega)) ?_
    intro q _ hq
    rw [hbits q (by omega), decide_eq_true (hall q (by omega))]
  · refine ⟨_, h.exec_eq hop, fun p hp hne b hb => ?_⟩
    rw [h.get_bit hp] at hb
    rw [(h.withMem _).get_bit hp, mem_withMem, bit_putBit, if_neg hne]
    cases hb
    rfl

/-- A bit and the membership agree exactly when the last call on the position is no
`clear`. -/
theorem bit_eq_iff :
    ((lastOp ops p).map BitmapOp.bitValue).getD false = decide (p ∈ denotes ops) ↔
      ∀ op, lastOp ops p = some op → op.isClear = false := by
  rcases hlast : lastOp ops p with - | op
  · have hout : p ∉ denotes ops := by
      rw [mem_denotes_iff, hlast, Option.map_none]
      intro hnone
      cases hnone
    simp [hout]
  · have hmem : p ∈ denotes ops ↔ op.value = true := by
      rw [mem_denotes_iff, hlast]
      exact Option.some_inj
    simp [hmem, ← BitmapOp.bitValue_eq_value_iff]

end BitmapAt

/-- A run of calls leaves the finite set that they denote exactly when no position was
last cleared. -/
theorem implementsSet_iff (hmapped : 0x80000000 ≤ s.mapped) (hM : M ∈ bitmaps)
    (hops : ∀ op ∈ ops, op.pos < M.positions) :
    (∃ t, (do
        M.clearAll
        runAll (BitmapOp.exec M) ops) s = .ok ((), t) ∧ ImplementsSet M ops t) ↔
      ∀ p op, lastOp ops p = some op → op.isClear = false := by
  obtain ⟨base, hbase⟩ := exists_bitmapAt hM hmapped
  obtain ⟨m, hrun, hbits⟩ := hbase.run_bits hops
  have hat := hbase.withMem m
  constructor
  · rintro ⟨t, hrun', himpl⟩ p op hlast
    rw [hrun] at hrun'
    cases hrun'
    have hmem : op ∈ ops := List.mem_reverse.mp (List.mem_of_find?_eq_some hlast)
    have hpos : op.pos = p := by simpa using List.find?_some hlast
    have hp : p < M.positions := hpos ▸ hops op hmem
    have hget := himpl.get p hp
    rw [hat.get_bit hp] at hget
    have hbit : m.bit base p = decide (p ∈ denotes ops) := by
      injection hget with hpair
      injection hpair
    exact BitmapAt.bit_eq_iff.mp ((hbits p hp).symm.trans hbit) op hlast
  · intro hclear
    refine ⟨s.withMem m, hrun, hat.implementsSet fun p hp => ?_⟩
    rw [mem_withMem, hbits p hp, BitmapAt.bit_eq_iff]
    exact hclear p

theorem implementsSet_iff_sample :
    (∃ t, (do
        INodeBitmap.methods.clearAll
        runAll (BitmapOp.exec INodeBitmap.methods) [.set 3, .setVal 3 false])
          (ofSymbols blankImage (layout 0x80200000 0xffdde000)) = .ok ((), t) ∧
        ImplementsSet INodeBitmap.methods [.set 3, .setVal 3 false] t) ↔
      ∀ p op, lastOp [.set 3, .setVal 3 false] p = some op → op.isClear = false := by
  apply implementsSet_iff
  · decide
  · exact List.mem_cons_self
  · decide

/-- After `set(0)` and `clear(0)` position 0 is still in use. -/
theorem not_implementsSet_clear :
    ¬ ∃ t, (do
        INodeBitmap.methods.clearAll
        runAll (BitmapOp.exec INodeBitmap.methods) [.set 0, .clear 0])
          (ofSymbols blankImage (layout 0x80200000 0xffdde000)) = .ok ((), t) ∧
        ImplementsSet INodeBitmap.methods [.set 0, .clear 0] t := by
  rintro ⟨t, hrun, himpl⟩
  have hmapped : 0x80000000 ≤ (ofSymbols blankImage (layout 0x80200000 0xffdde000)).mapped := by
    decide
  have hone : INodeBitmap.methods ∈ bitmaps := List.mem_cons_self
  obtain ⟨base, hbase⟩ := exists_bitmapAt hone hmapped
  obtain ⟨m, hrun', hbits⟩ := hbase.run_bits
    (show ∀ op ∈ [BitmapOp.set 0, .clear 0], op.pos < INodeBitmap.methods.positions by decide)
  have hzero : 0 < INodeBitmap.methods.positions := by decide
  rw [hrun'] at hrun
  cases hrun
  have hget := himpl.get 0 hzero
  have hin : ¬ decide (0 ∈ denotes [.set 0, .clear 0]) = true := by decide
  rw [(hbase.withMem m).get_bit hzero, mem_withMem, hbits 0 hzero] at hget
  injection hget with hpair
  injection hpair with hbit
  exact hin (hbit.symm.trans rfl)

end ParchTestbench
