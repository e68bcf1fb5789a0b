import ParchTestbench.Machine.ByteMemory
import Mathlib.Logic.Function.Basic

/-!
# The C user library: memory helpers

`tb_memcpy` and `tb_memset` of the two builds.  The linux build calls the C standard library,
whose functions copy a range and fill a range; the parch build has loops of its own.

Main results:

- Theorem `tbMemcpy_eq`: between ranges that do not overlap the loop copies.
- Theorem `tbMemset_eq`: the loop fills with zeros.
- Theorem `buildsAgree_iff`: the builds agree exactly on zero bytes and empty ranges.
-/

namespace ParchTestbench

namespace Utils

/-- `tb_memcpy` of the parch build: `while (len --> 0) *(dst++) = *(src++)`. -/
def tbMemcpy (mem : Mem) (src dst : Nat) : Nat → Mem
  | 0 => mem
  | len + 1 => tbMemcpy (Function.update mem dst (mem src)) (src + 1) (dst + 1) len

/-- `tb_memset` of the parch build: `while (len --> 0) *(buf++) = 0`. -/
def tbMemset (mem : Mem) (buf : Nat) (byte : UInt8) : Nat → Mem
  | 0 => mem
  | len + 1 => tbMemset (Function.update mem buf 0) (buf + 1) byte len

namespace Linux

/-- `tb_memcpy` of the linux build, by `memcpy`. -/
def tbMemcpy (mem : Mem) (src dst len : Nat) : Mem := mem.copy dst (mem.bytes src len)

/-- `tb_memset` of the linux build, by `memset`. -/
def tbMemset (mem : Mem) (buf : Nat) (byte : UInt8) (len : Nat) : Mem := mem.fill buf len byte

end Linux

/-- Two ranges of `len` bytes do not overlap. -/
def Apart (src dst len : Nat) : Prop := src + len ≤ dst ∨ dst + len ≤ src

variable {mem : Mem} {src dst buf len x : Nat} {byte : UInt8}

/-! ## The loops -/

/-- The loop of `tb_memcpy` leaves everything outside of its destination. -/
theorem tbMemcpy_of_notMem (h : x < dst ∨ dst + len ≤ x) : tbMemcpy mem src dst len x = mem x := by
  induction len generalizing mem src dst with
  | zero => rfl
  | succ len ih =>
      rw [tbMemcpy, ih (by omega)]
      exact Function.update_of_ne (by omega) _ _

/-- Between ranges that do not overlap the loop of `tb_memcpy` copies. -/
theorem tbMemcpy_eq (h : Apart src dst len) :
    tbMemcpy mem src dst len = Linux.tbMemcpy mem src dst len := by
  have hcopied : ∀ k, k < len → tbMemcpy mem src dst len (dst + k) = mem (src + k) := by
    unfold Apart at h
    induction len generalizing mem src dst with
    | zero => exact fun k hk => absurd hk (Nat.not_lt_zero k)
    | succ len ih =>
        intro k hk
        rw [tbMemcpy]
        cases k with
        | zero =>
            -- the first byte is behind the rest of the loop
            rw [tbMemcpy_of_notMem (by omega), Nat.add_zero, Function.update_self, Nat.add_zero]
        | succ k =>
            have hrest : tbMemcpy (Function.update mem dst (mem src)) (src + 1) (dst + 1) len
                (dst + 1 + k) = Function.update mem dst (mem src) (src + 1 + k) :=
              ih (by omega) k (by omega)
            rw [Function.update_of_ne (by omega)] at hrest
            rwa [Nat.add_right_comm dst 1 k, Nat.add_right_comm src 1 k] at hrest
  funext x
  by_cases hx : dst ≤ x ∧ x < dst + len
  · have hbyte := hcopied (x - dst) (by omega)
    rw [Nat.add_sub_cancel' hx.1] at hbyte
    rw [hbyte, Linux.tbMemcpy, Mem.copy_bytes hx.1 hx.2]
  · rw [tbMemcpy_of_notMem (by omega), Linux.tbMemcpy,
      Mem.copy_of_notMem (by rw [Mem.length_bytes]; omega)]

/-- The loop of `tb_memset` fills with zeros, whatever the byte. -/
theorem tbMemset_eq : tbMemset mem buf byte len = mem.fill buf len 0 := by
  induction len generalizing mem buf with
  | zero =>
      funext x
      rw [Mem.fill_of_notMem (by omega)]
      rfl
  | succ len ih =>
      rw [tbMemset, ih]
      funext x
      by_cases hx : buf ≤ x ∧ x < buf + (len + 1)
      · rw [Mem.fill_of_mem hx.1 hx.2]
        by_cases hfirst : x = buf
        · rw [hfirst, Mem.fill_of_notMem (by omega), Function.update_self]
        · exact Mem.fill_of_mem (by omega) (by omega)
      · rw [Mem.fill_of_notMem (by omega), Mem.fill_of_notMem (by omega),
          Function.update_of_ne (by omega)]

/-- Two fillings of a range are the same exactly when their bytes are, or the range is empty. -/
theorem fill_eq_fill_iff {c : UInt8} : mem.fill buf len byte = mem.fill buf len c ↔
    byte = c ∨ len = 0 := by
  constructor
  · intro heq
    rcases Nat.eq_zero_or_pos len with hzero | hpos
    · exact Or.inr hzero
    · have hbyte := congrFun heq buf
      rw [Mem.fill_of_mem (Nat.le_refl _) (by omega), Mem.fill_of_mem (Nat.le_refl _) (by omega)]
        at hbyte
      exact Or.inl hbyte
  · rintro (rfl | rfl)
    · rfl
    · funext x
      rw [Mem.fill_of_notMem (by omega), Mem.fill_of_notMem (by omega)]

/-! ## The two builds -/

/-- On this memory, `tb_memset` of a buffer and `tb_memcpy` between any two ranges that do not
overlap do what they do in the linux build: they set, or copy, these bytes and no others. -/
structure BuildsAgree (mem : Mem) (buf : Nat) (byte : UInt8) (len : Nat) : Prop where
  memset : tbMemset mem buf byte len = Linux.tbMemset mem buf byte len
  set : ∀ x, buf ≤ x → x < buf + len → tbMemset mem buf byte len x = byte
  notSet : ∀ x, x < buf ∨ buf + len ≤ x → tbMemset mem buf byte len x = mem x
  memcpy : ∀ src dst n, Apart src dst n → tbMemcpy mem src dst n = Linux.tbMemcpy mem src dst n
  copied : ∀ src dst n, Apart src dst n → ∀ k, k < n →
    tbMemcpy mem src dst n (dst + k) = mem (src + k)
  notCopied : ∀ src dst n, Apart src dst n → ∀ x, x < dst ∨ dst + n ≤ x →
    tbMemcpy mem src dst n x = mem x

/-- The builds agree exactly on zero bytes and empty ranges. -/
theorem buildsAgree_iff (mem : Mem) (buf : Nat) (byte : UInt8) (len : Nat) :
    BuildsAgree mem buf byte len ↔ byte = 0 ∨ len = 0 := by
  constructor
  · intro h
    have heq := h.memset
    rw [tbMemset_eq, Linux.tbMemset, fill_eq_fill_iff] at heq
    exact heq.imp_left Eq.symm
  · intro h
    have heq : tbMemset mem buf byte len = mem.fill buf len byte := by
      rw [tbMemset_eq, fill_eq_fill_iff]
      exact h.imp_left Eq.symm
    refine ⟨heq, fun x hx hx' => ?_, fun x hx => ?_, fun src dst n hn => tbMemcpy_eq hn,
      fun src dst n hn k hk => ?_, fun src dst n _ x hx => tbMemcpy_of_notMem hx⟩
    · rw [heq, Mem.fill_of_mem hx hx']
    · rw [heq, Mem.fill_of_notMem hx]
    · rw [tbMemcpy_eq hn, Linux.tbMemcpy, Mem.copy_bytes (by omega) (by omega),
        Nat.add_sub_cancel_left]

/-- One byte set to 1 is 0 afterwards. -/
theorem not_buildsAgree : ¬ ∀ (mem : Mem) (buf : Nat) (byte : UInt8) (len : Nat),
    BuildsAgree mem buf byte len := by
  intro hall
  have hset := (hall (fun _ => 0) 16 1 1).set 16 (by omega) (by omega)
  revert hset
  decide

end Utils

end ParchTestbench
