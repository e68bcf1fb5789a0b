import Mathlib.Algebra.Group.Nat.Defs
import ParchTestbench.Machine.LineEditing
import ParchTestbench.UsrLib.BasicIo

/-!
# The C user library: reading a line

`tb_getline` edits the line in the caller's buffer.  The buffer is all that it may store to,
so that a run that comes back has stayed inside.

Main results:

- Theorem `tbGetlineFrom_typed`: the loop types the input into the buffer.
- Theorem `tbGetline_typed`: the line, its NUL and its length, for every input.
-/

namespace ParchTestbench

namespace BasicIo

open LineEditing Program

/-- The bytes that end a line. -/
def endsInput (b : UInt8) : Bool := b = 10 ∨ b = 13 ∨ b = 0xff ∨ b = 4

/-- The line that is typed into a buffer of `length` bytes, and the input that is left. -/
def lineOf (length : UInt64) (stdin : List UInt8) : List UInt8 × List UInt8 :=
  typed 127 endsInput (length.toNat - 1) [] stdin

/-- The memory has the line at this address. -/
def HoldsLine (mem : UInt64 → UInt8) (buf : UInt64) (text : List UInt8) : Prop :=
  ∀ i b, text[i]? = some b → mem (buf + UInt64.ofNat i) = b

/-- While the line is typed: the input that is left, the line in the buffer, and the memory
outside as it was. -/
structure Typing (buf length : UInt64) (mem : UInt64 → UInt8) (line keys : List UInt8)
    (s : CState) : Prop where
  stdin : s.stdin = keys
  base : s.base = buf
  size : s.size = length
  holds : HoldsLine s.mem buf line
  outside : ∀ addr, ¬ addr - buf < length → s.mem addr = mem addr

/-- A line that has been read: its length is returned, and a NUL follows it. -/
structure LineRead (buf length : UInt64) (mem : UInt64 → UInt8) (line : List UInt8)
    (ret : UInt64) (s : CState) : Prop where
  count : ret.toNat = line.length
  bound : line.length ≤ length.toNat - 1
  holds : HoldsLine s.mem buf line
  nul : s.mem (buf + ret) = 0
  outside : ∀ addr, ¬ addr - buf < length → s.mem addr = mem addr

variable {buf length : UInt64} {mem : UInt64 → UInt8} {line keys : List UInt8} {b : UInt8}
  {s : CState} {k j fuel : Nat}

/-! ## Addresses -/

theorem offset_eq (buf : UInt64) (k : Nat) : buf + UInt64.ofNat k - buf = UInt64.ofNat k := by
  rw [UInt64.add_comm, UInt64.add_sub_cancel]

theorem offset_lt_iff (hk : k < 2 ^ 64) :
    buf + UInt64.ofNat k - buf < length ↔ k < length.toNat := by
  rw [offset_eq, UInt64.ofNat_lt_iff hk]

theorem offset_inj (hk : k < 2 ^ 64) (hj : j < 2 ^ 64) :
    buf + UInt64.ofNat k = buf + UInt64.ofNat j ↔ k = j := by
  rw [UInt64.add_right_inj, ← UInt64.toNat_inj, UInt64.toNat_ofNat', UInt64.toNat_ofNat',
    Nat.mod_eq_of_lt hk, Nat.mod_eq_of_lt hj]

/-- A store into the buffer. -/
theorem store_offset (hbase : s.base = buf) (hsize : s.size = length) (hk : k < length.toNat)
    (b : UInt8) : store (buf + UInt64.ofNat k) b s =
      .ok ((), { s with mem := Function.update s.mem (buf + UInt64.ofNat k) b }) := by
  have hlt := length.toNat_lt
  unfold store
  rw [hbase, hsize, if_pos ((offset_lt_iff (by omega)).mpr hk)]

/-- A store behind a line leaves it alone. -/
theorem HoldsLine.update (h : HoldsLine mem buf line) (hle : line.length ≤ k) (hk : k < 2 ^ 64)
    (b : UInt8) : HoldsLine (Function.update mem (buf + UInt64.ofNat k) b) buf line := by
  intro i b' hi
  obtain ⟨hlt, -⟩ := List.getElem?_eq_some_iff.mp hi
  have hne : buf + UInt64.ofNat i ≠ buf + UInt64.ofNat k := fun heq => by
    have := (offset_inj (by omega) hk).mp heq
    omega
  rw [Function.update_of_ne hne]
  exact h i b' hi

/-- A store right behind a line makes it longer. -/
theorem HoldsLine.concat (h : HoldsLine mem buf line) (hk : line.length < 2 ^ 64) (b : UInt8) :
    HoldsLine (Function.update mem (buf + UInt64.ofNat line.length) b) buf (line ++ [b]) := by
  intro i b' hi
  rcases Nat.lt_or_ge i line.length with hlt | hge
  · rw [List.getElem?_append_left hlt] at hi
    exact h.update (Nat.le_refl _) hk b i b' hi
  · obtain ⟨hlt, -⟩ := List.getElem?_eq_some_iff.mp hi
    rw [List.length_append, List.length_singleton] at hlt
    have heq : i = line.length := by omega
    subst heq
    rw [List.getElem?_concat_length, Option.some_inj] at hi
    rw [Function.update_self, hi]

theorem HoldsLine.dropLast (h : HoldsLine mem buf line) : HoldsLine mem buf line.dropLast := by
  intro i b hi
  rw [List.getElem?_dropLast] at hi
  split at hi
  · exact h i b hi
  · cases hi

/-! ## One byte -/

/-- A byte that is read is echoed and returned. -/
theorem tbGetc_cons {rest : List UInt8} (h : s.stdin = b :: rest) :
    ∃ w, tbGetc s = .ok (b, { s with stdin := rest, writes := w }) := by
  have hread : tbRead s = .ok (some b, { s with stdin := rest }) := by
    unfold tbRead
    rw [h]
  have hget : getcNoecho s = .ok (b, { s with stdin := rest }) := by
    rw [getcNoecho, bind_eq_ok hread]
    rfl
  rw [tbGetc, bind_eq_ok hget]
  by_cases hb : b = 0xff
  · rw [if_pos hb]
    exact ⟨_, rfl⟩
  rw [if_neg hb]
  by_cases hb' : b = 13
  · rw [if_pos hb']
    exact ⟨_, rfl⟩
  · rw [if_neg hb']
    exact ⟨_, rfl⟩

/-- The end of the input is read as 0xFF. -/
theorem tbGetc_nil (h : s.stdin = []) : tbGetc s = .ok (0xff, s) := by
  have hread : tbRead s = .ok (none, s) := by
    unfold tbRead
    rw [h]
  have hget : getcNoecho s = .ok (0xff, s) := by
    rw [getcNoecho, bind_eq_ok hread]
    rfl
  rw [tbGetc, bind_eq_ok hget]
  rfl

/-- The erase sequence is written. -/
theorem tbPrintf_erase (s : CState) :
    ∃ w, tbPrintf ['\x08', ' ', '\x08'] [] s = .ok ((), { s with writes := w }) :=
  ⟨_, rfl⟩

/-! ## The loop -/

/-- The end of the line is stored behind it. -/
theorem Typing.terminate (h : Typing buf length mem line keys s)
    (hlen : line.length < length.toNat) :
    ∃ s', BasicIo.terminate buf (buf + UInt64.ofNat line.length) s =
      .ok (UInt64.ofNat line.length, s') ∧ s'.stdin = keys ∧
        LineRead buf length mem line (UInt64.ofNat line.length) s' := by
  have hlt := length.toNat_lt
  have hstore := store_offset h.base h.size hlen 0
  refine ⟨{ s with mem := Function.update s.mem (buf + UInt64.ofNat line.length) 0 }, ?_,
    h.stdin, ?_, by omega, h.holds.update (Nat.le_refl _) (by omega) 0,
    Function.update_self _ _ _, fun addr haddr => ?_⟩
  · rw [BasicIo.terminate, bind_eq_ok hstore, offset_eq]
    rfl
  · rw [UInt64.toNat_ofNat', Nat.mod_eq_of_lt (by omega)]
  · have hne : addr ≠ buf + UInt64.ofNat line.length := fun heq => by
      rw [heq, offset_lt_iff (by omega)] at haddr
      exact haddr hlen
    show Function.update s.mem _ 0 addr = mem addr
    rw [Function.update_of_ne hne, h.outside addr haddr]

/-- The pointer after DEL. -/
theorem backward_eq (hk : k < 2 ^ 64) :
    (if buf + UInt64.ofNat k ≠ buf then buf + UInt64.ofNat k - 1 else buf + UInt64.ofNat k) =
      buf + UInt64.ofNat (k - 1) := by
  rcases k with - | k
  · simp
  · have hne : buf + UInt64.ofNat (k + 1) ≠ buf := fun heq => by
      have hzero : k + 1 = 0 := (offset_inj hk (show 0 < 2 ^ 64 by omega)).mp
        (show buf + UInt64.ofNat (k + 1) = buf + UInt64.ofNat 0 by simpa using heq)
      omega
    rw [if_pos hne, Nat.add_sub_cancel, UInt64.ofNat_add, ← UInt64.add_assoc]
    exact UInt64.add_sub_cancel _ _

/-- The bound of the loop leaves room for the NUL. -/
theorem guard_iff (hlength : 1 ≤ length.toNat) (hk : k < 2 ^ 64) :
    buf + UInt64.ofNat k - buf < length - 1 ↔ k < length.toNat - 1 := by
  have hone : (length - 1).toNat = length.toNat - 1 := UInt64.toNat_sub_of_le _ _ hlength
  rw [offset_lt_iff hk, hone]

/-- A store into the buffer and other changes of the console keep what is outside. -/
theorem Typing.stored {line' : List UInt8} {w : List (Nat × List UInt8)}
    (h : Typing buf length mem line (b :: keys) s) (hk : k < length.toNat) {c : UInt8}
    (hholds : HoldsLine (Function.update s.mem (buf + UInt64.ofNat k) c) buf line') :
    Typing buf length mem line' keys
      { s with stdin := keys, writes := w,
               mem := Function.update s.mem (buf + UInt64.ofNat k) c } := by
  have hlt := length.toNat_lt
  refine ⟨rfl, h.base, h.size, hholds, fun addr haddr => ?_⟩
  have hne : addr ≠ buf + UInt64.ofNat k := fun heq => by
    rw [heq, offset_lt_iff (by omega)] at haddr
    exact haddr hk
  show Function.update s.mem _ c addr = mem addr
  rw [Function.update_of_ne hne, h.outside addr haddr]

/-- One round of the loop types one byte. -/
theorem Typing.step (h : Typing buf length mem line (b :: keys) s)
    (hlen : line.length < length.toNat - 1) (hend : endsInput b = false) (fuel : Nat) :
    ∃ s', Typing buf length mem (edit 127 line b) keys s' ∧
      tbGetlineFrom buf length (fuel + 1) (buf + UInt64.ofNat line.length) s =
        tbGetlineFrom buf length fuel (buf + UInt64.ofNat (edit 127 line b).length) s' := by
  have hlt := length.toNat_lt
  have hguard : buf + UInt64.ofNat line.length - buf < length - 1 :=
    (guard_iff (by omega) (by omega)).mpr hlen
  have hgo : ¬ (b = 10 ∨ b = 13 ∨ b = 0xff ∨ b = 4) := of_decide_eq_false hend
  obtain ⟨w, hget⟩ := tbGetc_cons h.stdin
  have hstore := fun c => store_offset (s := { s with stdin := keys, writes := w })
    (k := line.length) h.base h.size (by omega) c
  rw [tbGetlineFrom, if_pos hguard, bind_eq_ok hget, if_neg hgo]
  by_cases hdel : b = 127
  · -- the byte is dropped with the NUL over it, and the pointer goes back
    obtain ⟨w', hprint⟩ := tbPrintf_erase { s with
      stdin := keys, writes := w,
      mem := Function.update s.mem (buf + UInt64.ofNat line.length) 0 }
    rw [if_pos hdel, bind_eq_ok (hstore 0), bind_eq_ok hprint, backward_eq (by omega), edit,
      if_pos hdel, List.length_dropLast]
    exact ⟨_, h.stored (by omega) ((h.holds.update (Nat.le_refl _) (by omega) 0).dropLast), rfl⟩
  · rw [if_neg hdel, bind_eq_ok (hstore b), edit, if_neg hdel, List.length_append,
      List.length_singleton, UInt64.ofNat_add, ← UInt64.add_assoc]
    exact ⟨_, h.stored (by omega) (h.holds.concat (by omega) b), rfl⟩

/-- The loop types the input into the buffer. -/
theorem tbGetlineFrom_typed (h : Typing buf length mem line keys s)
    (hlen : line.length < length.toNat) (hfuel : keys.length < fuel) :
    ∃ s', tbGetlineFrom buf length fuel (buf + UInt64.ofNat line.length) s =
        .ok (UInt64.ofNat (typed 127 endsInput (length.toNat - 1) line keys).1.length, s') ∧
      s'.stdin = (typed 127 endsInput (length.toNat - 1) line keys).2 ∧
      LineRead buf length mem (typed 127 endsInput (length.toNat - 1) line keys).1
        (UInt64.ofNat (typed 127 endsInput (length.toNat - 1) line keys).1.length) s' := by
  have hlt := length.toNat_lt
  induction fuel generalizing line keys s with
  | zero => cases hfuel
  | succ fuel ih =>
      have hguard : buf + UInt64.ofNat line.length - buf < length - 1 ↔
          line.length < length.toNat - 1 := guard_iff (by omega) (by omega)
      by_cases hfull : length.toNat - 1 ≤ line.length
      · -- the buffer is full
        have htyped : typed 127 endsInput (length.toNat - 1) line keys = (line, keys) := by
          cases keys with
          | nil => rfl
          | cons b keys => rw [typed, if_pos hfull]
        rw [htyped, tbGetlineFrom, if_neg fun hgo => absurd (hguard.mp hgo) (by omega)]
        exact h.terminate hlen
      have hroom : line.length < length.toNat - 1 := by omega
      cases keys with
      | nil =>
          rw [typed, tbGetlineFrom, if_pos (hguard.mpr hroom), bind_eq_ok (tbGetc_nil h.stdin),
            if_pos (by decide)]
          exact h.terminate hlen
      | cons b keys =>
          rw [typed, if_neg hfull]
          rcases hend : endsInput b with - | -
          · obtain ⟨s', htyping, hrun⟩ := h.step hroom hend fuel
            have hnext : (edit 127 line b).length < length.toNat := by
              have hle : (edit 127 line b).length ≤ length.toNat - 1 := length_edit_le hroom
              omega
            rw [if_neg (by simp), hrun]
            exact ih htyping hnext (Nat.lt_of_succ_lt_succ hfuel)
          · obtain ⟨w, hget⟩ := tbGetc_cons h.stdin
            have hstop : b = 10 ∨ b = 13 ∨ b = 0xff ∨ b = 4 := of_decide_eq_true hend
            have hread : Typing buf length mem line keys { s with stdin := keys, writes := w } :=
              ⟨rfl, h.base, h.size, h.holds, h.outside⟩
            rw [if_pos rfl, tbGetlineFrom, if_pos (hguard.mpr hroom), bind_eq_ok hget,
              if_pos hstop]
            exact hread.terminate hlen

/-- For every input the line is typed into the buffer, and nothing is stored outside of
it. -/
theorem tbGetline_typed (stdin : List UInt8) (writes : List (Nat × List UInt8))
    (mem : UInt64 → UInt8) (buf length : UInt64) (hlength : 1 ≤ length.toNat) :
    ∃ s', tbGetline buf length ⟨stdin, writes, mem, buf, length⟩ =
        .ok (UInt64.ofNat (lineOf length stdin).1.length, s') ∧
      s'.stdin = (lineOf length stdin).2 ∧
      LineRead buf length mem (lineOf length stdin).1
        (UInt64.ofNat (lineOf length stdin).1.length) s' := by
  have hne : length ≠ 0 := fun heq => by
    rw [heq] at hlength
    cases hlength
  have hstart : Typing buf length mem [] stdin ⟨stdin, writes, mem, buf, length⟩ :=
    ⟨rfl, rfl, rfl, fun _ _ hi => (by cases hi), fun _ _ => rfl⟩
  have hrun := tbGetlineFrom_typed hstart hlength (Nat.lt_succ_self stdin.length)
  rw [List.length_nil, show UInt64.ofNat 0 = 0 from rfl, UInt64.add_zero] at hrun
  rw [tbGetline, if_neg hne]
  exact hrun

/-- The bytes `a`, DEL, `b`, CR typed into two bytes at address 8. -/
theorem tbGetline_typed_sample : ∃ s',
    tbGetline 8 2 ⟨[97, 127, 98, 13], [], fun _ => 0, 8, 2⟩ =
        .ok (UInt64.ofNat (lineOf 2 [97, 127, 98, 13]).1.length, s') ∧
      s'.stdin = (lineOf 2 [97, 127, 98, 13]).2 ∧
      LineRead 8 2 (fun _ => 0) (lineOf 2 [97, 127, 98, 13]).1
        (UInt64.ofNat (lineOf 2 [97, 127, 98, 13]).1.length) s' :=
  tbGetline_typed [97, 127, 98, 13] [] (fun _ => 0) 8 2 (by decide)

end BasicIo

end ParchTestbench
