import ParchTestbench.UsrLib.Decoding

/-!
# The user library: broken characters

How `getchar_noecho` cuts any stream of bytes into sequences.  A byte that cannot continue
a character ends it, and is taken with it; where that is an ASCII byte, it never becomes a
character of its own.

Main results:

- Theorem `exists_sequence`: a stream starts with a sequence, or is unfinished.
- Theorem `Sequence.run`: a call takes one sequence.
- Theorem `asciiKept_iff`: the streams of which no ASCII byte is lost.
-/

namespace ParchTestbench

namespace FmtIo

open ConsoleM Utf8

/-! ## Sequences -/

/-- The first byte announces a character of `n` bytes; a continuation byte announces two. -/
structure Announces (lead : UInt8) (n : Nat) : Prop where
  two_le : 2 ≤ n
  le_six : n ≤ 6
  ge : n = 2 ∧ 0x80 ≤ lead.toNat ∨ 256 - 2 ^ (8 - n) ≤ lead.toNat
  lt : lead.toNat < 256 - 2 ^ (7 - n)

/-- The bytes that one call takes: an ASCII byte, a byte that starts nothing, a first byte
with all that it announces, or one that is cut short, together with the byte that cuts it. -/
inductive Sequence : List UInt8 → Prop
  | ascii {b : UInt8} (hb : b.toNat < 0x80) : Sequence [b]
  | invalid {b : UInt8} (hb : 0xFE ≤ b.toNat) : Sequence [b]
  | complete {lead : UInt8} {conts : List UInt8} (hlead : Announces lead (conts.length + 1))
      (hconts : ∀ b ∈ conts, IsContinuation b) : Sequence (lead :: conts)
  | cut {lead b : UInt8} {conts : List UInt8} {n : Nat} (hlead : Announces lead n)
      (hconts : ∀ b ∈ conts, IsContinuation b) (hlen : conts.length + 1 < n)
      (hb : ¬ IsContinuation b) : Sequence (lead :: (conts ++ [b]))

/-- A character that the end of the stream cuts short. -/
inductive Unfinished : List UInt8 → Prop
  | mk {lead : UInt8} {conts : List UInt8} {n : Nat} (hlead : Announces lead n)
      (hconts : ∀ b ∈ conts, IsContinuation b) (hlen : conts.length + 1 < n) :
      Unfinished (lead :: conts)

/-- Cut from its start on into sequences, the stream has none that an ASCII byte cuts
short. -/
inductive Resyncs : List UInt8 → Prop
  | nil : Resyncs []
  | unfinished {bytes : List UInt8} (h : Unfinished bytes) : Resyncs bytes
  | append {taken rest : List UInt8} (htaken : Sequence taken)
      (hlast : taken.length = 1 ∨ ∀ b ∈ taken.getLast?, 0x80 ≤ b.toNat) (hrest : Resyncs rest) :
      Resyncs (taken ++ rest)

/-! ## Successive calls -/

/-- What a call took from the stream, and what it returned. -/
structure Reading where
  taken : List UInt8
  result : Except Failure Char

/-- The calls of `getchar_noecho` on a stream up to the first that returns an error; every
call but the last takes a byte. -/
def readingsFrom : Nat → List UInt8 → List Reading
  | 0, _ => []
  | fuel + 1, bytes =>
      match getcharNoecho ⟨bytes, []⟩ with
      | (.ok c, con) =>
          ⟨bytes.take (bytes.length - con.stdin.length), .ok c⟩ :: readingsFrom fuel con.stdin
      | (.error e, con) => [⟨bytes.take (bytes.length - con.stdin.length), .error e⟩]

def readings (bytes : List UInt8) : List Reading := readingsFrom (bytes.length + 1) bytes

/-- Every ASCII byte of the stream becomes a character of its own: the calls take the whole
stream, and one that takes such a byte takes no other, and returns it. -/
structure AsciiKept (bytes : List UInt8) (calls : List Reading) : Prop where
  all : calls.flatMap Reading.taken = bytes
  own : ∀ call ∈ calls, ∀ b ∈ call.taken, b.toNat < 0x80 →
    call.taken = [b] ∧ call.result = .ok (Char.ofUInt8 b)

variable {bytes conts rest out taken : List UInt8} {b lead : UInt8} {buf : UInt32} {n fuel : Nat}

/-! ## One call -/

theorem continueChar_append (buf : UInt32) (n : Nat) (rest out : List UInt8)
    (hconts : ∀ b ∈ conts, IsContinuation b) : ∃ buf' : UInt32,
    continueChar buf (conts.length + n) ⟨conts ++ rest, out⟩ = continueChar buf' n ⟨rest, out⟩ := by
  induction conts generalizing buf with
  | nil => exact ⟨buf, by rw [List.length_nil, Nat.zero_add, List.nil_append]⟩
  | cons b bs ih =>
      obtain ⟨buf', hrun⟩ := ih ((buf <<< 6) + (b &&& 0b00111111).toUInt32)
        fun b' hb' => hconts b' (List.mem_cons_of_mem _ hb')
      refine ⟨buf', ?_⟩
      rw [List.length_cons, Nat.add_right_comm, List.cons_append,
        continueChar_cons (hconts b List.mem_cons_self), hrun]

/-- After its first byte a call is in the loop. -/
theorem Announces.run (h : Announces lead n) (rest out : List UInt8) : ∃ buf : UInt32,
    getcharNoecho ⟨lead :: rest, out⟩ = continueChar buf (n - 1) ⟨rest, out⟩ := by
  obtain ⟨buf, -, hrun⟩ := getcharNoecho_wide rest out h.two_le h.le_six h.ge h.lt
  exact ⟨buf, hrun⟩

theorem Announces.wide (h : Announces lead n) : 0x80 ≤ lead.toNat := by
  rcases h.ge with ⟨-, hge⟩ | hge
  · exact hge
  · have htwo := h.two_le
    have hpow : 2 ^ (8 - n) ≤ 2 ^ 6 := Nat.pow_le_pow_right (by omega) (by omega)
    omega

/-- A call takes one sequence. -/
theorem Sequence.run (h : Sequence taken) (rest out : List UInt8) : ∃ c,
    getcharNoecho ⟨taken ++ rest, out⟩ = (.ok c, ⟨rest, out⟩) ∧
      ∀ b, taken = [b] → b.toNat < 0x80 → c = Char.ofUInt8 b := by
  cases h with
  | @ascii b hb =>
      refine ⟨_, getcharNoecho_ascii hb, fun b' heq _ => ?_⟩
      rw [(List.cons.inj heq).1]
  | @invalid b hb =>
      refine ⟨_, getcharNoecho_top hb, fun b' heq hascii => ?_⟩
      rw [(List.cons.inj heq).1] at hb
      omega
  | @complete lead conts hlead hconts =>
      obtain ⟨buf, hrun⟩ := hlead.run (conts ++ rest) out
      obtain ⟨buf', hloop⟩ := continueChar_append buf 0 rest out hconts
      rw [Nat.add_sub_cancel, ← Nat.add_zero conts.length, hloop, continueChar] at hrun
      have hwide : ∀ b, lead :: conts = [b] → ¬ b.toNat < 0x80 := fun b heq hascii => by
        have hge := hlead.wide
        rw [(List.cons.inj heq).1] at hge
        omega
      rcases hchar : fromU32 buf' with - | c
      · rw [hchar] at hrun
        exact ⟨_, hrun, fun b heq hascii => absurd hascii (hwide b heq)⟩
      · rw [hchar] at hrun
        exact ⟨_, hrun, fun b heq hascii => absurd hascii (hwide b heq)⟩
  | @cut lead b conts n hlead hconts hlen hb =>
      obtain ⟨buf, hrun⟩ := hlead.run (conts ++ b :: rest) out
      obtain ⟨buf', hloop⟩ := continueChar_append buf (n - 2 - conts.length + 1) (b :: rest) out
        hconts
      have hsplit : n - 1 = conts.length + (n - 2 - conts.length + 1) := by omega
      have hstop : b &&& 0b11000000 ≠ 0b10000000 := fun heq => hb (continuation_iff.mp heq)
      rw [hsplit, hloop, continueChar, bind_ok getbyteNoecho_cons, if_pos hstop] at hrun
      refine ⟨replacement, ?_, fun b' heq => by simp at heq⟩
      rw [List.cons_append, List.append_assoc, List.singleton_append]
      exact hrun

/-- An unfinished character ends the reading. -/
theorem Unfinished.run (h : Unfinished bytes) (out : List UInt8) :
    getcharNoecho ⟨bytes, out⟩ = (.error (.error .EEOF), ⟨[], out⟩) := by
  obtain @⟨lead, conts, n, hlead, hconts, hlen⟩ := h
  obtain ⟨buf, hrun⟩ := hlead.run conts out
  obtain ⟨buf', hloop⟩ := continueChar_append buf (n - 2 - conts.length + 1) [] out hconts
  have hsplit : n - 1 = conts.length + (n - 2 - conts.length + 1) := by omega
  rw [List.append_nil] at hloop
  rw [hrun, hsplit, hloop, continueChar]
  rfl

/-- The continuation bytes at the front of a stream, up to a number of them. -/
theorem exists_continuations (n : Nat) (bytes : List UInt8) : ∃ conts rest,
    bytes = conts ++ rest ∧ (∀ b ∈ conts, IsContinuation b) ∧
      (conts.length = n ∨ conts.length < n ∧ ∀ b ∈ rest.head?, ¬ IsContinuation b) := by
  induction n generalizing bytes with
  | zero => exact ⟨[], bytes, rfl, fun b hb => absurd hb List.not_mem_nil, Or.inl rfl⟩
  | succ n ih =>
      by_cases hhead : ∃ b rest, bytes = b :: rest ∧ IsContinuation b
      · obtain ⟨b, rest, rfl, hb⟩ := hhead
        obtain ⟨conts, rest', rfl, hconts, hlen⟩ := ih rest
        refine ⟨b :: conts, rest', rfl, List.forall_mem_cons.mpr ⟨hb, hconts⟩, ?_⟩
        rw [List.length_cons]
        exact hlen.imp (congrArg (· + 1)) fun h => ⟨by omega, h.2⟩
      · refine ⟨[], bytes, rfl, fun b hb => absurd hb List.not_mem_nil, Or.inr ⟨by simp, ?_⟩⟩
        intro b hb hcont
        cases bytes with
        | nil => cases hb
        | cons b' rest =>
            rw [List.head?_cons, Option.mem_some] at hb
            exact hhead ⟨b', rest, rfl, hb ▸ hcont⟩

/-- A stream starts with a sequence, or is unfinished. -/
theorem exists_sequence (hbytes : bytes ≠ []) :
    (∃ taken rest, bytes = taken ++ rest ∧ Sequence taken) ∨ Unfinished bytes := by
  obtain ⟨init, tail, rfl⟩ := List.exists_cons_of_ne_nil hbytes
  rcases Nat.lt_or_ge init.toNat 0x80 with hascii | hwide
  · exact Or.inl ⟨[init], tail, rfl, .ascii hascii⟩
  rcases charLength_cases hwide with htop | ⟨n, hn, hn', hge, hlt⟩
  · exact Or.inl ⟨[init], tail, rfl, .invalid htop⟩
  have hlead : Announces init n := ⟨hn, hn', hge.imp_left fun h => ⟨h.1, hwide⟩, hlt⟩
  obtain ⟨conts, rest, rfl, hconts, hlen | ⟨hlen, hhead⟩⟩ := exists_continuations (n - 1) tail
  · have hsize : n = conts.length + 1 := by omega
    subst hsize
    exact Or.inl ⟨init :: conts, rest, rfl, .complete hlead hconts⟩
  · have hshort : conts.length + 1 < n := by omega
    cases rest with
    | nil =>
        rw [List.append_nil]
        exact Or.inr ⟨hlead, hconts, hshort⟩
    | cons b rest =>
        exact Or.inl ⟨init :: (conts ++ [b]), rest, by simp,
          .cut hlead hconts hshort (hhead b rfl)⟩

/-! ## All calls -/

theorem Sequence.ne_nil (h : Sequence taken) : taken ≠ [] := by
  cases h <;> exact List.cons_ne_nil _ _

/-- An ASCII byte in a sequence is alone, or the last one. -/
theorem Sequence.eq_of_mem (h : Sequence taken)
    (hlast : taken.length = 1 ∨ ∀ b ∈ taken.getLast?, 0x80 ≤ b.toNat) (hb : b ∈ taken)
    (hascii : b.toNat < 0x80) : taken = [b] := by
  have hconts : ∀ {conts : List UInt8}, (∀ b ∈ conts, IsContinuation b) → b ∉ conts := by
    intro conts hall hmem
    have hge := (hall b hmem).1
    omega
  cases h with
  | ascii _ => rw [List.mem_singleton.mp hb]
  | invalid _ => rw [List.mem_singleton.mp hb]
  | complete hlead hall =>
      rcases List.mem_cons.mp hb with rfl | hmem
      · exact absurd hascii (Nat.not_lt.mpr hlead.wide)
      · exact absurd hmem (hconts hall)
  | @cut lead b' conts n hlead hall hlen hstop =>
      rcases List.mem_cons.mp hb with rfl | hmem
      · exact absurd hascii (Nat.not_lt.mpr hlead.wide)
      rcases List.mem_append.mp hmem with hmem | hmem
      · exact absurd hmem (hconts hall)
      · rcases hlast with hone | hwide
        · simp at hone
        · have hge := hwide b' (by simp [List.getLast?_cons])
          rw [← List.mem_singleton.mp hmem] at hge
          omega

/-- Two ways to start with a sequence are the same. -/
theorem Sequence.unique {taken' rest' : List UInt8} (h : Sequence taken) (h' : Sequence taken')
    (heq : taken ++ rest = taken' ++ rest') : taken = taken' ∧ rest = rest' := by
  obtain ⟨c, hrun, -⟩ := h.run rest []
  obtain ⟨c', hrun', -⟩ := h'.run rest' []
  rw [heq, hrun', Prod.mk.injEq] at hrun
  have hrest : rest' = rest := congrArg Console.stdin hrun.2
  subst hrest
  exact ⟨List.append_cancel_right heq, rfl⟩

theorem Resyncs.of_append (h : Resyncs (taken ++ rest)) (htaken : Sequence taken) :
    (taken.length = 1 ∨ ∀ b ∈ taken.getLast?, 0x80 ≤ b.toNat) ∧ Resyncs rest := by
  generalize hbytes : taken ++ rest = bytes at h
  cases h with
  | nil => exact absurd (List.append_eq_nil_iff.mp hbytes).1 htaken.ne_nil
  | unfinished hend =>
      obtain ⟨c, hrun, -⟩ := htaken.run rest []
      rw [hbytes, hend.run] at hrun
      cases hrun
  | append htaken' hlast hrest =>
      obtain ⟨rfl, rfl⟩ := htaken.unique htaken' hbytes
      exact ⟨hlast, hrest⟩

/-- The readings of a stream that starts with a sequence. -/
theorem Sequence.readingsFrom_eq (h : Sequence taken) (fuel : Nat) (rest : List UInt8) : ∃ c,
    readingsFrom (fuel + 1) (taken ++ rest) = ⟨taken, .ok c⟩ :: readingsFrom fuel rest ∧
      ∀ b, taken = [b] → b.toNat < 0x80 → c = Char.ofUInt8 b := by
  obtain ⟨c, hrun, hascii⟩ := h.run rest []
  refine ⟨c, ?_, hascii⟩
  rw [readingsFrom, hrun]
  dsimp only
  rw [List.length_append, Nat.add_sub_cancel, List.take_left]

theorem asciiKept_readingsFrom (hfuel : bytes.length < fuel) :
    AsciiKept bytes (readingsFrom fuel bytes) ↔ Resyncs bytes := by
  induction fuel generalizing bytes with
  | zero => cases hfuel
  | succ fuel ih =>
      by_cases hbytes : bytes = []
      · subst hbytes
        have hend : readingsFrom (fuel + 1) [] = [⟨[], .error (.error .EEOF)⟩] := rfl
        rw [hend]
        exact iff_of_true ⟨rfl, by simp⟩ .nil
      rcases exists_sequence hbytes with ⟨taken, rest, rfl, htaken⟩ | hend
      · obtain ⟨c, hreadings, hascii⟩ := htaken.readingsFrom_eq fuel rest
        have hlen : rest.length < fuel := by
          have hpos := List.length_pos_iff.mpr htaken.ne_nil
          rw [List.length_append] at hfuel
          omega
        rw [hreadings]
        constructor
        · rintro ⟨hall, hown⟩
          obtain ⟨hhead, htail⟩ := List.forall_mem_cons.mp hown
          rw [List.flatMap_cons] at hall
          refine .append htaken ?_ ((ih hlen).mp ⟨List.append_cancel_left hall, htail⟩)
          refine or_iff_not_imp_right.mpr fun hnot => ?_
          obtain ⟨b, hb, hlow⟩ : ∃ b ∈ taken.getLast?, ¬ 0x80 ≤ b.toNat := by
            simpa only [not_forall, exists_prop] using hnot
          have halone : taken = [b] :=
            (hhead b (List.mem_of_mem_getLast? hb) (Nat.not_le.mp hlow)).1
          rw [halone, List.length_singleton]
        · intro hsync
          obtain ⟨hlast, hrest⟩ := hsync.of_append htaken
          obtain ⟨hall, hown⟩ := (ih hlen).mpr hrest
          refine ⟨by rw [List.flatMap_cons, hall], List.forall_mem_cons.mpr ⟨?_, hown⟩⟩
          intro b hb hlow
          have hone := htaken.eq_of_mem hlast hb hlow
          exact ⟨hone, congrArg Except.ok (hascii b hone hlow)⟩
      · have hreadings : readingsFrom (fuel + 1) bytes = [⟨bytes, .error (.error .EEOF)⟩] := by
          rw [readingsFrom, hend.run]
          dsimp only
          rw [List.length_nil, Nat.sub_zero, List.take_length]
        rw [hreadings]
        refine iff_of_true ⟨by simp, List.forall_mem_singleton.mpr fun b hb hlow => ?_⟩
          (.unfinished hend)
        obtain @⟨lead, conts, n, hlead, hconts, -⟩ := hend
        rcases List.mem_cons.mp hb with rfl | hmem
        · exact absurd hlow (Nat.not_lt.mpr hlead.wide)
        · have hge := (hconts b hmem).1
          omega

/-- No ASCII byte of a stream is lost exactly when none of them cuts a character short. -/
theorem asciiKept_iff (bytes : List UInt8) :
    AsciiKept bytes (readings bytes) ↔ Resyncs bytes :=
  asciiKept_readingsFrom (Nat.lt_succ_self _)

/-- A line feed behind the first byte of a character of two is lost. -/
theorem not_asciiKept :
    getcharNoecho ⟨[0xC3, 0x0A], []⟩ = (.ok replacement, ⟨[], []⟩) ∧
      ¬ AsciiKept [0xC3, 0x0A] (readings [0xC3, 0x0A]) := by
  refine ⟨rfl, fun hkept => ?_⟩
  have hfirst : (⟨[0xC3, 0x0A], .ok replacement⟩ : Reading) ∈ readings [0xC3, 0x0A] :=
    List.mem_cons_self
  have halone := (hkept.own _ hfirst 0x0A (by simp) (by decide)).1
  cases halone

end FmtIo

end ParchTestbench
