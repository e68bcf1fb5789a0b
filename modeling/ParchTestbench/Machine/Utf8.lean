import Mathlib.Data.List.Basic
import Mathlib.Tactic.Ring

/-!
# Multi-byte forms of UTF-8

A form of `n` bytes is a lead byte that announces `n` and carries the first bits of a
value, followed by `n - 1` continuation bytes with six bits each.  UTF-8 takes for each
character the shortest form of its number.

Main results:

- Theorem `Form.encode_eq_iff`: a form of a character's number is its encoding exactly
  when its length is that of the encoding.
- Theorem `exists_form`: the encoding of a character outside ASCII is a form.
-/

namespace ParchTestbench

namespace Utf8

/-- A byte `10xxxxxx`. -/
def IsContinuation (b : UInt8) : Prop := 0x80 ≤ b.toNat ∧ b.toNat < 0xC0

instance (b : UInt8) : Decidable (IsContinuation b) := inferInstanceAs (Decidable (_ ∧ _))

/-- The value of first bits `p` and the six low bits of each byte after them. -/
def payload : Nat → List UInt8 → Nat
  | p, [] => p
  | p, b :: bs => payload (64 * p + b.toNat % 64) bs

/-- `lead :: conts` is a form of `n` bytes with value `v`. -/
structure Form (n : Nat) (lead : UInt8) (conts : List UInt8) (v : Nat) : Prop where
  two_le : 2 ≤ n
  le_six : n ≤ 6
  length_eq : conts.length + 1 = n
  lead_ge : 256 - 2 ^ (8 - n) ≤ lead.toNat
  lead_lt : lead.toNat < 256 - 2 ^ (7 - n)
  continuation : ∀ b ∈ conts, IsContinuation b
  value_eq : payload (lead.toNat - (256 - 2 ^ (8 - n))) conts = v

variable {n v p : Nat} {lead : UInt8} {conts : List UInt8} {c : Char}

theorem payload_lt (conts : List UInt8) (k : Nat) (hp : p < k) :
    payload p conts < k * 64 ^ conts.length := by
  induction conts generalizing p k with
  | nil => simpa [payload] using hp
  | cons b bs ih =>
      have hstep := ih (k * 64) (show 64 * p + b.toNat % 64 < k * 64 by omega)
      rwa [List.length_cons, Nat.pow_succ', ← Nat.mul_assoc]

/-! ## The size of a character -/

theorem utf8Size_eq : c.utf8Size =
    if c.toNat ≤ 0x7F then 1 else if c.toNat ≤ 0x7FF then 2 else if c.toNat ≤ 0xFFFF then 3
      else 4 := rfl

theorem toNat_lt (c : Char) : c.toNat < 0x110000 := by
  have hvalid : c.toNat < 0xD800 ∨ 0xDFFF < c.toNat ∧ c.toNat < 0x110000 := c.valid
  omega

/-- A form of `n` bytes is long enough for its value. -/
theorem Form.utf8Size_le (h : Form n lead conts c.toNat) : c.utf8Size ≤ n := by
  have hsize := utf8Size_eq (c := c)
  have htwo := h.two_le
  have hlen := h.length_eq
  have hlead := h.lead_lt
  rcases Nat.lt_or_ge 3 n with hfour | hthree
  · rw [hsize]
    repeat' split
    all_goals omega
  · rcases (show n = 2 ∨ n = 3 by omega) with rfl | rfl
    · have hlt := payload_lt conts 32
        (show lead.toNat - (256 - 2 ^ (8 - 2)) < 32 by omega)
      rw [h.value_eq, show conts.length = 1 by omega] at hlt
      rw [hsize]
      repeat' split
      all_goals omega
    · have hlt := payload_lt conts 16
        (show lead.toNat - (256 - 2 ^ (8 - 3)) < 16 by omega)
      rw [h.value_eq, show conts.length = 2 by omega] at hlt
      rw [hsize]
      repeat' split
      all_goals omega

/-! ## The encoding as a form -/

theorem ofNat_eq_iff {b : UInt8} {x : Nat} (hx : x < 256) : UInt8.ofNat x = b ↔ x = b.toNat := by
  rw [← UInt8.toNat_inj, UInt8.toNat_ofNat', Nat.mod_eq_of_lt hx]

/-- The encoding as numbers. -/
theorem utf8EncodeChar_eq : String.utf8EncodeChar c =
    if c.toNat ≤ 0x7F then [UInt8.ofNat c.toNat]
    else if c.toNat ≤ 0x7FF then
      [UInt8.ofNat (c.toNat / 64 % 32 + 0xC0), UInt8.ofNat (c.toNat % 64 + 0x80)]
    else if c.toNat ≤ 0xFFFF then
      [UInt8.ofNat (c.toNat / 4096 % 16 + 0xE0), UInt8.ofNat (c.toNat / 64 % 64 + 0x80),
        UInt8.ofNat (c.toNat % 64 + 0x80)]
    else
      [UInt8.ofNat (c.toNat / 262144 % 8 + 0xF0), UInt8.ofNat (c.toNat / 4096 % 64 + 0x80),
        UInt8.ofNat (c.toNat / 64 % 64 + 0x80), UInt8.ofNat (c.toNat % 64 + 0x80)] := rfl

/-- A form of a character's number is its encoding exactly when it is as long. -/
theorem Form.encode_eq_iff (h : Form n lead conts c.toNat) :
    String.utf8EncodeChar c = lead :: conts ↔ c.utf8Size = n := by
  have hlen := h.length_eq
  have hge := h.lead_ge
  have hlt := h.lead_lt
  have hvalue := h.value_eq
  constructor
  · intro heq
    rw [← String.length_utf8EncodeChar, heq, List.length_cons, hlen]
  · intro hsize
    rw [utf8Size_eq] at hsize
    rw [utf8EncodeChar_eq]
    split at hsize
    · exact absurd h.two_le (by omega)
    rename_i hone
    rw [if_neg hone]
    split at hsize
    · subst hsize
      obtain ⟨b, rfl⟩ := List.length_eq_one_iff.mp (show conts.length = 1 by omega)
      have hb := h.continuation b List.mem_cons_self
      unfold IsContinuation at hb
      simp only [payload] at hvalue
      rw [if_pos ‹_›, List.cons.injEq, List.cons.injEq, ofNat_eq_iff (by omega),
        ofNat_eq_iff (by omega)]
      exact ⟨by omega, by omega, rfl⟩
    rename_i htwo
    rw [if_neg htwo]
    split at hsize
    · subst hsize
      obtain ⟨b, b', rfl⟩ := List.length_eq_two.mp (show conts.length = 2 by omega)
      have hb := h.continuation b List.mem_cons_self
      have hb' := h.continuation b' (List.mem_cons_of_mem _ List.mem_cons_self)
      unfold IsContinuation at hb hb'
      simp only [payload] at hvalue
      rw [if_pos ‹_›, List.cons.injEq, List.cons.injEq, List.cons.injEq, ofNat_eq_iff (by omega),
        ofNat_eq_iff (by omega), ofNat_eq_iff (by omega)]
      exact ⟨by omega, by omega, by omega, rfl⟩
    · subst hsize
      obtain ⟨b, b', b'', rfl⟩ := List.length_eq_three.mp (show conts.length = 3 by omega)
      have hb := h.continuation b List.mem_cons_self
      have hb' := h.continuation b' (List.mem_cons_of_mem _ List.mem_cons_self)
      have hb'' := h.continuation b''
        (List.mem_cons_of_mem _ (List.mem_cons_of_mem _ List.mem_cons_self))
      unfold IsContinuation at hb hb' hb''
      simp only [payload] at hvalue
      rw [if_neg ‹_›, List.cons.injEq, List.cons.injEq, List.cons.injEq, List.cons.injEq,
        ofNat_eq_iff (by omega), ofNat_eq_iff (by omega), ofNat_eq_iff (by omega),
        ofNat_eq_iff (by omega)]
      exact ⟨by omega, by omega, by omega, by omega, rfl⟩

theorem toNat_ofNat {x : Nat} (hx : x < 256) : (UInt8.ofNat x).toNat = x := by
  rw [UInt8.toNat_ofNat', Nat.mod_eq_of_lt hx]

/-- A byte made of six bits is a continuation byte and gives them back. -/
theorem continuation_ofNat {x : Nat} (hx : x < 64) :
    IsContinuation (UInt8.ofNat (x + 0x80)) ∧ (UInt8.ofNat (x + 0x80)).toNat % 64 = x := by
  unfold IsContinuation
  rw [toNat_ofNat (by omega)]
  omega

/-- The encoding of a character outside ASCII is a form. -/
theorem exists_form (hc : 0x7F < c.toNat) :
    ∃ lead conts, String.utf8EncodeChar c = lead :: conts ∧ Form c.utf8Size lead conts c.toNat := by
  have hlt := toNat_lt c
  have hsize := utf8Size_eq (c := c)
  obtain ⟨hcont, hval⟩ := continuation_ofNat (x := c.toNat % 64) (by omega)
  rw [utf8EncodeChar_eq, if_neg (by omega)]
  rw [if_neg (by omega)] at hsize
  split
  · have hlead := toNat_ofNat (show c.toNat / 64 % 32 + 0xC0 < 256 by omega)
    rw [if_pos ‹_›] at hsize
    rw [hsize]
    refine ⟨_, _, rfl, ⟨by omega, by omega, rfl, by omega, by omega, ?_, ?_⟩⟩
    · rintro b (- | ⟨-, ⟨⟩⟩)
      exact hcont
    · rw [hlead]
      simp only [payload, hval]
      omega
  rw [if_neg ‹_›] at hsize
  obtain ⟨hcont', hval'⟩ := continuation_ofNat (x := c.toNat / 64 % 64) (by omega)
  split
  · have hlead := toNat_ofNat (show c.toNat / 4096 % 16 + 0xE0 < 256 by omega)
    rw [if_pos ‹_›] at hsize
    rw [hsize]
    refine ⟨_, _, rfl, ⟨by omega, by omega, rfl, by omega, by omega, ?_, ?_⟩⟩
    · rintro b (- | ⟨-, - | ⟨-, ⟨⟩⟩⟩)
      · exact hcont'
      · exact hcont
    · rw [hlead]
      simp only [payload, hval, hval']
      omega
  · obtain ⟨hcont'', hval''⟩ := continuation_ofNat (x := c.toNat / 4096 % 64) (by omega)
    have hlead := toNat_ofNat (show c.toNat / 262144 % 8 + 0xF0 < 256 by omega)
    rw [if_neg ‹_›] at hsize
    rw [hsize]
    refine ⟨_, _, rfl, ⟨by omega, by omega, rfl, by omega, by omega, ?_, ?_⟩⟩
    · rintro b (- | ⟨-, - | ⟨-, - | ⟨-, ⟨⟩⟩⟩⟩)
      · exact hcont''
      · exact hcont'
      · exact hcont
    · rw [hlead]
      simp only [payload, hval, hval', hval'']
      omega

/-- The encoding of an ASCII character is one byte. -/
theorem utf8EncodeChar_ascii (hc : c.toNat ≤ 0x7F) :
    String.utf8EncodeChar c = [UInt8.ofNat c.toNat] := by
  rw [utf8EncodeChar_eq, if_pos hc]

/-- No encoding starts with a continuation byte. -/
theorem encode_ne_of_continuation (hlead : IsContinuation lead) :
    String.utf8EncodeChar c ≠ lead :: conts := by
  unfold IsContinuation at hlead
  rcases Nat.lt_or_ge 0x7F c.toNat with hwide | hascii
  · obtain ⟨lead', conts', heq, hform⟩ := exists_form hwide
    have hge := hform.lead_ge
    have htwo := hform.two_le
    have hpow : 2 ^ (8 - c.utf8Size) ≤ 2 ^ 6 := Nat.pow_le_pow_right (by omega) (by omega)
    intro hsame
    rw [heq, List.cons.injEq] at hsame
    rw [hsame.1] at hge
    omega
  · intro hsame
    rw [utf8EncodeChar_ascii hascii, List.cons.injEq, ofNat_eq_iff (by omega)] at hsame
    omega

/-- The bytes of a text. -/
def encode (cs : List Char) : List UInt8 := cs.flatMap String.utf8EncodeChar

@[simp]
theorem encode_cons {cs : List Char} :
    encode (c :: cs) = String.utf8EncodeChar c ++ encode cs := rfl

@[simp]
theorem encode_append {cs cs' : List Char} : encode (cs ++ cs') = encode cs ++ encode cs' :=
  List.flatMap_append

/-- Only the zero character is encoded with a zero byte. -/
theorem zero_notMem_utf8EncodeChar (hc : c ≠ '\x00') : 0 ∉ String.utf8EncodeChar c := by
  have hpos : c.toNat ≠ 0 := fun h => hc (Char.toNat_inj.mp h)
  intro hmem
  rcases Nat.lt_or_ge 0x7F c.toNat with hwide | hascii
  · obtain ⟨lead, conts, heq, hform⟩ := exists_form hwide
    rw [heq] at hmem
    rcases List.mem_cons.mp hmem with hlead | hcont
    · have hge := hform.lead_ge
      have htwo := hform.two_le
      have hpow : 2 ^ (8 - c.utf8Size) ≤ 2 ^ 6 := Nat.pow_le_pow_right (by omega) (by omega)
      have hzero : lead.toNat = 0 := by rw [← hlead]; rfl
      omega
    · exact absurd (hform.continuation 0 hcont) (by decide)
  · rw [utf8EncodeChar_ascii hascii, List.mem_singleton] at hmem
    exact hpos ((ofNat_eq_iff (by omega)).mp hmem.symm)

theorem zero_notMem_encode {cs : List Char} (h : '\x00' ∉ cs) : 0 ∉ encode cs := by
  intro hmem
  obtain ⟨c, hc, hbyte⟩ := List.mem_flatMap.mp hmem
  exact zero_notMem_utf8EncodeChar (fun heq => h (heq ▸ hc)) hbyte

end Utf8

end ParchTestbench
