import ParchTestbench.UsrLib.FmtIo

/-!
# The user library: decoding characters

What `getchar_noecho` makes of a stream of bytes: it reads back every text from its
UTF-8 bytes, and it accepts two kinds of sequences that are no UTF-8.

Main results:

- Theorem `getcharNoecho_roundTrip`: the characters of a text are read in order, each
  from its own bytes.
- Theorem `getcharNoecho_strict_iff`: a character other than U+FFFD comes from its own
  encoding exactly when the stream does not start with a disguised character.
-/

namespace ParchTestbench

namespace FmtIo

open ConsoleM Utf8

variable {buf : UInt32} {init lead b : UInt8} {conts rest bytes out : List UInt8} {c : Char}
  {n p : Nat} {con : Console}

/-! ## Bit masks -/

theorem continuation_iff : b &&& 0b11000000 = 0b10000000 ↔ IsContinuation b := by
  have hall : ∀ x : Fin 256, UInt8.ofNat x &&& 0b11000000 = 0b10000000 ↔
      0x80 ≤ x.val ∧ x.val < 0xC0 := by decide +kernel
  have hb := hall ⟨b.toNat, b.toNat_lt⟩
  rwa [UInt8.ofNat_toNat] at hb

/-- The mask of a first byte keeps its low bits. -/
theorem lowBits_eq (k : Nat) (hk : k ≤ 8) :
    (b &&& UInt8.ofNat (2 ^ k - 1)).toUInt32.toNat = b.toNat % 2 ^ k := by
  have hpow : 2 ^ k ≤ 2 ^ 8 := Nat.pow_le_pow_right (by omega) hk
  have hpos := Nat.two_pow_pos k
  rw [UInt8.toNat_toUInt32, UInt8.toNat_and, UInt8.toNat_ofNat', Nat.mod_eq_of_lt (by omega),
    Nat.and_two_pow_sub_one_eq_mod]

theorem sixBits_eq : (b &&& 0b00111111).toUInt32.toNat = b.toNat % 64 :=
  lowBits_eq 6 (by omega)

/-- One step of the accumulation. -/
theorem accumulate_eq (b : UInt8) (hbuf : buf.toNat < 2 ^ 26) :
    ((buf <<< 6) + (b &&& 0b00111111).toUInt32).toNat = 64 * buf.toNat + b.toNat % 64 := by
  have hshift : (buf <<< 6).toNat = 64 * buf.toNat := by
    rw [UInt32.toNat_shiftLeft, Nat.shiftLeft_eq]
    exact (Nat.mod_eq_of_lt (show buf.toNat * 64 < 2 ^ 32 by omega)).trans (Nat.mul_comm _ _)
  rw [UInt32.toNat_add, hshift, sixBits_eq]
  omega

/-! ## One byte -/

theorem getbyteNoecho_cons : getbyteNoecho ⟨b :: rest, out⟩ = (.ok b, ⟨rest, out⟩) := rfl

/-- A byte that was read was the first one. -/
theorem getbyteNoecho_ok (hrun : getbyteNoecho ⟨bytes, out⟩ = (.ok b, con)) :
    ∃ rest, bytes = b :: rest ∧ con = ⟨rest, out⟩ := by
  cases bytes with
  | nil => cases hrun
  | cons b' rest =>
      rw [getbyteNoecho_cons] at hrun
      cases hrun
      exact ⟨rest, rfl, rfl⟩

/-! ## The continuation bytes -/

theorem fromU32_toNat (hbuf : buf.toNat = c.toNat) : fromU32 buf = some c := by
  have heq : buf = c.val := UInt32.toNat_inj.mp hbuf
  subst heq
  exact dif_pos c.valid

theorem fromU32_eq_some (h : fromU32 buf = some c) : buf.toNat = c.toNat := by
  unfold fromU32 at h
  split at h
  · cases h
    rfl
  · cases h

/-- The loop takes a continuation byte in. -/
theorem continueChar_cons (hb : IsContinuation b) :
    continueChar buf (n + 1) ⟨b :: rest, out⟩ =
      continueChar ((buf <<< 6) + (b &&& 0b00111111).toUInt32) n ⟨rest, out⟩ := by
  rw [continueChar, bind_ok getbyteNoecho_cons, if_neg (not_not.mpr (continuation_iff.mpr hb)),
    if_pos (continuation_iff.mpr hb)]

/-- On continuation bytes the loop computes the value that they carry. -/
theorem continueChar_eq (rest out : List UInt8) (hconts : ∀ b ∈ conts, IsContinuation b)
    (hsize : n = conts.length) (hp : buf.toNat = p)
    (hbound : (p + 1) * 64 ^ conts.length ≤ 2 ^ 32) :
    ∃ buf' : UInt32, buf'.toNat = payload p conts ∧
      continueChar buf n ⟨conts ++ rest, out⟩ = continueChar buf' 0 ⟨rest, out⟩ := by
  subst hsize
  induction conts generalizing buf p with
  | nil => exact ⟨buf, hp, rfl⟩
  | cons b bs ih =>
      have hb := hconts b List.mem_cons_self
      rw [List.length_cons, Nat.pow_succ', ← Nat.mul_assoc] at hbound
      have hone : 1 ≤ 64 ^ bs.length := Nat.one_le_pow _ _ (by omega)
      have hsmall : (p + 1) * 64 ≤ 2 ^ 32 := Nat.le_trans (Nat.le_mul_of_pos_right _ hone) hbound
      have hnext := accumulate_eq b (show buf.toNat < 2 ^ 26 by omega)
      rw [hp] at hnext
      obtain ⟨buf', hval, hrun⟩ := ih (fun b' hb' => hconts b' (List.mem_cons_of_mem _ hb')) hnext
        (Nat.le_trans (Nat.mul_le_mul_right _ (by omega)) hbound)
      refine ⟨buf', hval, ?_⟩
      rw [← hrun, List.length_cons, List.cons_append, continueChar_cons hb]

/-- A character other than U+FFFD has taken as many continuation bytes as were asked
for. -/
theorem continueChar_ok (hrun : continueChar buf n ⟨bytes, out⟩ = (.ok c, con))
    (hc : c ≠ replacement) :
    ∃ conts rest, bytes = conts ++ rest ∧ conts.length = n ∧ con = ⟨rest, out⟩ ∧
      ∀ b ∈ conts, IsContinuation b := by
  induction n generalizing buf bytes with
  | zero =>
      refine ⟨[], bytes, rfl, rfl, ?_, fun b hb => absurd hb List.not_mem_nil⟩
      rw [continueChar] at hrun
      rcases hres : fromU32 buf with - | res <;> rw [hres] at hrun <;> cases hrun <;> rfl
  | succ n ih =>
      rw [continueChar] at hrun
      obtain ⟨b, d, hbyte, hrest⟩ := exists_of_bind_ok hrun
      obtain ⟨tail, rfl, rfl⟩ := getbyteNoecho_ok hbyte
      by_cases hb : b &&& 0b11000000 = 0b10000000
      · rw [if_neg (not_not.mpr hb), if_pos hb] at hrest
        obtain ⟨conts, rest, rfl, hlen, hcon, hconts⟩ := ih hrest
        refine ⟨b :: conts, rest, rfl, by rw [List.length_cons, hlen], hcon, fun b' hb' => ?_⟩
        rcases List.mem_cons.mp hb' with rfl | hmem
        · exact continuation_iff.mp hb
        · exact hconts b' hmem
      · rw [if_pos hb] at hrest
        cases hrest
        exact absurd rfl hc

/-! ## The first byte -/

/-- The ladder over the first byte: from `11000000` on it finds the length of the form,
and it takes a continuation byte for the start of a form of two. -/
theorem charLength_eq (hn : 2 ≤ n) (hn' : n ≤ 6)
    (hge : n = 2 ∧ 0x80 ≤ init.toNat ∨ 256 - 2 ^ (8 - n) ≤ init.toNat)
    (hlt : init.toNat < 256 - 2 ^ (7 - n)) : charLength init = some (UInt8.ofNat n) := by
  have h2 : init < 0b11100000 ↔ init.toNat < 0xE0 := UInt8.lt_iff_toNat_lt
  have h3 : init < 0b11110000 ↔ init.toNat < 0xF0 := UInt8.lt_iff_toNat_lt
  have h4 : init < 0b11111000 ↔ init.toNat < 0xF8 := UInt8.lt_iff_toNat_lt
  have h5 : init < 0b11111100 ↔ init.toNat < 0xFC := UInt8.lt_iff_toNat_lt
  have h6 : init < 0b11111110 ↔ init.toNat < 0xFE := UInt8.lt_iff_toNat_lt
  unfold charLength
  simp only [h2, h3, h4, h5, h6]
  rcases (show n = 2 ∨ n = 3 ∨ n = 4 ∨ n = 5 ∨ n = 6 by omega) with rfl | rfl | rfl | rfl | rfl
  · rw [if_pos (by omega)]
    rfl
  · rw [if_neg (by omega), if_pos (by omega)]
    rfl
  · rw [if_neg (by omega), if_neg (by omega), if_pos (by omega)]
    rfl
  · rw [if_neg (by omega), if_neg (by omega), if_neg (by omega), if_pos (by omega)]
    rfl
  · rw [if_neg (by omega), if_neg (by omega), if_neg (by omega), if_neg (by omega),
      if_pos (by omega)]
    rfl

/-- The two largest bytes start nothing. -/
theorem charLength_top (htop : 0xFE ≤ init.toNat) : charLength init = none := by
  have h2 : init < 0b11100000 ↔ init.toNat < 0xE0 := UInt8.lt_iff_toNat_lt
  have h3 : init < 0b11110000 ↔ init.toNat < 0xF0 := UInt8.lt_iff_toNat_lt
  have h4 : init < 0b11111000 ↔ init.toNat < 0xF8 := UInt8.lt_iff_toNat_lt
  have h5 : init < 0b11111100 ↔ init.toNat < 0xFC := UInt8.lt_iff_toNat_lt
  have h6 : init < 0b11111110 ↔ init.toNat < 0xFE := UInt8.lt_iff_toNat_lt
  unfold charLength
  simp only [h2, h3, h4, h5, h6]
  rw [if_neg (by omega), if_neg (by omega), if_neg (by omega), if_neg (by omega),
    if_neg (by omega)]

/-- Every first byte outside ASCII is of one of these kinds. -/
theorem charLength_cases (hwide : 0x80 ≤ init.toNat) :
    0xFE ≤ init.toNat ∨
    ∃ n, 2 ≤ n ∧ n ≤ 6 ∧ (n = 2 ∧ IsContinuation init ∨ 256 - 2 ^ (8 - n) ≤ init.toNat) ∧
      init.toNat < 256 - 2 ^ (7 - n) := by
  have hlt : init.toNat < 256 := init.toNat_lt
  unfold IsContinuation
  by_cases htop : 0xFE ≤ init.toNat
  · exact Or.inl htop
  right
  by_cases h2 : init.toNat < 0xE0
  · exact ⟨2, by omega⟩
  by_cases h3 : init.toNat < 0xF0
  · exact ⟨3, by omega⟩
  by_cases h4 : init.toNat < 0xF8
  · exact ⟨4, by omega⟩
  by_cases h5 : init.toNat < 0xFC
  · exact ⟨5, by omega⟩
  · exact ⟨6, by omega⟩

/-- The low bits that are kept of a first byte announcing `n` bytes. -/
theorem initBits_eq (hn : 2 ≤ n) (hn' : n ≤ 6) :
    (init &&& (0b01111111 >>> UInt8.ofNat n)).toUInt32.toNat = init.toNat % 2 ^ (7 - n) := by
  rcases (show n = 2 ∨ n = 3 ∨ n = 4 ∨ n = 5 ∨ n = 6 by omega) with rfl | rfl | rfl | rfl | rfl
  · exact lowBits_eq 5 (by omega)
  · exact lowBits_eq 4 (by omega)
  · exact lowBits_eq 3 (by omega)
  · exact lowBits_eq 2 (by omega)
  · exact lowBits_eq 1 (by omega)

theorem getcharNoecho_ascii (hascii : init.toNat < 0x80) :
    getcharNoecho ⟨init :: rest, out⟩ = (.ok (Char.ofUInt8 init), ⟨rest, out⟩) := by
  have hlt : init < 0b10000000 := UInt8.lt_iff_toNat_lt.mpr hascii
  rw [getcharNoecho, bind_ok getbyteNoecho_cons, if_pos hlt]
  rfl

/-- A first byte that starts nothing. -/
theorem getcharNoecho_top (htop : 0xFE ≤ init.toNat) :
    getcharNoecho ⟨init :: rest, out⟩ = (.ok replacement, ⟨rest, out⟩) := by
  have hwide : ¬ init < 0b10000000 := fun h => by
    have hascii : init.toNat < 0x80 := UInt8.lt_iff_toNat_lt.mp h
    omega
  rw [getcharNoecho, bind_ok getbyteNoecho_cons, if_neg hwide, charLength_top htop]
  rfl

/-- A first byte outside ASCII. -/
theorem getcharNoecho_wide (rest out : List UInt8) (hn : 2 ≤ n) (hn' : n ≤ 6)
    (hge : n = 2 ∧ 0x80 ≤ init.toNat ∨ 256 - 2 ^ (8 - n) ≤ init.toNat)
    (hlt : init.toNat < 256 - 2 ^ (7 - n)) :
    ∃ buf : UInt32, buf.toNat = init.toNat % 2 ^ (7 - n) ∧
      getcharNoecho ⟨init :: rest, out⟩ = continueChar buf (n - 1) ⟨rest, out⟩ := by
  have hwide : ¬ init < 0b10000000 := fun h => by
    have hascii : init.toNat < 0x80 := UInt8.lt_iff_toNat_lt.mp h
    have hpow : 2 ^ (8 - n) ≤ 2 ^ 6 := Nat.pow_le_pow_right (by omega) (by omega)
    omega
  refine ⟨_, initBits_eq hn hn', ?_⟩
  rw [getcharNoecho, bind_ok getbyteNoecho_cons, if_neg hwide, charLength_eq hn hn' hge hlt]
  have hlen : (UInt8.ofNat n).toNat = n := toNat_ofNat (by omega)
  simp only [hlen]

/-- A first byte and its continuation bytes are read as the character of their value, if
there is one. -/
theorem getcharNoecho_value (rest out : List UInt8) (hn : 2 ≤ n) (hn' : n ≤ 6)
    (hge : n = 2 ∧ 0x80 ≤ init.toNat ∨ 256 - 2 ^ (8 - n) ≤ init.toNat)
    (hlt : init.toNat < 256 - 2 ^ (7 - n)) (hlen : conts.length + 1 = n)
    (hconts : ∀ b ∈ conts, IsContinuation b) :
    ∃ buf : UInt32, buf.toNat = payload (init.toNat % 2 ^ (7 - n)) conts ∧
      getcharNoecho ⟨init :: (conts ++ rest), out⟩ = continueChar buf 0 ⟨rest, out⟩ := by
  obtain ⟨buf, hbuf, hrun⟩ := getcharNoecho_wide (conts ++ rest) out hn hn' hge hlt
  have hbound : (init.toNat % 2 ^ (7 - n) + 1) * 64 ^ conts.length ≤ 2 ^ 32 := by
    rw [show conts.length = n - 1 by omega]
    rcases (show n = 2 ∨ n = 3 ∨ n = 4 ∨ n = 5 ∨ n = 6 by omega) with
      rfl | rfl | rfl | rfl | rfl <;> omega
  obtain ⟨buf', hval, hrun'⟩ := continueChar_eq rest out hconts
    (show n - 1 = conts.length by omega) hbuf hbound
  exact ⟨buf', hval, hrun.trans hrun'⟩

/-- A form of a character's number is read as that character. -/
theorem getcharNoecho_form (h : Form n lead conts c.toNat) :
    getcharNoecho ⟨lead :: (conts ++ rest), out⟩ = (.ok c, ⟨rest, out⟩) := by
  have hlead : lead.toNat % 2 ^ (7 - n) = lead.toNat - (256 - 2 ^ (8 - n)) := by
    have hge := h.lead_ge
    have hlt := h.lead_lt
    have htwo := h.two_le
    have hsix := h.le_six
    rcases (show n = 2 ∨ n = 3 ∨ n = 4 ∨ n = 5 ∨ n = 6 by omega) with
      rfl | rfl | rfl | rfl | rfl <;> omega
  obtain ⟨buf, hval, hrun⟩ := getcharNoecho_value rest out h.two_le h.le_six
    (Or.inr h.lead_ge) h.lead_lt h.length_eq h.continuation
  rw [hlead, h.value_eq] at hval
  rw [hrun, continueChar, fromU32_toNat hval]
  rfl

/-! ## Texts -/

/-- From `con` on the characters `cs` are read one after the other, each from exactly its
own bytes, and then comes the end of file. -/
def ReadsChars : List Char → Console → Prop
  | [], con => con.stdin = [] ∧ getcharNoecho con = (.error (.error .EEOF), con)
  | c :: cs, con => ∃ con', getcharNoecho con = (.ok c, con') ∧
      con.stdin = String.utf8EncodeChar c ++ con'.stdin ∧ ReadsChars cs con'

/-- A character is read from its encoding. -/
theorem getcharNoecho_encode (c : Char) :
    getcharNoecho ⟨String.utf8EncodeChar c ++ rest, out⟩ = (.ok c, ⟨rest, out⟩) := by
  rcases Nat.lt_or_ge 0x7F c.toNat with hwide | hascii
  · obtain ⟨lead, conts, heq, hform⟩ := exists_form hwide
    rw [heq]
    exact getcharNoecho_form hform
  · have hbyte := toNat_ofNat (show c.toNat < 256 by omega)
    have hchar : Char.ofUInt8 (UInt8.ofNat c.toNat) = c := by
      apply Char.toNat_inj.mp
      exact hbyte
    rw [utf8EncodeChar_ascii hascii, List.singleton_append, getcharNoecho_ascii (by omega), hchar]

/-- The characters of a text are read back from its bytes. -/
theorem getcharNoecho_roundTrip (s : List Char) (out : List UInt8) :
    ReadsChars s ⟨encode s, out⟩ := by
  induction s with
  | nil => exact ⟨rfl, rfl⟩
  | cons c cs ih => exact ⟨⟨encode cs, out⟩, getcharNoecho_encode c, rfl, ih⟩

/-! ## Sequences that are no UTF-8 -/

/-- The bytes start with a sequence that is read as a character but does not encode it: a
stray continuation byte and another one, or a form longer than the encoding. -/
def Disguised (bytes : List UInt8) : Prop :=
  (∃ a b rest, bytes = a :: b :: rest ∧ IsContinuation a ∧ IsContinuation b) ∨
  ∃ n lead conts rest c, bytes = lead :: (conts ++ rest) ∧ Form n lead conts (Char.toNat c) ∧
    c.utf8Size < n ∧ c ≠ replacement

/-- A stray continuation byte and another one are read as a character below U+0800. -/
theorem getcharNoecho_stray {a : UInt8} (rest out : List UInt8) (ha : IsContinuation a)
    (hb : IsContinuation b) :
    ∃ c, getcharNoecho ⟨a :: b :: rest, out⟩ = (.ok c, ⟨rest, out⟩) ∧ c ≠ replacement := by
  unfold IsContinuation at ha
  obtain ⟨buf, hval, hrun⟩ := getcharNoecho_value rest out
    (Nat.le_refl 2) (by omega) (Or.inl ⟨rfl, ha.1⟩) (show a.toNat < 256 - 2 ^ (7 - 2) by omega)
    (show [b].length + 1 = 2 from rfl)
    (fun b' hb' => by
      rw [List.mem_singleton.mp hb']
      exact hb)
  simp only [payload] at hval
  have hvalid : buf.isValidChar := Or.inl (show buf.toNat < 0xD800 by omega)
  refine ⟨⟨buf, hvalid⟩, ?_, fun heq => ?_⟩
  · have hsome : fromU32 buf = some ⟨buf, hvalid⟩ := dif_pos hvalid
    rw [List.singleton_append] at hrun
    rw [hrun, continueChar, hsome]
    rfl
  · have hnum : buf.toNat = 0xFFFD := congrArg Char.toNat heq
    omega

/-- A character other than U+FFFD is ASCII, or comes from a stray pair or from a form. -/
theorem getcharNoecho_ok (hrun : getcharNoecho ⟨bytes, out⟩ = (.ok c, con)) (hc : c ≠ replacement) :
    ∃ rest, con = ⟨rest, out⟩ ∧
      ((bytes = String.utf8EncodeChar c ++ rest) ∨
        (∃ a b, bytes = a :: b :: rest ∧ IsContinuation a ∧ IsContinuation b) ∨
        ∃ n lead conts, bytes = lead :: (conts ++ rest) ∧ Form n lead conts c.toNat) := by
  cases bytes with
  | nil => cases hrun
  | cons init tail =>
      rcases Nat.lt_or_ge init.toNat 0x80 with hascii | hwide
      · rw [getcharNoecho_ascii hascii] at hrun
        cases hrun
        refine ⟨tail, rfl, Or.inl ?_⟩
        have hnum : (Char.ofUInt8 init).toNat = init.toNat := rfl
        rw [utf8EncodeChar_ascii (by omega), hnum, UInt8.ofNat_toNat, List.singleton_append]
      rcases charLength_cases hwide with htop | ⟨n, hn, hn', hge, hlt⟩
      · rw [getcharNoecho_top htop] at hrun
        cases hrun
        exact absurd rfl hc
      · have hge' : n = 2 ∧ 0x80 ≤ init.toNat ∨ 256 - 2 ^ (8 - n) ≤ init.toNat :=
          hge.imp_left fun h => ⟨h.1, hwide⟩
        obtain ⟨buf, -, hcont⟩ := getcharNoecho_wide tail out hn hn' hge' hlt
        rw [hcont] at hrun
        obtain ⟨conts, rest, rfl, hlen, rfl, hconts⟩ := continueChar_ok hrun hc
        refine ⟨rest, rfl, Or.inr ?_⟩
        rcases hge with ⟨rfl, hstray⟩ | hform
        · left
          obtain ⟨b, rfl⟩ := List.length_eq_one_iff.mp hlen
          exact ⟨init, b, rfl, hstray, hconts b List.mem_cons_self⟩
        · right
          obtain ⟨buf', hval, hrun'⟩ := getcharNoecho_value rest out hn hn' hge'
            hlt (show conts.length + 1 = n by omega) hconts
          rw [← hcont, hrun'] at hrun
          have hlead : init.toNat % 2 ^ (7 - n) = init.toNat - (256 - 2 ^ (8 - n)) := by
            rcases (show n = 2 ∨ n = 3 ∨ n = 4 ∨ n = 5 ∨ n = 6 by omega) with
              rfl | rfl | rfl | rfl | rfl <;> omega
          rw [hlead] at hval
          refine ⟨n, init, conts, rfl, hn, hn', by omega, hform, hlt, hconts, ?_⟩
          rw [continueChar] at hrun
          rcases hres : fromU32 buf' with - | res <;> rw [hres] at hrun <;> cases hrun
          · exact absurd rfl hc
          · rw [← fromU32_eq_some hres, hval]

/-- Whatever is returned but U+FFFD has been read from its own encoding, exactly for the
streams that do not start with a disguised character. -/
theorem getcharNoecho_strict_iff (bytes out : List UInt8) :
    (∀ c con, getcharNoecho ⟨bytes, out⟩ = (.ok c, con) → c ≠ replacement →
      bytes = String.utf8EncodeChar c ++ con.stdin) ↔ ¬ Disguised bytes := by
  constructor
  · rintro hall (⟨a, b, rest, rfl, ha, hb⟩ | ⟨n, lead, conts, rest, c, rfl, hform, hsize, hc⟩)
    · obtain ⟨c, hrun, hc⟩ := getcharNoecho_stray rest out ha hb
      have heq := hall c _ hrun hc
      obtain ⟨lead, conts, hcons⟩ := List.exists_cons_of_ne_nil
        (String.utf8EncodeChar_ne_nil (c := c))
      rw [hcons, List.cons_append, List.cons.injEq] at heq
      exact encode_ne_of_continuation (heq.1 ▸ ha) hcons
    · have heq := hall c _ (getcharNoecho_form hform) hc
      rw [← List.cons_append, List.append_cancel_right_eq] at heq
      exact absurd (hform.encode_eq_iff.mp heq.symm) (by omega)
  · intro hnot c con hrun hc
    obtain ⟨rest, rfl, heq | ⟨a, b, rfl, ha, hb⟩ | ⟨n, lead, conts, rfl, hform⟩⟩ :=
      getcharNoecho_ok hrun hc
    · exact heq
    · exact absurd (Or.inl ⟨a, b, rest, rfl, ha, hb⟩) hnot
    · have hsize : c.utf8Size = n := by
        by_contra hne
        exact hnot (Or.inr ⟨n, lead, conts, rest, c, rfl, hform,
          Nat.lt_of_le_of_ne hform.utf8Size_le hne, hc⟩)
      rw [hform.encode_eq_iff.mpr hsize]
      rfl

/-- Two continuation bytes are read as NUL. -/
theorem getcharNoecho_not_strict :
    getcharNoecho ⟨[0x80, 0x80], []⟩ = (.ok '\x00', ⟨[], []⟩) ∧ '\x00' ≠ replacement ∧
      [0x80, 0x80] ≠ String.utf8EncodeChar '\x00' ++ [] := by
  refine ⟨rfl, ?_, ?_⟩ <;> decide

end FmtIo

end ParchTestbench
