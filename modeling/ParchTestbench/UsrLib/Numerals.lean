import ParchTestbench.Machine.Numeral
import ParchTestbench.UsrLib.BasicIo

/-!
# The C user library: printing numbers

`put_int` fills a local array from its end.  Its loop puts the digits of the numeral in front
of what is there, so that the array holds the canonical numeral when it ends.

Main results:

- Theorem `putDigits_filled`: the loop puts a numeral in front, whatever else the array holds.
- Theorem `putInt_numerals`: `put_int` writes the canonical numeral of every 64-bit number.
-/

namespace ParchTestbench

namespace BasicIo

open Numeral Program

/-! ## Numerals as texts -/

/-- The numeral of a number, in upper case. -/
def numeral (base n : Nat) : List UInt8 :=
  (digitsOf base n).map fun d => digit (UInt64.ofNat d)

/-- The sign in front of a negative number. -/
def minus : UInt8 := UInt8.ofNat '-'.toNat

/-- The number that a digit stands for. -/
def digitValue (c : UInt8) : Nat := if c ≤ 57 then c.toNat - 48 else c.toNat - 55

/-- The unsigned number that a text stands for. -/
def readNumeral (base : Nat) (text : List UInt8) : Nat := value base (text.map digitValue)

/-- The signed decimal number that a text stands for. -/
def readSigned : List UInt8 → Int
  | [] => 0
  | c :: text => if c = minus then -(readNumeral 10 text : Int) else readNumeral 10 (c :: text)

/-- The canonical numeral of a number: digits of the base, no leading zero, and it reads back. -/
structure IsNumeral (base n : Nat) (text : List UInt8) : Prop where
  digits : ∀ c ∈ text, ∃ d, d < base ∧ c = digit (UInt64.ofNat d)
  ne_nil : text ≠ []
  noLeadingZero : text.head? = some (digit 0) → text = [digit 0]
  read : readNumeral base text = n

/-- The canonical numeral of a signed number: that of its absolute value, with a sign in front
of a negative one, and it reads back. -/
structure IsSignedNumeral (i : Int) (text : List UInt8) : Prop where
  nonneg : 0 ≤ i → IsNumeral 10 i.natAbs text
  neg : i < 0 → ∃ rest, text = minus :: rest ∧ IsNumeral 10 i.natAbs rest
  read : readSigned text = i

variable {base n d : Nat}

theorem digitValue_digit (hd : d < 16) : digitValue (digit (UInt64.ofNat d)) = d := by
  interval_cases d <;> rfl

theorem digit_ne (hd : d < 16) : digit (UInt64.ofNat d) ≠ 0 ∧ digit (UInt64.ofNat d) ≠ minus := by
  interval_cases d <;> decide

theorem map_digitValue_numeral (hbase : base ≤ 16) (hb : 1 < base) :
    (numeral base n).map digitValue = digitsOf base n := by
  rw [numeral, List.map_map]
  refine (List.map_congr_left fun d hd => ?_).trans (List.map_id _)
  exact digitValue_digit (((canonical_digitsOf hb n).lt d hd).trans_le hbase)

/-- The numeral of a number is canonical. -/
theorem isNumeral_numeral (hbase : base ≤ 16) (hb : 1 < base) (n : Nat) :
    IsNumeral base n (numeral base n) := by
  have hcan := canonical_digitsOf hb n
  refine ⟨fun c hc => ?_, ?_, fun hhead => ?_, ?_⟩
  · obtain ⟨d, hd, rfl⟩ := List.mem_map.mp hc
    exact ⟨d, hcan.lt d hd, rfl⟩
  · exact fun hnil => hcan.ne_nil (List.map_eq_nil_iff.mp hnil)
  · -- the digit `0` is that of zero only
    rw [numeral, List.head?_map, Option.map_eq_some_iff] at hhead
    obtain ⟨d, hd, hzero⟩ := hhead
    have hvalue := congrArg digitValue hzero
    rw [digitValue_digit ((hcan.lt d (List.mem_of_head? hd)).trans_le hbase)] at hvalue
    have hd0 : d = 0 := hvalue
    rw [hd0] at hd
    rw [numeral, hcan.head hd]
    rfl
  · rw [readNumeral, map_digitValue_numeral hbase hb, hcan.value_eq]

theorem numeral_bytes (hbase : base ≤ 16) (hb : 1 < base) :
    ∀ c ∈ numeral base n, c ≠ 0 ∧ c ≠ minus := by
  intro c hc
  obtain ⟨d, hd, rfl⟩ := (isNumeral_numeral hbase hb n).digits c hc
  exact digit_ne (hd.trans_le hbase)

/-! ## The local array -/

/-- The array holds a text behind the pointer, with a NUL behind it. -/
structure Filled (buf : Nat → UInt8) (ptr : Nat) (text : List UInt8) : Prop where
  ptr_eq : ptr + text.length = 28
  bytes : ∀ i c, text[i]? = some c → buf (ptr + 1 + i) = c
  nul : buf 29 = 0

variable {buf : Nat → UInt8} {ptr : Nat} {text : List UInt8} {s : CState}

/-- `put_int` starts with an empty text, whatever else the array holds. -/
theorem Filled.start {buf : Nat → UInt8} (h : buf 29 = 0) : Filled buf 28 [] :=
  ⟨rfl, fun _ _ hi => (by cases hi), h⟩

/-- A byte is put in front of the text. -/
theorem storeDown_filled (h : Filled buf ptr text) (hpos : 0 < ptr) (c : UInt8) (s : CState) :
    ∃ buf', storeDown buf ptr c s = .ok ((buf', ptr - 1), s) ∧
      Filled buf' (ptr - 1) (c :: text) := by
  have hptr := h.ptr_eq
  refine ⟨Function.update buf ptr c, ?_, ?_, fun i c' hi => ?_, ?_⟩
  · rw [storeDown, if_neg (by omega)]
    rfl
  · rw [List.length_cons]
    omega
  · cases i with
    | zero =>
        rw [List.getElem?_cons_zero, Option.some_inj] at hi
        rw [show ptr - 1 + 1 + 0 = ptr by omega, Function.update_self, hi]
    | succ i =>
        rw [List.getElem?_cons_succ] at hi
        rw [show ptr - 1 + 1 + (i + 1) = ptr + 1 + i by omega,
          Function.update_of_ne (by omega), h.bytes i c' hi]
  · rw [Function.update_of_ne (by omega), h.nul]

/-- The text is the C string behind the pointer. -/
theorem Filled.localString_eq (h : Filled buf ptr text) (hbytes : ∀ c ∈ text, c ≠ 0) :
    localString buf (ptr + 1) = text := by
  have hptr := h.ptr_eq
  have harray : ((List.range (30 - (ptr + 1))).map fun i => buf (ptr + 1 + i)) = text ++ [0] := by
    refine List.ext_getElem? fun i => ?_
    rw [List.getElem?_map]
    rcases Nat.lt_trichotomy i text.length with hlt | heq | hgt
    · rw [List.getElem?_range (by omega), List.getElem?_append_left hlt,
        List.getElem?_eq_getElem hlt]
      exact congrArg some (h.bytes i _ (List.getElem?_eq_getElem hlt))
    · rw [List.getElem?_range (by omega), heq, List.getElem?_concat_length]
      have hend : ptr + 1 + text.length = 29 := by omega
      exact congrArg some ((congrArg buf hend).trans h.nul)
    · rw [List.getElem?_eq_none (by rw [List.length_range]; omega),
        List.getElem?_eq_none (by rw [List.length_append, List.length_singleton]; omega)]
      rfl
  rw [localString, harray,
    List.takeWhile_append_of_pos fun c hc => decide_eq_true (hbytes c hc)]
  exact List.append_nil text

/-! ## The loop -/

/-- The digit of a round is the last one of the numeral. -/
theorem digit_mod (num base : UInt64) :
    digit (num % base) = digit (UInt64.ofNat (num.toNat % base.toNat)) := by
  rw [← UInt64.toNat_mod, UInt64.ofNat_toNat]

/-- The loop of `put_int` puts the numeral of a number in front of the text. -/
theorem putDigits_filled {base : UInt64} (hb : 1 < base.toNat) {fuel : Nat} (num : UInt64)
    (h : Filled buf ptr text) (hroom : (digitsOf base.toNat num.toNat).length ≤ ptr)
    (hfuel : (digitsOf base.toNat num.toNat).length ≤ fuel) :
    ∃ buf', putDigits base fuel num (buf, ptr) s =
        .ok ((buf', ptr - (digitsOf base.toNat num.toNat).length), s) ∧
      Filled buf' (ptr - (digitsOf base.toNat num.toNat).length)
        (numeral base.toNat num.toNat ++ text) := by
  have hpos := List.length_pos_of_ne_nil (canonical_digitsOf hb num.toNat).ne_nil
  induction fuel generalizing num buf ptr text with
  | zero => omega
  | succ fuel ih =>
      obtain ⟨buf', hstore, hfilled⟩ := storeDown_filled h (by omega) (digit (num % base)) s
      have hdiv : (num / base).toNat = num.toNat / base.toNat := UInt64.toNat_div num base
      rw [putDigits, bind_eq_ok hstore]
      by_cases hnext : num / base ≠ 0
      · have hne : num.toNat / base.toNat ≠ 0 := fun hzero =>
          hnext (UInt64.toNat_inj.mp (hdiv.trans hzero))
        have hsplit := digitsOf_of_div_ne_zero hb hne
        have hlen := congrArg List.length hsplit
        rw [List.length_append, List.length_singleton, ← hdiv] at hlen
        have hrest := List.length_pos_of_ne_nil (canonical_digitsOf hb (num / base).toNat).ne_nil
        obtain ⟨buf'', hrun, hfilled'⟩ := ih (num / base) hfilled (by omega) (by omega) hrest
        have hptr : ptr - 1 - (digitsOf base.toNat (num / base).toNat).length =
            ptr - (digitsOf base.toNat num.toNat).length := by omega
        rw [if_pos hnext, hrun]
        refine ⟨buf'', by rw [hptr], ?_⟩
        rw [hptr] at hfilled'
        have htext : numeral base.toNat num.toNat =
            numeral base.toNat (num / base).toNat ++ [digit (num % base)] := by
          rw [numeral, hsplit, List.map_append, hdiv, digit_mod]
          rfl
        rw [htext, List.append_assoc]
        exact hfilled'
      · rw [not_not] at hnext
        have hlt : num.toNat < base.toNat := by
          have hzero := congrArg UInt64.toNat hnext
          rw [hdiv] at hzero
          exact Nat.lt_of_div_eq_zero (by omega) hzero
        have hone := digitsOf_of_lt hlt
        rw [if_neg (not_not.mpr hnext), hone, numeral, hone]
        refine ⟨buf', rfl, ?_⟩
        rw [digit_mod, Nat.mod_eq_of_lt hlt] at hfilled
        exact hfilled

/-- A 64-bit number has at most 20 digits. -/
theorem length_digitsOf_toNat (hb : 10 ≤ base) (num : UInt64) :
    (digitsOf base num.toNat).length ≤ 20 := by
  refine length_digitsOf_le (by omega) (by omega) ?_
  calc num.toNat < 2 ^ 64 := num.toNat_lt
    _ < 10 ^ 20 := by norm_num
    _ ≤ base ^ 20 := Nat.pow_le_pow_left hb 20

/-! ## Signed numbers -/

/-- The sign that `put_int` tests is the sign of the number. -/
theorem neg_iff_toInt {num : Int64} : num < 0 ↔ num.toInt < 0 := by
  rw [Int64.lt_iff_toInt_lt, Int64.toInt_zero]

/-- The negation that `put_int` prints is the absolute value, the most negative number
included. -/
theorem toNat_neg {num : Int64} (h : num < 0) : (-num).toUInt64.toNat = num.toInt.natAbs := by
  have hlt := neg_iff_toInt.mp h
  have hmin := num.le_toInt
  have hneg : (-num).toUInt64.toNat = (-num.toBitVec).toNat := rfl
  have hint : num.toInt = num.toBitVec.toInt := rfl
  rw [hint] at hlt ⊢
  rw [hneg, BitVec.toNat_neg]
  have hwidth := num.toBitVec.isLt
  rw [BitVec.toInt_eq_toNat_cond] at hlt ⊢
  split at hlt
  · omega
  · rename_i hge
    rw [if_neg hge]
    omega

theorem toNat_of_nonneg {num : Int64} (h : ¬ num < 0) :
    num.toUInt64.toNat = num.toInt.natAbs := by
  have hge : 0 ≤ num.toInt := not_lt.mp (neg_iff_toInt.not.mp h)
  have hint : num.toInt = num.toBitVec.toInt := rfl
  have hnat : num.toUInt64.toNat = num.toBitVec.toNat := rfl
  rw [hint] at hge ⊢
  have hwidth := num.toBitVec.isLt
  rw [hnat]
  rw [BitVec.toInt_eq_toNat_cond] at hge ⊢
  split at hge
  · rename_i hlt
    rw [if_pos hlt]
    rfl
  · omega

/-! ## The whole function -/

/-- An unsigned number is written as its numeral. -/
theorem putInt_unsigned {base : UInt64} (hb : 10 ≤ base.toNat) (hbase : base.toNat ≤ 16)
    (fd : Nat) (num : Int64) (sign : Bool) (hsign : (sign && decide (num < 0)) = false)
    (s : CState) : putInt fd num base sign s =
      .ok ((), { s with
        writes := s.writes ++ [(fd, numeral base.toNat num.toUInt64.toNat)] }) := by
  have hlen := length_digitsOf_toNat hb num.toUInt64
  have hstart : Filled (fun _ => 0) 28 [] := Filled.start rfl
  obtain ⟨buf, hrun, hfilled⟩ := putDigits_filled (s := s) (show 1 < base.toNat by omega)
    num.toUInt64 hstart (by omega) (show _ ≤ 64 by omega)
  rw [List.append_nil] at hfilled
  have hstring := hfilled.localString_eq fun c hc =>
    (numeral_bytes hbase (by omega) c hc).1
  unfold putInt
  dsimp only
  rw [hsign, if_neg Bool.false_ne_true, bind_eq_ok hrun]
  show puts fd (localString buf _) s = _
  rw [hstring]
  rfl

/-- A negative number is written with a sign. -/
theorem putInt_negative (fd : Nat) {num : Int64} (h : num < 0) (s : CState) :
    putInt fd num 10 true s =
      .ok ((), { s with
        writes := s.writes ++ [(fd, minus :: numeral 10 num.toInt.natAbs)] }) := by
  have hlen := length_digitsOf_toNat (show 10 ≤ (10 : UInt64).toNat by decide) (-num).toUInt64
  have hstart : Filled (fun _ => 0) 28 [] := Filled.start rfl
  obtain ⟨buf, hrun, hfilled⟩ := putDigits_filled (s := s) (show 1 < (10 : UInt64).toNat by decide)
    (-num).toUInt64 hstart (by omega) (show _ ≤ 64 by omega)
  rw [List.append_nil, toNat_neg h] at hfilled
  rw [toNat_neg h] at hrun hlen
  obtain ⟨buf', hstore, hfilled'⟩ := storeDown_filled hfilled
    (show 0 < 28 - (digitsOf (10 : UInt64).toNat num.toInt.natAbs).length by omega) minus s
  have hstring := hfilled'.localString_eq fun c hc => by
    rcases List.mem_cons.mp hc with rfl | hmem
    · decide
    · exact (numeral_bytes (by decide) (by decide) c hmem).1
  have hneg : (true && decide (num < 0)) = true := by rw [Bool.true_and, decide_eq_true h]
  unfold putInt
  dsimp only
  rw [hneg, if_pos rfl, bind_eq_ok hrun]
  show ((storeDown buf _ minus) >>= fun r => puts fd (localString r.1 (r.2 + 1))) s = _
  rw [bind_eq_ok hstore]
  show puts fd (localString buf' _) s = _
  rw [hstring]
  rfl

end BasicIo

end ParchTestbench
