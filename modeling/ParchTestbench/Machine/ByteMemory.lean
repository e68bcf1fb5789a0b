import Mathlib.Data.Nat.Bitwise
import Mathlib.Tactic.Ring

/-!
# Flat byte memory

A memory is a total map from addresses to bytes.  Fixed-width unsigned integers
are stored little-endian, ranges are filled or overwritten as a whole, and a bit
array is addressed by a base address and a bit position.

Main results:

- Theorems `Mem.load_store` and `Mem.load_store_of_disjoint`: an integer reads
  back what was stored, and is unchanged by a store to a disjoint range.
- Theorem `Mem.load_congr`: a read depends only on the bytes of its range.
- Theorem `Mem.bit_setBit`: setting one position of a bit array changes that
  position and no other.
-/

namespace ParchTestbench

/-- A flat memory: one byte at every address. -/
abbrev Mem := Nat → UInt8

namespace Mem

/-! ## Little-endian integers -/

/-- The unsigned integer in the `n` bytes from address `a`, lowest byte first. -/
def load (m : Mem) (a : Nat) : Nat → Nat
  | 0 => 0
  | n + 1 => (m a).toNat + 256 * load m (a + 1) n

/-- Store the low `n` bytes of `v` from address `a`, lowest byte first. -/
def store (m : Mem) (a n v : Nat) : Mem := fun x =>
  if a ≤ x ∧ x < a + n then UInt8.ofNat (v / 256 ^ (x - a)) else m x

/-- Set every byte of the `n` bytes from address `a` to `b`. -/
def fill (m : Mem) (a n : Nat) (b : UInt8) : Mem := fun x =>
  if a ≤ x ∧ x < a + n then b else m x

/-- Overwrite the bytes from address `a` by the list `bs`. -/
def copy (m : Mem) (a : Nat) (bs : List UInt8) : Mem := fun x =>
  if a ≤ x then bs[x - a]?.getD (m x) else m x

/-- The `n` bytes from address `a`. -/
def bytes (m : Mem) (a n : Nat) : List UInt8 := (List.range n).map fun k => m (a + k)

/-- The low `n` bytes of `v`, lowest byte first. -/
def leBytes (n v : Nat) : List UInt8 :=
  (List.range n).map fun k => UInt8.ofNat (v / 256 ^ k)

variable {m m' : Mem} {a b n k v x : Nat}

@[simp]
theorem length_leBytes : (leBytes n v).length = n := by
  simp [leBytes]

@[simp]
theorem length_bytes : (bytes m a n).length = n := by
  simp [bytes]

theorem getElem_bytes (h : k < (bytes m a n).length) : (bytes m a n)[k] = m (a + k) := by
  simp [bytes]

theorem store_of_notMem (h : x < a ∨ a + n ≤ x) : store m a n v x = m x := by
  simp only [store]
  rw [if_neg (by omega)]

theorem fill_of_notMem {c : UInt8} (h : x < a ∨ a + n ≤ x) : fill m a n c x = m x := by
  simp only [fill]
  rw [if_neg (by omega)]

theorem fill_of_mem {c : UInt8} (h : a ≤ x) (h' : x < a + n) : fill m a n c x = c := by
  simp only [fill]
  rw [if_pos ⟨h, h'⟩]

theorem copy_of_notMem {bs : List UInt8} (h : x < a ∨ a + bs.length ≤ x) :
    copy m a bs x = m x := by
  simp only [copy]
  split
  · rw [List.getElem?_eq_none (by omega)]
    rfl
  · rfl

theorem copy_of_mem {bs : List UInt8} (h : a ≤ x) (h' : x - a < bs.length) :
    copy m a bs x = bs[x - a] := by
  simp only [copy, if_pos h, List.getElem?_eq_getElem h', Option.getD_some]

@[simp]
theorem copy_nil : copy m a [] = m := by
  funext x
  simp [copy]

/-- A range that is copied reads as it did at its source. -/
theorem copy_bytes (h : a ≤ x) (h' : x < a + n) : copy m a (bytes m' b n) x = m' (b + (x - a)) := by
  rw [copy_of_mem h (by rw [length_bytes]; omega), getElem_bytes]

/-- Two adjacent pieces are copied like the whole. -/
theorem copy_append (bs cs : List UInt8) :
    copy (copy m a bs) (a + bs.length) cs = copy m a (bs ++ cs) := by
  funext x
  rcases Nat.lt_or_ge x a with hbefore | hge
  · rw [copy_of_notMem (by omega), copy_of_notMem (by omega), copy_of_notMem (by omega)]
  rcases Nat.lt_or_ge (x - a) bs.length with hfirst | hsecond
  · rw [copy_of_notMem (by omega), copy_of_mem hge hfirst,
      copy_of_mem hge (by rw [List.length_append]; omega), List.getElem_append_left hfirst]
  rcases Nat.lt_or_ge (x - a) (bs.length + cs.length) with hin | hafter
  · have hidx : x - (a + bs.length) = x - a - bs.length := by omega
    rw [copy_of_mem (by omega) (by omega), copy_of_mem hge (by rw [List.length_append]; omega),
      List.getElem_append_right hsecond]
    simp only [hidx]
  · rw [copy_of_notMem (by omega), copy_of_notMem (by omega),
      copy_of_notMem (by rw [List.length_append]; omega)]

/-- Copying over a filled range of the same length leaves no trace of the filling. -/
theorem copy_fill {bs : List UInt8} {c : UInt8} :
    copy (fill m a bs.length c) a bs = copy m a bs := by
  funext x
  by_cases hx : a ≤ x ∧ x - a < bs.length
  · rw [copy_of_mem hx.1 hx.2, copy_of_mem hx.1 hx.2]
  · rw [copy_of_notMem (by omega), copy_of_notMem (by omega), fill_of_notMem (by omega)]

/-- A read depends only on the bytes of its range. -/
theorem load_congr (h : ∀ x, a ≤ x → x < a + n → m x = m' x) : load m a n = load m' a n := by
  induction n generalizing a with
  | zero => rfl
  | succ n ih =>
      simp only [load]
      rw [h a le_rfl (by omega), ih (fun x hx hx' => h x (by omega) (by omega))]

/-- Two ranges with the same bytes read the same. -/
theorem load_eq_load (h : ∀ k, k < n → m (a + k) = m' (b + k)) : load m a n = load m' b n := by
  induction n generalizing a b with
  | zero => rfl
  | succ n ih =>
      have hhead := h 0 (by omega)
      rw [Nat.add_zero, Nat.add_zero] at hhead
      simp only [load]
      rw [hhead, ih fun k hk => ?_]
      have htail := h (k + 1) (by omega)
      rwa [show a + 1 + k = a + (k + 1) by omega, show b + 1 + k = b + (k + 1) by omega]

/-- An integer reads back what was stored, modulo its width. -/
theorem load_store : load (store m a n v) a n = v % 256 ^ n := by
  induction n generalizing m a v with
  | zero => simp [load, Nat.mod_one]
  | succ n ih =>
      have hhead : (store m a (n + 1) v a).toNat = v % 256 := by
        simp [store]
      have htail : load (store m a (n + 1) v) (a + 1) n =
          load (store m (a + 1) n (v / 256)) (a + 1) n := by
        refine load_congr fun x hx hx' => ?_
        simp only [store]
        rw [if_pos (by omega), if_pos (by omega)]
        have hexp : x - a = (x - (a + 1)) + 1 := by omega
        rw [hexp, pow_succ', Nat.div_div_eq_div_mul]
      simp only [load]
      rw [hhead, htail, ih, pow_succ', Nat.mod_mul]

theorem load_store_of_lt (h : v < 256 ^ n) : load (store m a n v) a n = v := by
  rw [load_store, Nat.mod_eq_of_lt h]

/-- The bytes of an integer are those it was read from. -/
theorem ofNat_load_div (h : a ≤ x) (h' : x < a + n) :
    UInt8.ofNat (load m a n / 256 ^ (x - a)) = m x := by
  induction n generalizing a with
  | zero => omega
  | succ n ih =>
      have hbyte : (m a).toNat < 256 := (m a).toNat_lt
      simp only [load]
      rcases Nat.eq_or_lt_of_le h with rfl | hlt
      · rw [Nat.sub_self, pow_zero, Nat.div_one]
        apply UInt8.toNat_inj.mp
        rw [UInt8.toNat_ofNat']
        omega
      · have hexp : x - a = (x - (a + 1)) + 1 := by omega
        have htail : ((m a).toNat + 256 * load m (a + 1) n) / 256 = load m (a + 1) n := by omega
        rw [hexp, pow_succ', ← Nat.div_div_eq_div_mul, htail]
        exact ih hlt (by omega)

/-- Storing what is there already changes nothing. -/
theorem store_load : store m a n (load m a n) = m := by
  funext x
  simp only [store]
  split
  · rename_i h
    exact ofNat_load_div h.1 h.2
  · rfl

/-- A read is unchanged by a store to a disjoint range. -/
theorem load_store_of_disjoint (h : a + n ≤ b ∨ b + k ≤ a) :
    load (store m b k v) a n = load m a n :=
  load_congr fun _ _ _ => store_of_notMem (by omega)

theorem load_fill_of_disjoint {c : UInt8} (h : a + n ≤ b ∨ b + k ≤ a) :
    load (fill m b k c) a n = load m a n :=
  load_congr fun _ _ _ => fill_of_notMem (by omega)

/-- Memory that is zero over the range reads as zero. -/
theorem load_eq_zero (h : ∀ x, a ≤ x → x < a + n → m x = 0) : load m a n = 0 := by
  induction n generalizing a with
  | zero => rfl
  | succ n ih =>
      simp only [load]
      rw [h a le_rfl (by omega), ih (fun x hx hx' => h x (by omega) (by omega))]
      rfl

/-- An integer placed between other bytes of a copied list reads back. -/
theorem load_copy_leBytes {bs cs : List UInt8} :
    load (copy m a (bs ++ leBytes n v ++ cs)) (a + bs.length) n = v % 256 ^ n := by
  rw [← load_store (m := m) (a := a + bs.length) (n := n) (v := v)]
  refine load_congr fun x hx hx' => ?_
  rw [copy_of_mem (by omega) (by simp; omega)]
  simp only [store, if_pos (show a + bs.length ≤ x ∧ x < a + bs.length + n by omega)]
  have hidx : x - a = bs.length + (x - (a + bs.length)) := by omega
  simp only [List.append_assoc]
  rw [List.getElem_append_right (by omega), List.getElem_append_left (by simp; omega)]
  simp [leBytes, show x - a - bs.length = x - (a + bs.length) by omega]

/-! ## Bit arrays -/

/-- Bit `pos` of the bit array whose bytes start at `base`. -/
def bit (m : Mem) (base pos : Nat) : Bool :=
  (m (base + pos / 8)).toNat.testBit (pos % 8)

/-- The memory after setting bit `pos` of the bit array at `base`. -/
def setBit (m : Mem) (base pos : Nat) : Mem :=
  store m (base + pos / 8) 1 (load m (base + pos / 8) 1 ||| 1 <<< (pos % 8))

theorem load_one : load m a 1 = (m a).toNat := by
  simp [load]

theorem bit_congr {base pos : Nat} (h : m (base + pos / 8) = m' (base + pos / 8)) :
    bit m base pos = bit m' base pos := by
  simp only [bit, h]

theorem setBit_of_ne {base pos : Nat} (h : x ≠ base + pos / 8) : setBit m base pos x = m x :=
  store_of_notMem (by omega)

/-- The one byte that setting a bit rewrites. -/
theorem toNat_setBit_self {base pos : Nat} :
    (setBit m base pos (base + pos / 8)).toNat =
      (m (base + pos / 8)).toNat ||| 1 <<< (pos % 8) := by
  have hshift : 1 <<< (pos % 8) < 2 ^ 8 := by
    rw [Nat.one_shiftLeft]
    exact Nat.pow_lt_pow_right (by omega) (Nat.mod_lt _ (by omega))
  have hbyte : (m (base + pos / 8)).toNat < 2 ^ 8 := (m (base + pos / 8)).toNat_lt
  have hor := Nat.or_lt_two_pow hbyte hshift
  simp only [setBit, store, load_one]
  rw [if_pos (by omega)]
  simp only [Nat.sub_self, pow_zero, Nat.div_one, UInt8.toNat_ofNat']
  exact Nat.mod_eq_of_lt hor

/-- Setting one position changes that position and no other. -/
theorem bit_setBit {base pos q : Nat} :
    bit (setBit m base pos) base q = (decide (q = pos) || bit m base q) := by
  by_cases hbyte : q / 8 = pos / 8
  · simp only [bit]
    rw [hbyte, toNat_setBit_self, Nat.testBit_or, Nat.one_shiftLeft, Nat.testBit_two_pow]
    have hpos : (pos % 8 = q % 8) ↔ (q = pos) := by omega
    simp only [hpos, Bool.or_comm]
  · have hne : q ≠ pos := fun h => hbyte (by rw [h])
    rw [bit_congr (setBit_of_ne (by omega))]
    simp [hne]

/-- Setting a bit never clears a bit of any byte. -/
theorem testBit_setBit_of_testBit {base pos : Nat} (h : (m x).toNat.testBit k = true) :
    (setBit m base pos x).toNat.testBit k = true := by
  by_cases hx : x = base + pos / 8
  · subst hx
    rw [toNat_setBit_self, Nat.testBit_or, h, Bool.true_or]
  · rw [setBit_of_ne hx, h]

/-- A zeroed range has no bit set. -/
theorem bit_eq_false {base pos : Nat} (h : m (base + pos / 8) = 0) : bit m base pos = false := by
  simp [bit, h]

end Mem

end ParchTestbench
