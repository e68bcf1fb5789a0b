import ParchTestbench.Machine.Program
import Mathlib.Logic.Function.Basic

/-!
# The C user library: console input and output

The functions of `basic_io.c` for the riscv build, in which `char` is unsigned.  A program
has one buffer that it may write to; a store anywhere else stops it.  Local variables are
values, and a C string that is only read is the list of its bytes without the NUL.
-/

namespace ParchTestbench

namespace BasicIo

/-- Why a C function does not come back. -/
inductive Fault
  | outside (addr : UInt64)
  | localOutside
  | noArgument
  | diverged
deriving DecidableEq, Repr

/-- The bytes that descriptor 0 will still deliver, the calls of `tb_write` so far, and the
memory with the buffer of `size` bytes at `base`. -/
structure CState where
  stdin : List UInt8
  writes : List (Nat × List UInt8)
  mem : UInt64 → UInt8
  base : UInt64
  size : UInt64

abbrev CProgram := Program CState Fault

open Program (abort)

/-- `*addr = b`. -/
def store (addr : UInt64) (b : UInt8) : CProgram Unit := fun s =>
  if addr - s.base < s.size then
    .ok ((), { s with mem := Function.update s.mem addr b })
  else
    .error (.outside addr)

/-- `tb_write`. -/
def tbWrite (fd : Nat) (bytes : List UInt8) : CProgram Unit := fun s =>
  .ok ((), { s with writes := s.writes ++ [(fd, bytes)] })

/-- `tb_read(0, &buf, 1)`: the byte, unless the result is not positive. -/
def tbRead : CProgram (Option UInt8) := fun s =>
  match s.stdin with
  | [] => .ok (none, s)
  | b :: bs => .ok (some b, { s with stdin := bs })

/-! ## Output -/

def putc (fd : Nat) (c : UInt8) : CProgram Unit := tbWrite fd [c]

def puts (fd : Nat) (s : List UInt8) : CProgram Unit := tbWrite fd s

/-- The characters of a text as bytes. -/
def ascii (text : List Char) : List UInt8 := text.map fun c => UInt8.ofNat c.toNat

/-- `digits[i]`. -/
def digit (i : UInt64) : UInt8 := (ascii "0123456789ABCDEF".toList).getD i.toNat 0

/-- `*(ptr--) = c` in a local array; the pointer may not leave it. -/
def storeDown (buf : Nat → UInt8) (ptr : Nat) (c : UInt8) : CProgram ((Nat → UInt8) × Nat) :=
  if ptr = 0 then abort .localOutside else pure (Function.update buf ptr c, ptr - 1)

/-- The loop of `put_int`. -/
def putDigits (base : UInt64) :
    Nat → UInt64 → (Nat → UInt8) × Nat → CProgram ((Nat → UInt8) × Nat)
  | 0, _, _ => abort .diverged
  | fuel + 1, num, (buf, ptr) => do
      let next ← storeDown buf ptr (digit (num % base))
      if num / base ≠ 0 then putDigits base fuel (num / base) next else pure next

/-- The C string at an index of a local array of 30 bytes. -/
def localString (buf : Nat → UInt8) (ptr : Nat) : List UInt8 :=
  ((List.range (30 - ptr)).map fun i => buf (ptr + i)).takeWhile fun b => b ≠ 0

/-- `put_int`; the array `buf[30]` starts with any bytes, here zeros.  Every round of the loop
divides by the base, and a 64-bit number is gone after 64 of them. -/
def putInt (fd : Nat) (num : Int64) (base : UInt64) (sign : Bool) : CProgram Unit := do
  let neg := sign && num < 0
  let unsignedNum := if neg then (-num).toUInt64 else num.toUInt64
  let (buf, ptr) ← putDigits base 64 unsignedNum (fun _ => 0, 28)
  let (buf, ptr) ← if neg then storeDown buf ptr (UInt8.ofNat '-'.toNat) else pure (buf, ptr)
  puts fd (localString buf (ptr + 1))

/-- An argument behind a format: a number, or a string or NULL. -/
inductive Arg
  | num (bits : UInt64)
  | str (s : Option (List UInt8))
deriving DecidableEq

/-- `va_arg` of a number. -/
def numArg : List Arg → CProgram (UInt64 × List Arg)
  | .num bits :: args => pure (bits, args)
  | _ => abort .noArgument

/-- `va_arg` of a string. -/
def strArg : List Arg → CProgram (Option (List UInt8) × List Arg)
  | .str s :: args => pure (s, args)
  | _ => abort .noArgument

/-- One directive of `vfprintf`; it returns the arguments that are left. -/
def directive (fd : Nat) (c : UInt8) (args : List Arg) : CProgram (List Arg) := do
  if c = UInt8.ofNat 'd'.toNat then
    let (bits, args) ← numArg args
    putInt fd bits.toInt64 10 true
    pure args
  else if c = UInt8.ofNat 'u'.toNat then
    let (bits, args) ← numArg args
    putInt fd bits.toInt64 10 false
    pure args
  else if c = UInt8.ofNat 'l'.toNat then
    let (bits, args) ← numArg args
    putInt fd bits.toUInt32.toUInt64.toInt64 10 false
    pure args
  else if c = UInt8.ofNat 'x'.toNat then
    let (bits, args) ← numArg args
    putInt fd bits.toInt64 16 false
    pure args
  else if c = UInt8.ofNat 'p'.toNat then
    puts fd (ascii "0x".toList)
    let (bits, args) ← numArg args
    putInt fd bits.toInt64 16 false
    pure args
  else if c = UInt8.ofNat 's'.toNat then
    let (s, args) ← strArg args
    puts fd (s.getD (ascii "(null)".toList))
    pure args
  else if c = UInt8.ofNat 'c'.toNat then
    let (bits, args) ← numArg args
    putc fd bits.toUInt32.toUInt8
    pure args
  else if c = UInt8.ofNat '%'.toNat then
    putc fd c
    pure args
  else
    putc fd (UInt8.ofNat '%'.toNat)
    putc fd c
    pure args

/-- `vfprintf`; `inDirective` is its `state`. -/
def vfprintf (fd : Nat) : List UInt8 → Bool → List Arg → CProgram Unit
  | [], _, _ => pure ()
  | c :: format, false, args => do
      if c = UInt8.ofNat '%'.toNat then
        vfprintf fd format true args
      else
        putc fd c
        vfprintf fd format false args
  | c :: format, true, args => do
      let args ← directive fd c args
      vfprintf fd format false args

/-- `tb_printf`. -/
def tbPrintf (format : List Char) (args : List Arg) : CProgram Unit :=
  vfprintf 1 (ascii format) false args

/-! ## Input -/

/-- `getc_noecho`. -/
def getcNoecho : CProgram UInt8 := do
  match ← tbRead with
  | none => pure 0xff
  | some b => pure b

/-- `tb_getc`. -/
def tbGetc : CProgram UInt8 := do
  let res ← getcNoecho
  if res = 0xff then
    pure res
  else
    tbWrite 1 [res]
    if res = 13 then
      tbWrite 1 [10]
      pure res
    else
      pure res

/-- The end of `tb_getline`. -/
def terminate (buf p : UInt64) : CProgram UInt64 := do
  store p 0
  pure (p - buf)

/-- The loop of `tb_getline`, and what follows it. -/
def tbGetlineFrom (buf length : UInt64) : Nat → UInt64 → CProgram UInt64
  | 0, _ => abort .diverged
  | fuel + 1, p =>
      if p - buf < length - 1 then do
        let c ← tbGetc
        if c = 10 ∨ c = 13 ∨ c = 0xff ∨ c = 4 then
          terminate buf p
        else if c = 127 then do
          store p 0
          let p := if p ≠ buf then p - 1 else p
          tbPrintf ['\x08', ' ', '\x08'] []
          tbGetlineFrom buf length fuel p
        else do
          store p c
          tbGetlineFrom buf length fuel (p + 1)
      else
        terminate buf p

/-- `tb_getline`; every round of its loop takes a byte or ends it. -/
def tbGetline (buf length : UInt64) : CProgram UInt64 := fun s =>
  if length = 0 then .ok (0, s)
  else tbGetlineFrom buf length (s.stdin.length + 1) buf s

end BasicIo

end ParchTestbench
