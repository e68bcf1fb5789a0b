import ParchTestbench.UsrLib.ErrorNum
import ParchTestbench.UsrLib.GlobalAllocator

/-!
# The user library: console input

The functions of `fmt_io` that read characters and lines from the standard input, over
a console that delivers a fixed sequence of bytes and then end of file.  A line is collected in
a string, for which the allocator of the process is asked.
-/

namespace ParchTestbench

/-- Why a call does not return `Ok`: it returns an error, it panics, or it goes round its
loop for ever. -/
inductive Failure
  | error (num : ErrorNum)
  | panic (message : String)
  | diverged
deriving DecidableEq, Repr

/-- `on_alloc_error`; the panic message goes on with the layout. -/
def onAllocError : Failure := .panic "Heap allocation error on allocating layout"

/-- The bytes that `STDIN` will still deliver, and those written to `STDOUT`. -/
structure Console where
  stdin : List UInt8
  stdout : List UInt8
deriving DecidableEq

/-- A function that returns a `Result` and uses the console. -/
def ConsoleM (α : Type) := Console → Except Failure α × Console

namespace ConsoleM

variable {α β : Type}

/-- `Ok(a)`. -/
def ret (a : α) : ConsoleM α := fun c => (.ok a, c)

/-- The `?` operator: an error ends the caller. -/
def andThen (p : ConsoleM α) (f : α → ConsoleM β) : ConsoleM β := fun c =>
  match p c with
  | (.ok a, c') => f a c'
  | (.error e, c') => (.error e, c')

instance : Monad ConsoleM where
  pure := ret
  bind := andThen

/-- Return `Err(num)`. -/
def fail (num : ErrorNum) : ConsoleM α := fun c => (.error (.error num), c)

def panic (message : String) : ConsoleM α := fun c => (.error (.panic message), c)

def diverge : ConsoleM α := fun c => (.error .diverged, c)

variable {p : ConsoleM α} {f : α → ConsoleM β} {c c' : Console} {a : α} {e : Failure}

theorem bind_ok (h : p c = (.ok a, c')) : (p >>= f) c = f a c' := by
  show andThen p f c = f a c'
  rw [andThen, h]

theorem bind_error (h : p c = (.error e, c')) : (p >>= f) c = (.error e, c') := by
  show andThen p f c = _
  rw [andThen, h]

/-- A sequence that returned `Ok` went through its first part. -/
theorem exists_of_bind_ok {b : β} (h : (p >>= f) c = (.ok b, c')) :
    ∃ a d, p c = (.ok a, d) ∧ f a d = (.ok b, c') := by
  rcases hp : p c with ⟨e | a, d⟩
  · rw [bind_error hp] at h
    cases h
  · exact ⟨a, d, rfl, by rwa [bind_ok hp] at h⟩

end ConsoleM

namespace FmtIo

open ConsoleM (fail diverge)
open GlobalAllocator (Heap HeapString)

/-- `read(STDIN, &mut buf)` for a buffer of one zero byte: the count, and the buffer. -/
def readStdin : ConsoleM (Nat × UInt8) := fun c =>
  match c.stdin with
  | [] => (.ok (0, 0), c)
  | b :: bs => (.ok (1, b), { c with stdin := bs })

/-- `print!` of a text. -/
def print (cs : List Char) : ConsoleM Unit := fun c =>
  (.ok (), { c with stdout := c.stdout ++ Utf8.encode cs })

def getbyteNoecho : ConsoleM UInt8 := do
  let (count, b) ← readStdin
  if count = 0 then
    fail .EEOF
  else
    pure b

/-- U+FFFD. -/
def replacement : Char := '\uFFFD'

/-- `char::from_u32`. -/
def fromU32 (n : UInt32) : Option Char :=
  if h : n.isValidChar then some ⟨n, h⟩ else none

/-- `length`, for a first byte outside ASCII. -/
def charLength (init : UInt8) : Option UInt8 :=
  if init < 0b11100000 then some 2
  else if init < 0b11110000 then some 3
  else if init < 0b11111000 then some 4
  else if init < 0b11111100 then some 5
  else if init < 0b11111110 then some 6
  else none

/-- The loop of `getchar_noecho` with `n` bytes left, and the conversion after it. -/
def continueChar (buf : UInt32) : Nat → ConsoleM Char
  | 0 =>
      match fromU32 buf with
      | none => pure replacement
      | some res => pure res
  | n + 1 => do
      let b ← getbyteNoecho
      if b &&& 0b11000000 ≠ 0b10000000 then
        pure replacement
      else if b &&& 0b11000000 = 0b10000000 then
        continueChar ((buf <<< 6) + (b &&& 0b00111111).toUInt32) n
      else
        ConsoleM.panic "assertion failed: `(left == right)`"

/-- `getchar_noecho`. -/
def getcharNoecho : ConsoleM Char := do
  let init ← getbyteNoecho
  if init < 0b10000000 then
    pure (Char.ofUInt8 init)
  else
    match charLength init with
    | none => pure replacement
    | some length =>
        continueChar (init &&& (0b01111111 >>> length)).toUInt32 (length.toNat - 1)

/-- `getchar`. -/
def getchar : ConsoleM Char := do
  let res ← getcharNoecho
  if res = '\r' then print ['\n'] else pure ()
  print [res]
  pure res

/-- `res.push(b)`; a buffer that the allocator does not serve panics. -/
def push (heap : Heap) (res : HeapString) (b : Char) : ConsoleM HeapString :=
  match res.push heap b with
  | some res' => pure res'
  | none => fun c => (.error onAllocError, c)

/-- The loop of `get_line` with the string `res` so far. -/
def getLineFrom (heap : Heap) : Nat → HeapString → ConsoleM (List Char)
  | 0, _ => diverge
  | fuel + 1, res => do
      let b ← getchar
      if b = '\r' ∨ b = '\n' then
        pure res.chars
      else if b = '\x7f' then
        if res.chars = [] then
          getLineFrom heap fuel res
        else do
          print ['\x08', ' ', '\x08']
          getLineFrom heap fuel res.pop
      else do
        let res' ← push heap res b
        getLineFrom heap fuel res'

/-- `get_line`, for the allocator as the call finds it; every round of its loop takes a byte or
ends it. -/
def getLine (heap : Heap) : ConsoleM (List Char) := fun c =>
  getLineFrom heap (c.stdin.length + 1) .new c

end FmtIo

end ParchTestbench
