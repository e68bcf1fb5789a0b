import ParchTestbench.UsrLib.FmtIo

/-!
# The user library: from `exec` to `main`

`exec` turns the arguments into C strings for the kernel, and `_start` of the new program
turns what the kernel hands it back into slices, in a buffer of 16 of them.

Main results:

- Theorem `strlen_eq`: the loop of `strlen` finds the end of a C string.
- Theorem `argumentsSurvive_iff`: the arguments reach `main` exactly when they and the
  path are at most 16 and the heap has room for their copies.
-/

namespace ParchTestbench

namespace Startup

open GlobalAllocator (Heap Served minNonZeroCap)

/-! ## `exec` -/

/-- The requests of a `Vec` of `n` elements of `size` bytes that one more is pushed to. -/
def pushRequests (n size : Nat) : List Nat :=
  (if n = 0 then [] else [n * size]) ++
    [max (minNonZeroCap size) (max (2 * n) (n + 1)) * size]

/-- Make some requests after others; one that is not served panics. -/
def allocate (heap : Heap) (before : List Nat) : List Nat → Except Failure (List Nat)
  | [] => .ok before
  | request :: rest =>
      if heap (before ++ [request]) then
        allocate heap (before ++ [request]) rest
      else
        .error onAllocError

/-- What the kernel reads through the pointers of an `exec`. -/
structure ExecCall where
  path : List UInt8
  argv : List (List UInt8)

/-- The bytes of a string with a zero after them. -/
def withNul (s : List Char) : List UInt8 := Utf8.encode s ++ [0]

/-- The requests of `exec` and `exec_raw`: the copies of the arguments, which are collected
in place, the pointers to them, and the copy of the path. -/
def execRequests (path : List Char) (argv : List (List Char)) : List Nat :=
  argv.flatMap (fun s => pushRequests (Utf8.encode s).length 1) ++
    (pushRequests argv.length 8 ++ pushRequests (Utf8.encode path).length 1)

/-- The copies that `exec` and `exec_raw` make. -/
def execCall (path : List Char) (argv : List (List Char)) : ExecCall where
  path := withNul path
  argv := argv.map withNul

/-- `exec`, up to its system call. -/
def exec (heap : Heap) (path : List Char) (argv : List (List Char)) :
    Except Failure ExecCall := do
  let _ ← allocate heap [] (execRequests path argv)
  pure (execCall path argv)

/-! ## `_start` -/

/-- The memory of a process, by address. -/
abbrev UserMemory := Nat → UInt8

/-- A pointer in memory. -/
def loadPtr (mem : UserMemory) (a : Nat) : Nat :=
  (List.range 8).foldr (fun i acc => (mem (a + i)).toNat + 256 * acc) 0

/-- The loop of `strlen` with `n` bytes behind it. -/
def strlenFrom (mem : UserMemory) (s : Nat) : Nat → Nat → Except Failure Nat
  | 0, _ => .error .diverged
  | fuel + 1, n => if mem (s + n) ≠ 0 then strlenFrom mem s fuel (n + 1) else .ok n

/-- `strlen`; the address space ends its loop. -/
def strlen (mem : UserMemory) (s : Nat) : Except Failure Nat := strlenFrom mem s (2 ^ 64) 0

/-- `core::slice::from_raw_parts` of bytes. -/
def fromRawParts (mem : UserMemory) (s len : Nat) : List UInt8 :=
  (List.range len).map fun i => mem (s + i)

/-- The loop of `_start` from `i` on, with `n` rounds left. -/
def fillArgv (mem : UserMemory) (argvRaw : Nat) :
    Nat → Nat → List (List UInt8) → Except Failure (List (List UInt8))
  | _, 0, argvBuf => .ok argvBuf
  | i, n + 1, argvBuf => do
      let s := loadPtr mem (argvRaw + 8 * i)
      let len ← strlen mem s
      if i < argvBuf.length then
        fillArgv mem argvRaw (i + 1) n (argvBuf.set i (fromRawParts mem s len))
      else
        .error (.panic
          ("index out of bounds: the len is " ++ toString argvBuf.length ++
            " but the index is " ++ toString i))

/-- `_start` up to its call of `main`: the arguments of that call. -/
def start (mem : UserMemory) (argc argvRaw : Nat) :
    Except Failure (Nat × List (List UInt8)) := do
  let argvBuf ← fillArgv mem argvRaw 0 argc (List.replicate 16 [0])
  pure (argc, argvBuf)

/-! ## C strings -/

/-- The bytes of a C string: those in front of the first zero. -/
def cString (bytes : List UInt8) : List UInt8 := bytes.takeWhile (· ≠ 0)

/-- A C string stands at `p`. -/
structure HoldsString (mem : UserMemory) (p : Nat) (s : List UInt8) : Prop where
  bytes : fromRawParts mem p s.length = s
  nul : mem (p + s.length) = 0
  end_lt : p + s.length < 2 ^ 64

variable {mem : UserMemory} {p argc argvRaw : Nat} {s : List UInt8}

theorem cString_append_zero (h : 0 ∉ s) : cString (s ++ [0]) = s := by
  induction s with
  | nil => rfl
  | cons b bs ih =>
      rw [List.mem_cons, not_or] at h
      have hb : decide (b ≠ 0) = true := decide_eq_true (Ne.symm h.1)
      rw [List.cons_append, cString, List.takeWhile_cons, if_pos hb]
      exact congrArg (b :: ·) (ih h.2)

theorem HoldsString.getElem (h : HoldsString mem p s) {j : Nat} (hj : j < s.length) :
    mem (p + j) = s[j] := by
  have hbyte : (fromRawParts mem p s.length)[j]? = s[j]? := by rw [h.bytes]
  rw [fromRawParts, List.getElem?_map, List.getElem?_range hj, List.getElem?_eq_getElem hj]
    at hbyte
  exact Option.some.inj hbyte

/-- The loop of `strlen` goes on to the end of the string. -/
theorem strlenFrom_eq (h : HoldsString mem p s) (hs : 0 ∉ s) (rest n fuel : Nat)
    (hn : n + rest = s.length) (hfuel : rest < fuel) :
    strlenFrom mem p fuel n = .ok s.length := by
  induction rest generalizing n fuel with
  | zero =>
      obtain ⟨fuel, rfl⟩ := Nat.exists_eq_add_of_lt hfuel
      rw [Nat.add_zero] at hn
      rw [Nat.zero_add, strlenFrom, hn, if_neg (not_not_intro h.nul)]
  | succ rest ih =>
      obtain ⟨fuel, rfl⟩ := Nat.exists_eq_add_of_lt hfuel
      have hlt : n < s.length := by omega
      have hne : mem (p + n) ≠ 0 := by
        rw [h.getElem hlt]
        exact fun hzero => hs (hzero ▸ List.getElem_mem hlt)
      rw [strlenFrom, if_pos hne]
      exact ih (n + 1) (rest + 1 + fuel) (by omega) (by omega)

/-- The loop of `strlen` finds the end of a C string. -/
theorem strlen_eq (h : HoldsString mem p s) (hs : 0 ∉ s) : strlen mem p = .ok s.length :=
  strlenFrom_eq h hs s.length 0 _ (Nat.zero_add _) (by have := h.end_lt; omega)

/-! ## The hand-over -/

/-- The strings that the kernel has read from an `exec`, the path first. -/
def ExecCall.strings (call : ExecCall) : List (List UInt8) :=
  cString call.path :: call.argv.map cString

/-- The kernel hands a program the count and a vector of pointers to the strings that it
has read, with a null pointer after them. -/
structure HandedOver (call : ExecCall) (mem : UserMemory) (argc argvRaw : Nat) : Prop where
  count : argc = call.strings.length
  string : ∀ i s, call.strings[i]? = some s → HoldsString mem (loadPtr mem (argvRaw + 8 * i)) s
  null : loadPtr mem (argvRaw + 8 * argc) = 0

variable {heap : Heap} {path : List Char} {args : List (List Char)}
  {strings buf : List (List UInt8)}

/-- The loop of `_start` reads one string after the other, as far as the buffer goes. -/
theorem fillArgv_eq (buf : List (List UInt8)) (hzero : ∀ s ∈ strings, 0 ∉ s)
    (hstring : ∀ i s, strings[i]? = some s →
      HoldsString mem (loadPtr mem (argvRaw + 8 * i)) s)
    (n i : Nat) (hi : i + n = strings.length) (hbuf : buf.take i = strings.take i) :
    if strings.length ≤ buf.length then
      ∃ buf', fillArgv mem argvRaw i n buf = .ok buf' ∧
        buf'.take strings.length = strings
    else i ≤ buf.length → ∃ message, fillArgv mem argvRaw i n buf = .error (.panic message) := by
  induction n generalizing i buf with
  | zero =>
      rw [Nat.add_zero] at hi
      split
      · rw [hi, List.take_length] at hbuf
        exact ⟨buf, rfl, hbuf⟩
      · exact fun hle => absurd (hi ▸ hle) ‹_›
  | succ n ih =>
      have hlt : i < strings.length := by omega
      have hsome : strings[i]? = some strings[i] := List.getElem?_eq_getElem hlt
      have hhold := hstring i _ hsome
      have hlen := strlen_eq hhold (hzero _ (List.getElem_mem hlt))
      by_cases hin : i < buf.length
      · have hstep : fillArgv mem argvRaw i (n + 1) buf =
            fillArgv mem argvRaw (i + 1) n (buf.set i strings[i]) := by
          rw [fillArgv, hlen]
          show (if i < buf.length then _ else _) = _
          rw [if_pos hin, hhold.bytes]
        have htake : (buf.set i strings[i]).take (i + 1) = strings.take (i + 1) := by
          rw [List.take_succ_eq_append_getElem (by rwa [List.length_set]),
            List.take_succ_eq_append_getElem hlt, List.getElem_set_self,
            List.take_set_of_le (Nat.le_refl i), hbuf]
        have hrest := ih _ (i + 1) (by omega) htake
        rw [List.length_set] at hrest
        rw [hstep]
        split at hrest
        · rwa [if_pos ‹_›]
        · rw [if_neg ‹_›]
          exact fun _ => hrest (by omega)
      · rw [if_neg (by omega)]
        intro _
        rw [fillArgv, hlen]
        show ∃ message, (if i < buf.length then _ else _) = _
        rw [if_neg hin]
        exact ⟨_, rfl⟩

/-! ## From `exec` to `main` -/

theorem allocate_iff (before requests : List Nat) :
    (∃ all, allocate heap before requests = .ok all) ↔ Served heap before requests := by
  induction requests generalizing before with
  | nil => exact ⟨fun _ => trivial, fun _ => ⟨before, rfl⟩⟩
  | cons request rest ih =>
      rw [Served, allocate]
      split
      · exact (ih _).trans (and_iff_right ‹_›).symm
      · refine iff_of_false (fun h => ?_) fun h => absurd h.1 ‹_›
        obtain ⟨all, hall⟩ := h
        cases hall

/-- `exec` of one program and `_start` of the next, which begins with the memory that the
kernel hands over: the arguments of `main`. -/
def execThenStart (heap : Heap) (path : List Char) (args : List (List Char))
    (mem : UserMemory) (argc argvRaw : Nat) : Except Failure (Nat × List (List UInt8)) := do
  let _ ← exec heap path args
  start mem argc argvRaw

/-- `main` is called with the path and the arguments. -/
def ArgumentsSurvive (heap : Heap) (path : List Char) (args : List (List Char))
    (mem : UserMemory) (argc argvRaw : Nat) : Prop :=
  ∃ argv, execThenStart heap path args mem argc argvRaw = .ok (args.length + 1, argv) ∧
    argv.take (args.length + 1) = (path :: args).map Utf8.encode

theorem strings_execCall (hpath : '\x00' ∉ path) (hargs : ∀ a ∈ args, '\x00' ∉ a) :
    (execCall path args).strings = (path :: args).map Utf8.encode := by
  have hone : ∀ s : List Char, '\x00' ∉ s → cString (withNul s) = Utf8.encode s :=
    fun s hs => cString_append_zero (Utf8.zero_notMem_encode hs)
  rw [ExecCall.strings, List.map_cons]
  refine congrArg₂ List.cons (hone path hpath) ?_
  rw [execCall, List.map_map]
  exact List.map_congr_left fun a ha => hone a (hargs a ha)

/-- The arguments reach `main` exactly when the buffer holds the path and all of them,
and the heap has room for their copies. -/
theorem argumentsSurvive_iff (heap : Heap) (path : List Char) (args : List (List Char))
    (mem : UserMemory) (argc argvRaw : Nat) (hpath : '\x00' ∉ path)
    (hargs : ∀ a ∈ args, '\x00' ∉ a)
    (hkernel : HandedOver (execCall path args) mem argc argvRaw) :
    ArgumentsSurvive heap path args mem argc argvRaw ↔
      args.length ≤ 15 ∧ Served heap [] (execRequests path args) := by
  have hstrings := strings_execCall hpath hargs
  have hcount := hkernel.count
  have hstring := hkernel.string
  rw [hstrings] at hcount hstring
  have hlength : ((path :: args).map Utf8.encode).length = args.length + 1 := by
    rw [List.length_map, List.length_cons]
  have hzero : ∀ s ∈ (path :: args).map Utf8.encode, 0 ∉ s := by
    intro s hs
    obtain ⟨cs, hcs, rfl⟩ := List.mem_map.mp hs
    rcases List.mem_cons.mp hcs with rfl | hmem
    · exact Utf8.zero_notMem_encode hpath
    · exact Utf8.zero_notMem_encode (hargs cs hmem)
  have hloop := fillArgv_eq (List.replicate 16 [0]) hzero hstring argc 0
    (by rw [hcount, Nat.zero_add]) rfl
  rw [hlength, List.length_replicate] at hloop
  rw [hlength] at hcount
  rw [← allocate_iff]
  unfold ArgumentsSurvive execThenStart exec start
  rcases hheap : allocate heap [] (execRequests path args) with e | all
  · refine iff_of_false ?_ ?_
    · rintro ⟨argv, hrun, -⟩
      cases hrun
    · rintro ⟨-, all, hall⟩
      cases hall
  by_cases hfit : args.length ≤ 15
  · rw [if_pos (by omega)] at hloop
    obtain ⟨argv, hrun, htake⟩ := hloop
    refine iff_of_true ⟨argv, ?_, htake⟩ ⟨hfit, all, rfl⟩
    show (fillArgv mem argvRaw 0 argc (List.replicate 16 [0]) >>= fun argvBuf =>
      pure (argc, argvBuf)) = _
    rw [hrun, hcount]
    rfl
  · rw [if_neg (by omega)] at hloop
    obtain ⟨message, hrun⟩ := hloop (Nat.zero_le _)
    refine iff_of_false ?_ (fun h => hfit h.1)
    rintro ⟨argv, hargv, -⟩
    have hfail : (fillArgv mem argvRaw 0 argc (List.replicate 16 [0]) >>= fun argvBuf =>
      pure (argc, argvBuf)) = .error (.panic message) := by
      rw [hrun]
      rfl
    exact absurd (hfail.symm.trans hargv) (fun h => by cases h)

/-- A memory with the vector of a path `p` and `n` arguments `a` in front of the strings. -/
def sampleMemory (n : Nat) : UserMemory := fun a =>
  if a = 0x1000 then 112
  else if a = 0x1002 then 97
  else if a < 8 * (n + 1) ∧ a % 8 = 1 then 0x10
  else if a < 8 * (n + 1) ∧ a % 8 = 0 ∧ a ≠ 0 then 2
  else 0

theorem handedOver_sample : HandedOver (execCall ['p'] [['a']]) (sampleMemory 1) 2 0 := by
  refine ⟨rfl, fun i s hs => ?_, rfl⟩
  match i with
  | 0 => cases hs; exact ⟨by decide, by decide, by decide⟩
  | 1 => cases hs; exact ⟨by decide, by decide, by decide⟩
  | _ + 2 => cases hs

theorem argumentsSurvive_iff_sample :
    ArgumentsSurvive (fun _ => true) ['p'] [['a']] (sampleMemory 1) 2 0 ↔
      [['a']].length ≤ 15 ∧ Served (fun _ => true) [] (execRequests ['p'] [['a']]) :=
  argumentsSurvive_iff _ _ _ _ _ _ (by decide) (by decide) handedOver_sample

theorem handedOver_sixteen :
    HandedOver (execCall ['p'] (List.replicate 16 ['a'])) (sampleMemory 16) 17 0 := by
  refine ⟨rfl, fun i s hs => ?_, rfl⟩
  have hlt : i < 17 := (List.getElem?_eq_some_iff.mp hs).1
  have hptr : ∀ i < 17,
      loadPtr (sampleMemory 16) (0 + 8 * i) = if i = 0 then 0x1000 else 0x1002 := by decide
  have hstrings : ∀ i < 17, (execCall ['p'] (List.replicate 16 ['a'])).strings[i]? =
      some (if i = 0 then [112] else [97]) := by decide
  rw [hstrings i hlt, Option.some.injEq] at hs
  rw [hptr i hlt, ← hs]
  split <;> exact ⟨by decide, by decide, by decide⟩

/-- With 16 arguments the new program panics before `main`. -/
theorem not_argumentsSurvive :
    HandedOver (execCall ['p'] (List.replicate 16 ['a'])) (sampleMemory 16) 17 0 ∧
      execThenStart (fun _ => true) ['p'] (List.replicate 16 ['a']) (sampleMemory 16) 17 0 =
        .error (.panic "index out of bounds: the len is 16 but the index is 16") ∧
      ¬ ArgumentsSurvive (fun _ => true) ['p'] (List.replicate 16 ['a'])
        (sampleMemory 16) 17 0 := by
  have hpanic : execThenStart (fun _ => true) ['p'] (List.replicate 16 ['a'])
      (sampleMemory 16) 17 0 =
        .error (.panic "index out of bounds: the len is 16 but the index is 16") := by
    decide +kernel
  refine ⟨handedOver_sixteen, hpanic, ?_⟩
  rintro ⟨argv, hargv, -⟩
  rw [hpanic] at hargv
  cases hargv

end Startup

end ParchTestbench
