import ParchTestbench.Machine.LineEditing
import ParchTestbench.Machine.Splitting
import ParchTestbench.UsrLib.Decoding

/-!
# The user library: editing a line

What `get_line` makes of the characters typed up to the end of a line, and what it prints
meanwhile.

Main results:

- Theorem `getLineFrom_edits`: the loop edits the line character by character.
- Theorem `getLineFrom_exhausts`: a line that the allocator does not serve ends in a panic.
- Theorem `getLine_edited`: the line that is returned, the bytes that are consumed, and the
  text that is printed.
- Theorem `getLine_overflow`: no allocator has room for a line beyond the space of the heap.
-/

namespace ParchTestbench

namespace FmtIo

open ConsoleM Utf8 LineEditing
open GlobalAllocator (Heap Served byteLen stringRequests push_served push_unserved served_concat
  heapSpace FitsHeap)
open GlobalAllocator.HeapString (having)
open Splitting (takeWhile_cases)

/-- The characters that end a line. -/
def EndsLine (c : Char) : Prop := c = '\r' ∨ c = '\n'

instance : DecidablePred EndsLine := fun _ => inferInstanceAs (Decidable (_ ∨ _))

/-- The characters in front of the end of the line. -/
def lineKeys (cs : List Char) : List Char := cs.takeWhile fun c => ¬ EndsLine c

/-- What `getchar` prints for a character. -/
def echo (c : Char) : List Char := if c = '\r' then ['\n', c] else [c]

/-- What `get_line` prints itself: the erase sequence, when a character is removed from the
line. -/
def erasure (line : List Char) (c : Char) : List Char :=
  if (edit '\x7f' line c).length < line.length then ['\x08', ' ', '\x08'] else []

/-- All that is printed while the keys are typed into the line. -/
def transcript : List Char → List Char → List Char
  | _, [] => []
  | line, c :: keys => echo c ++ erasure line c ++ transcript (edit '\x7f' line c) keys

variable {heap : Heap} {c : Char} {line keys cs : List Char} {rest out more : List UInt8}
  {n fuel : Nat}

/-! ## One character -/

theorem print_run (cs : List Char) (c : Console) :
    print cs c = (.ok (), ⟨c.stdin, c.stdout ++ encode cs⟩) := rfl

/-- A character is echoed and returned. -/
theorem getchar_echo (c : Char) (rest out : List UInt8) :
    getchar ⟨String.utf8EncodeChar c ++ rest, out⟩ = (.ok c, ⟨rest, out ++ encode (echo c)⟩) := by
  rw [getchar, bind_ok (getcharNoecho_encode c), echo]
  by_cases hc : c = '\r'
  · have hboth : encode ['\n', c] = encode ['\n'] ++ encode [c] := by
      rw [← encode_append]
      rfl
    rw [if_pos hc, if_pos hc, hboth, ← List.append_assoc]
    rfl
  · rw [if_neg hc, if_neg hc]
    rfl

/-- The erase sequence is printed for DEL in a line that is not empty. -/
theorem erasure_eq (line : List Char) (c : Char) :
    erasure line c = if c = '\x7f' ∧ line ≠ [] then ['\x08', ' ', '\x08'] else [] := by
  unfold erasure edit
  by_cases hc : c = '\x7f'
  · rw [if_pos hc, List.length_dropLast]
    cases line with
    | nil => simp
    | cons d ds => simp [hc]
  · rw [if_neg hc, List.length_append, if_neg (by omega), if_neg fun h => hc h.1]

/-- A longer line takes no fewer bytes. -/
theorem byteLen_append_le (line : List Char) (c : Char) : byteLen line ≤ byteLen (line ++ [c]) := by
  rw [byteLen, byteLen, encode_append, List.length_append]
  exact Nat.le_add_right _ _

theorem byteLen_dropLast_le (line : List Char) : byteLen line.dropLast ≤ byteLen line := by
  rcases List.eq_nil_or_concat line with rfl | ⟨front, d, rfl⟩
  · exact Nat.le_refl 0
  · rw [List.concat_eq_append, List.dropLast_concat]
    exact byteLen_append_le front d

/-- The console when a key has been read, echoed and edited in. -/
def edited (line : List Char) (c : Char) (rest out : List UInt8) : Console :=
  ⟨rest, out ++ encode (echo c ++ erasure line c)⟩

/-- DEL takes the last character away. -/
theorem getLineFrom_del (n fuel : Nat) (line : List Char) (rest out : List UInt8) :
    getLineFrom heap (fuel + 1) (having line n) ⟨String.utf8EncodeChar '\x7f' ++ rest, out⟩ =
      getLineFrom heap fuel (having line.dropLast n) (edited line '\x7f' rest out) := by
  have hchars : (having line n).chars = line := rfl
  rw [getLineFrom, bind_ok (getchar_echo _ rest out), if_neg (by decide), if_pos rfl, hchars,
    edited, erasure_eq]
  by_cases hline : line = []
  · rw [if_pos hline, if_neg fun h => h.2 hline, List.append_nil, hline]
    rfl
  · rw [if_neg hline, if_pos ⟨rfl, hline⟩, bind_ok (print_run _ _), encode_append,
      ← List.append_assoc]
    rfl

/-- Any other character that does not end the line is pushed. -/
theorem getLineFrom_push (hc : ¬ EndsLine c) (hdel : c ≠ '\x7f') (fuel : Nat)
    (rest out : List UInt8) :
    getLineFrom heap (fuel + 1) (having line n) ⟨String.utf8EncodeChar c ++ rest, out⟩ =
      (push heap (having line n) c >>= getLineFrom heap fuel) (edited line c rest out) := by
  have hgo : ¬ (c = '\r' ∨ c = '\n') := hc
  rw [getLineFrom, bind_ok (getchar_echo c rest out), if_neg hgo, if_neg hdel, edited, erasure_eq,
    if_neg fun h => hdel h.1, List.append_nil]

/-- A character that does not end the line is edited in, when the allocator serves it. -/
theorem getLineFrom_step (hc : ¬ EndsLine c) (hle : byteLen line ≤ n)
    (h : Served heap [] (stringRequests (max n (byteLen (edit '\x7f' line c))))) (fuel : Nat)
    (rest out : List UInt8) :
    getLineFrom heap (fuel + 1) (having line n) ⟨String.utf8EncodeChar c ++ rest, out⟩ =
      getLineFrom heap fuel
        (having (edit '\x7f' line c) (max n (byteLen (edit '\x7f' line c))))
        (edited line c rest out) := by
  by_cases hdel : c = '\x7f'
  · subst hdel
    have hmax : max n (byteLen line.dropLast) = n :=
      max_eq_left ((byteLen_dropLast_le line).trans hle)
    rw [getLineFrom_del, edit, if_pos rfl, hmax]
  · rw [edit_of_ne hdel] at h ⊢
    have hpush : push heap (having line n) c (edited line c rest out) =
        (.ok (having (line ++ [c]) (max n (byteLen (line ++ [c])))), edited line c rest out) := by
      rw [push, push_served hle h]
      rfl
    rw [getLineFrom_push hc hdel, bind_ok hpush]

/-- A character that it does not serve makes `get_line` panic. -/
theorem getLineFrom_unserved (hc : ¬ EndsLine c) (hle : byteLen line ≤ n)
    (h : Served heap [] (stringRequests n))
    (hnot : ¬ Served heap [] (stringRequests (max n (byteLen (edit '\x7f' line c))))) (fuel : Nat)
    (rest out : List UInt8) :
    getLineFrom heap (fuel + 1) (having line n) ⟨String.utf8EncodeChar c ++ rest, out⟩ =
      (.error onAllocError, edited line c rest out) := by
  by_cases hdel : c = '\x7f'
  · have hmax : max n (byteLen line.dropLast) = n :=
      max_eq_left ((byteLen_dropLast_le line).trans hle)
    rw [edit, if_pos hdel, hmax] at hnot
    exact absurd h hnot
  · rw [edit_of_ne hdel] at hnot
    have hpush : push heap (having line n) c (edited line c rest out) =
        (.error onAllocError, edited line c rest out) := by
      rw [push, push_unserved hle h hnot]
    rw [getLineFrom_push hc hdel, bind_error hpush]

/-! ## A line -/

/-- The bytes of the longest line on the way. -/
def peakBytes (line keys : List Char) : Nat := peak '\x7f' byteLen line keys

/-- The loop edits the line character by character. -/
theorem getLineFrom_edits (hkeys : ∀ c ∈ keys, ¬ EndsLine c) (hle : byteLen line ≤ n)
    (h : Served heap [] (stringRequests (max n (peakBytes line keys)))) (fuel : Nat)
    (rest out : List UInt8) :
    getLineFrom heap (fuel + keys.length) (having line n) ⟨encode keys ++ rest, out⟩ =
      getLineFrom heap fuel (having (edits '\x7f' line keys) (max n (peakBytes line keys)))
        ⟨rest, out ++ encode (transcript line keys)⟩ := by
  induction keys generalizing line out n with
  | nil =>
      have hmax : max n (peakBytes line []) = n := max_eq_left hle
      rw [edits_nil, transcript, encode, List.flatMap_nil, List.append_nil, hmax]
      rfl
  | cons c keys ih =>
      have hpeak : max n (peakBytes line (c :: keys)) = _ := max_peak_cons hle
      rw [hpeak] at h ⊢
      have hnow := h.of_le (le_max_left _ _)
      have hstep := getLineFrom_step (hkeys c List.mem_cons_self) hle hnow (fuel + keys.length)
        (encode keys ++ rest) out
      rw [encode_cons, List.append_assoc, List.length_cons, ← Nat.add_assoc, hstep, edited,
        ih (fun c' hc' => hkeys c' (List.mem_cons_of_mem _ hc')) (le_max_right _ _) h, edits_cons,
        List.append_assoc, ← encode_append, ← transcript]
      rfl

/-- A line that the allocator does not serve makes `get_line` panic on the way. -/
theorem getLineFrom_exhausts (hkeys : ∀ c ∈ keys, ¬ EndsLine c) (hle : byteLen line ≤ n)
    (h : Served heap [] (stringRequests n))
    (hnot : ¬ Served heap [] (stringRequests (max n (peakBytes line keys)))) (fuel : Nat)
    (rest out : List UInt8) :
    ∃ con, getLineFrom heap (fuel + keys.length) (having line n) ⟨encode keys ++ rest, out⟩ =
      (.error onAllocError, con) := by
  induction keys generalizing line out n with
  | nil =>
      have hmax : max n (peakBytes line []) = n := max_eq_left hle
      rw [hmax] at hnot
      exact absurd h hnot
  | cons c keys ih =>
      have hpeak : max n (peakBytes line (c :: keys)) = _ := max_peak_cons hle
      rw [hpeak] at hnot
      rw [encode_cons, List.append_assoc, List.length_cons, ← Nat.add_assoc]
      by_cases hnow : Served heap [] (stringRequests (max n (byteLen (edit '\x7f' line c))))
      · rw [getLineFrom_step (hkeys c List.mem_cons_self) hle hnow, edited]
        exact ih (fun c' hc' => hkeys c' (List.mem_cons_of_mem _ hc')) (le_max_right _ _) hnow
          hnot _
      · exact ⟨_, getLineFrom_unserved (hkeys c List.mem_cons_self) hle h hnow _ _ _⟩

theorem length_le_encode (cs : List Char) : cs.length ≤ (encode cs).length := by
  induction cs with
  | nil => exact Nat.le_refl 0
  | cons c cs ih =>
      have hpos := c.utf8Size_pos
      rw [encode_cons, List.length_append, String.length_utf8EncodeChar, List.length_cons]
      omega

/-- The requests of `get_line` for the keys up to the end of a line: those of a string that has
held the longest line on the way. -/
def lineRequests (keys : List Char) : List Nat := stringRequests (peakBytes [] keys)

/-- There is fuel for every key and the end of the line. -/
theorem exists_fuel (keys : List Char) (more : List UInt8) (h : 0 < more.length) :
    ∃ fuel, (encode keys ++ more).length + 1 = fuel + 1 + keys.length := by
  have hle := length_le_encode keys
  refine ⟨(encode keys ++ more).length - keys.length, ?_⟩
  rw [List.length_append]
  omega

/-- A line with its end, whatever bytes follow. -/
theorem getLine_line (hkeys : ∀ c ∈ keys, ¬ EndsLine c) (hend : EndsLine c)
    (h : Served heap [] (lineRequests keys)) (rest out : List UInt8) :
    getLine heap ⟨encode keys ++ (String.utf8EncodeChar c ++ rest), out⟩ =
      (.ok (edits '\x7f' [] keys), ⟨rest, out ++ encode (transcript [] keys ++ echo c)⟩) := by
  have hstop : c = '\r' ∨ c = '\n' := hend
  obtain ⟨fuel, hfuel⟩ := exists_fuel keys (String.utf8EncodeChar c ++ rest) (by
    rw [List.length_append, String.length_utf8EncodeChar]
    exact Nat.add_pos_left c.utf8Size_pos _)
  have hserved : Served heap [] (stringRequests (max 0 (peakBytes [] keys))) := by
    rwa [Nat.zero_max]
  have hrun := getLineFrom_edits hkeys (show byteLen [] ≤ 0 from Nat.le_refl 0) hserved (fuel + 1)
    (String.utf8EncodeChar c ++ rest) out
  rw [getLine, hfuel]
  refine hrun.trans ?_
  rw [getLineFrom, bind_ok (getchar_echo c rest _), if_pos hstop, List.append_assoc,
    ← encode_append]
  rfl

/-- A line that the allocator does not serve. -/
theorem getLine_exhausts (hkeys : ∀ c ∈ keys, ¬ EndsLine c)
    (hnot : ¬ Served heap [] (lineRequests keys)) (rest out : List UInt8) :
    ∃ con, getLine heap ⟨encode keys ++ rest, out⟩ = (.error onAllocError, con) := by
  have hle : keys.length ≤ (encode keys ++ rest).length + 1 := by
    have hbytes := length_le_encode keys
    rw [List.length_append]
    omega
  obtain ⟨fuel, hfuel⟩ := Nat.exists_eq_add_of_le' hle
  have hunserved : ¬ Served heap [] (stringRequests (max 0 (peakBytes [] keys))) := by
    rwa [Nat.zero_max]
  have hrun := getLineFrom_exhausts hkeys (show byteLen [] ≤ 0 from Nat.le_refl 0) trivial hunserved
    fuel rest out
  rw [getLine, hfuel]
  exact hrun

/-- From a text with an end of a line in it, where the allocator serves the longest line on the
way: the line in front is returned as edited, its bytes are consumed with those of its end, and
the keys are echoed and erased.  Where it does not, `get_line` panics. -/
theorem getLine_edited (heap : Heap) (cs : List Char) (h : ∃ c ∈ cs, EndsLine c)
    (more out : List UInt8) :
    ∃ c rest, cs = lineKeys cs ++ c :: rest ∧ EndsLine c ∧
      (Served heap [] (lineRequests (lineKeys cs)) →
        getLine heap ⟨encode cs ++ more, out⟩ =
          (.ok (edits '\x7f' [] (lineKeys cs)),
            ⟨encode rest ++ more, out ++ encode (transcript [] (lineKeys cs) ++ echo c)⟩)) ∧
      (¬ Served heap [] (lineRequests (lineKeys cs)) →
        ∃ con, getLine heap ⟨encode cs ++ more, out⟩ = (.error onAllocError, con)) := by
  have hkeys : ∀ c ∈ lineKeys cs, ¬ EndsLine c := fun d hd =>
    of_decide_eq_true (List.mem_takeWhile_imp (p := fun c => decide ¬ EndsLine c) hd)
  rcases takeWhile_cases (fun c => decide ¬ EndsLine c) cs with
    ⟨hdrop, -⟩ | ⟨c, rest, -, hc, hsplit⟩
  · obtain ⟨c, hmem, hc⟩ := h
    have hnone := List.dropWhile_eq_nil_iff.mp hdrop c hmem
    exact absurd hc (of_decide_eq_true hnone)
  · have hend : EndsLine c := by simpa using hc
    have hbytes : encode cs ++ more =
        encode (lineKeys cs) ++ (String.utf8EncodeChar c ++ (encode rest ++ more)) := by
      conv_lhs => rw [← hsplit]
      rw [encode_append, encode_cons, List.append_assoc, List.append_assoc]
      rfl
    rw [hbytes]
    exact ⟨c, rest, hsplit.symm, hend, fun hserved => getLine_line hkeys hend hserved _ out,
      fun hnot => getLine_exhausts hkeys hnot _ out⟩

/-- The keys `a`, `b`, DEL, `c`, CR, and a byte behind them. -/
theorem getLine_edited_sample : ∃ c rest,
    ['a', 'b', '\x7f', 'c', '\r'] = ['a', 'b', '\x7f', 'c'] ++ c :: rest ∧ EndsLine c ∧
      getLine heapSpace ⟨encode ['a', 'b', '\x7f', 'c', '\r'] ++ [0x80], []⟩ =
        (.ok ['a', 'c'], ⟨encode rest ++ [0x80],
          encode (['a', 'b', '\x7f', '\x08', ' ', '\x08', 'c'] ++ echo c)⟩) := by
  obtain ⟨c, rest, hsplit, hend, hserved, -⟩ := getLine_edited heapSpace
    ['a', 'b', '\x7f', 'c', '\r'] ⟨'\r', by decide, by decide⟩ [0x80] []
  exact ⟨c, rest, hsplit, hend, hserved (by decide)⟩

/-! ## A line that is too long -/

/-- Whatever the allocator of the heap is, a line beyond the space of the heap is not read. -/
theorem getLine_overflow (hfits : FitsHeap heap) (hkeys : ∀ c ∈ keys, ¬ EndsLine c)
    (hnot : ¬ Served heapSpace [] (lineRequests keys)) (rest out : List UInt8) :
    ∃ con, getLine heap ⟨encode keys ++ rest, out⟩ = (.error onAllocError, con) :=
  getLine_exhausts hkeys (mt (GlobalAllocator.Served.fits hfits) hnot) rest out

/-- Keys without DEL, which are all there is to hold at the end. -/
theorem peakBytes_plain (h : '\x7f' ∉ keys) : peakBytes [] keys = byteLen keys := by
  rw [peakBytes, peak_of_notMem byteLen_append_le h, List.nil_append]

theorem byteLen_replicate (n : Nat) : byteLen (List.replicate n 'a') = n := by
  induction n with
  | zero => rfl
  | succ n ih =>
      rw [byteLen] at ih
      rw [List.replicate_succ, byteLen, encode_cons, List.length_append, ih, Nat.add_comm]
      rfl

/-- The keys of a line of 16385 bytes. -/
def longKeys : List Char := List.replicate 16385 'a'

/-- A heap of 32 KiB cannot hold a buffer of 32 KiB beside one of 16 KiB. -/
theorem not_served_longKeys : ¬ Served heapSpace [] (lineRequests longKeys) := by
  have hpeak : peakBytes [] longKeys = 16385 := by
    have hplain : '\x7f' ∉ longKeys := fun hmem =>
      absurd (List.eq_of_mem_replicate hmem) (by decide)
    rw [peakBytes_plain hplain, longKeys, byteLen_replicate]
  have hrequests : lineRequests longKeys = stringRequests 16384 ++ [32768] := by
    rw [lineRequests, hpeak]
    decide
  rw [hrequests, served_concat]
  exact fun h => absurd h.2 (by decide)

theorem longKeys_plain : ∀ c ∈ longKeys, ¬ EndsLine c := fun c hc => by
  rw [List.eq_of_mem_replicate hc]
  decide

/-- With 16385 times `a` and a LF on its input, `get_line` panics. -/
theorem not_getLine_edited : ¬ ∃ c rest,
    longKeys ++ ['\n'] = lineKeys (longKeys ++ ['\n']) ++ c :: rest ∧ EndsLine c ∧
      getLine heapSpace ⟨encode (longKeys ++ ['\n']), []⟩ =
        (.ok (edits '\x7f' [] (lineKeys (longKeys ++ ['\n']))),
          ⟨encode rest, encode (transcript [] (lineKeys (longKeys ++ ['\n'])) ++ echo c)⟩) := by
  rintro ⟨c, rest, -, -, hrun⟩
  obtain ⟨con, hpanic⟩ := getLine_overflow (fun _ hserved => hserved) longKeys_plain
    not_served_longKeys (encode ['\n']) []
  rw [encode_append, hpanic] at hrun
  cases hrun

end FmtIo

end ParchTestbench
