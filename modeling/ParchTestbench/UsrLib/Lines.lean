import ParchTestbench.UsrLib.Editing

/-!
# The user library: reading lines

Successive calls of `get_line` on a script, and the shell's loop over them.  The end of
file makes `get_line` return its error, together with which it drops the characters of a
line that is not terminated.

Main results:

- Theorem `getLine_terminated`: a terminated line is returned.
- Theorem `getLine_unterminated`: the rest of the script is not.
- Theorem `scriptServed_iff`: every line of a script is served exactly when the last one
  is terminated or empty, and the allocator has room for each.
-/

namespace ParchTestbench

namespace FmtIo

open ConsoleM Utf8 LineEditing
open GlobalAllocator (Heap Served byteLen stringRequests heapSpace)

variable {heap : Heap} {heaps : Nat → Heap} {l text : List Char} {ls lines : List (List Char)}
  {out : List UInt8} {fuel : Nat} {con : Console}

/-- A line without the characters that `get_line` treats specially. -/
def PlainLine (l : List Char) : Prop := ∀ c ∈ l, c ≠ '\r' ∧ c ≠ '\n' ∧ c ≠ '\x7f'

instance : DecidablePred PlainLine := fun l =>
  l.decidableBAll fun c => c ≠ '\r' ∧ c ≠ '\n' ∧ c ≠ '\x7f'

/-- The text of a script: its lines with a newline between them, and one after the last
line when that is `terminated`. -/
def scriptText : List (List Char) → Bool → List Char
  | [], _ => []
  | [l], terminated => if terminated then l ++ ['\n'] else l
  | l :: l' :: ls, terminated => l ++ '\n' :: scriptText (l' :: ls) terminated

/-- The lines that the text has: an empty last line counts when it is terminated. -/
def scriptLines (lines : List (List Char)) (terminated : Bool) : List (List Char) :=
  if terminated = false ∧ lines.getLast? = some [] then lines.dropLast else lines

/-- From `con` on successive calls of `get_line` return the lines `ls`, and then an error.
Each call finds the allocator as the calls before it have left it. -/
def ReadsLines : (Nat → Heap) → List (List Char) → Console → Prop
  | heaps, [], con => ∃ num con', getLine (heaps 0) con = (.error (.error num), con')
  | heaps, l :: ls, con => ∃ con', getLine (heaps 0) con = (.ok l, con') ∧
      ReadsLines (fun n => heaps (n + 1)) ls con'

/-- The lines that the loop of the shell's `main` hands to `serve_command`, for commands
that leave `STDIN` alone; every round but the last takes a byte. -/
def servedLinesFrom : (Nat → Heap) → Nat → Console → List (List Char)
  | _, 0, _ => []
  | heaps, fuel + 1, con =>
      match getLine (heaps 0) con with
      | (.ok line, con') => line :: servedLinesFrom (fun n => heaps (n + 1)) fuel con'
      | (.error _, _) => []

def servedLines (heaps : Nat → Heap) (con : Console) : List (List Char) :=
  servedLinesFrom heaps (con.stdin.length + 1) con

/-- No line of the script is lost: `get_line` returns them all before its first error,
and the shell serves them all. -/
structure ScriptServed (heaps : Nat → Heap) (lines : List (List Char)) (con : Console) : Prop where
  reads : ReadsLines heaps lines con
  served : servedLines heaps con = lines

/-- The allocator serves every line, as the call that reads it finds it. -/
def HeapsServe (heaps : Nat → Heap) (lines : List (List Char)) : Prop :=
  ∀ i l, lines[i]? = some l → Served (heaps i) [] (lineRequests l)

/-! ## One line -/

theorem getchar_nil : getchar ⟨[], out⟩ = (.error (.error .EEOF), ⟨[], out⟩) := rfl

/-- A plain line is typed as it stands. -/
theorem PlainLine.edits_eq (hl : PlainLine l) :
    (∀ c ∈ l, ¬ EndsLine c) ∧ edits '\x7f' [] l = l := by
  refine ⟨fun c hc hend => hend.elim (hl c hc).1 (hl c hc).2.1, ?_⟩
  exact edits_of_notMem (fun hmem => (hl _ hmem).2.2 rfl) []

/-- A terminated line is returned, and the rest is left. -/
theorem getLine_terminated (hl : PlainLine l) (hserved : Served heap [] (lineRequests l))
    (text : List Char) (out : List UInt8) : ∃ out',
    getLine heap ⟨encode (l ++ '\n' :: text), out⟩ = (.ok l, ⟨encode text, out'⟩) := by
  obtain ⟨hkeys, hedits⟩ := hl.edits_eq
  have hrun := getLine_line hkeys (Or.inr rfl : EndsLine '\n') hserved (encode text) out
  rw [hedits] at hrun
  rw [encode_append, encode_cons]
  exact ⟨_, hrun⟩

/-- At the end of file there is an error. -/
theorem getLine_nil (heap : Heap) (out : List UInt8) :
    getLine heap ⟨[], out⟩ = (.error (.error .EEOF), ⟨[], out⟩) := rfl

/-- A line is not returned that the allocator does not serve. -/
theorem getLine_ne_ok (hl : PlainLine l) (hnot : ¬ Served heap [] (lineRequests l))
    (rest out : List UInt8) : (getLine heap ⟨encode l ++ rest, out⟩).1 = .error onAllocError := by
  obtain ⟨con, hrun⟩ := getLine_exhausts hl.edits_eq.1 hnot rest out
  rw [hrun]

/-- Characters in front of the end of file are not returned: they are dropped with the error,
or the allocator does not serve them. -/
theorem getLine_unterminated (hl : PlainLine l) (heap : Heap) (out : List UInt8) :
    ∃ e, (getLine heap ⟨encode l, out⟩).1 = .error e := by
  by_cases hserved : Served heap [] (lineRequests l)
  · have hle := length_le_encode l
    obtain ⟨k, hk⟩ := Nat.exists_eq_add_of_le
      (show l.length + 1 ≤ (encode l).length + 1 by omega)
    have hpeak : Served heap [] (stringRequests (max 0 (peakBytes [] l))) := by
      rwa [Nat.zero_max]
    have hcollect := getLineFrom_edits hl.edits_eq.1 (show byteLen [] ≤ 0 from Nat.le_refl 0) hpeak
      (k + 1) [] out
    rw [List.append_nil] at hcollect
    have hfuel : (encode l).length + 1 = k + 1 + l.length := by omega
    refine ⟨.error .EEOF, ?_⟩
    rw [getLine, hfuel]
    refine (congrArg Prod.fst hcollect).trans ?_
    rw [getLineFrom, bind_error getchar_nil]
  · have hpanic := getLine_ne_ok hl hserved [] out
    rw [List.append_nil] at hpanic
    exact ⟨_, hpanic⟩

/-! ## A whole script -/

/-- The loop serves what `get_line` returns. -/
theorem servedLinesFrom_eq (h : ReadsLines heaps ls con) (hfuel : ls.length < fuel) :
    servedLinesFrom heaps fuel con = ls := by
  induction ls generalizing heaps con fuel with
  | nil =>
      obtain ⟨num, con', hrun⟩ := h
      cases fuel with
      | zero => rfl
      | succ fuel => rw [servedLinesFrom, hrun]
  | cons l ls ih =>
      obtain ⟨con', hrun, hrest⟩ := h
      cases fuel with
      | zero => cases hfuel
      | succ fuel =>
          rw [List.length_cons] at hfuel
          have hnext := ih hrest (Nat.lt_of_succ_lt_succ hfuel)
          rw [servedLinesFrom, hrun]
          simp only [hnext]

theorem heapsServe_cons : HeapsServe heaps (l :: ls) ↔
    Served (heaps 0) [] (lineRequests l) ∧ HeapsServe (fun n => heaps (n + 1)) ls := by
  constructor
  · exact fun h => ⟨h 0 l rfl, fun i l' hl' => h (i + 1) l' hl'⟩
  · rintro ⟨hfirst, hrest⟩ (- | i) l' hl'
    · rw [List.getElem?_cons_zero, Option.some_inj] at hl'
      exact hl' ▸ hfirst
    · exact hrest i l' hl'

theorem scriptText_cons (l : List Char) (ls : List (List Char)) :
    scriptText (l :: ls) true = l ++ '\n' :: scriptText ls true := by
  cases ls <;> rfl

/-- The first line of a script is read when the allocator serves it. -/
theorem readsLines_cons_iff (hl : PlainLine l) (text : List Char)
    (hrest : ∀ out', ReadsLines (fun n => heaps (n + 1)) ls ⟨encode text, out'⟩ ↔
      HeapsServe (fun n => heaps (n + 1)) ls) (out : List UInt8) :
    ReadsLines heaps (l :: ls) ⟨encode (l ++ '\n' :: text), out⟩ ↔ HeapsServe heaps (l :: ls) := by
  rw [heapsServe_cons]
  by_cases hserved : Served (heaps 0) [] (lineRequests l)
  · obtain ⟨out', hrun⟩ := getLine_terminated hl hserved text out
    rw [and_iff_right hserved, ← hrest out', ReadsLines, hrun]
    simp
  · have hpanic := getLine_ne_ok hl hserved (encode ('\n' :: text)) out
    rw [← encode_append] at hpanic
    refine iff_of_false ?_ fun h => hserved h.1
    rintro ⟨con', hrun, -⟩
    rw [hrun] at hpanic
    cases hpanic

/-- A terminated script is read exactly when the allocator serves its lines. -/
theorem readsLines_terminated_iff (hlines : ∀ l ∈ lines, PlainLine l) (heaps : Nat → Heap)
    (out : List UInt8) :
    ReadsLines heaps lines ⟨encode (scriptText lines true), out⟩ ↔ HeapsServe heaps lines := by
  induction lines generalizing heaps out with
  | nil => exact iff_of_true ⟨_, _, getLine_nil (heaps 0) out⟩ fun _ _ h => by simp at h
  | cons l ls ih =>
      rw [scriptText_cons]
      exact readsLines_cons_iff (hlines l List.mem_cons_self) (scriptText ls true)
        (ih (fun l' hl' => hlines l' (List.mem_cons_of_mem _ hl')) _) out

/-- A last line that is not terminated is not read. -/
theorem not_readsLines_unterminated (hlines : ∀ l ∈ lines, PlainLine l) (hl : PlainLine l)
    (heaps : Nat → Heap) (out : List UInt8) :
    ¬ ReadsLines heaps (lines ++ [l]) ⟨encode (scriptText (lines ++ [l]) false), out⟩ := by
  induction lines generalizing heaps out with
  | nil =>
      rintro ⟨con', hrun, -⟩
      obtain ⟨e, herror⟩ := getLine_unterminated hl (heaps 0) out
      rw [List.nil_append] at hrun
      rw [show scriptText [l] false = l from rfl] at hrun
      rw [hrun] at herror
      cases herror
  | cons l₀ ls ih =>
      have htext : scriptText (l₀ :: ls ++ [l]) false =
          l₀ ++ '\n' :: scriptText (ls ++ [l]) false := by
        cases ls <;> rfl
      have hl₀ := hlines l₀ List.mem_cons_self
      rw [htext]
      rintro ⟨con', hrun, hrest⟩
      by_cases hserved : Served (heaps 0) [] (lineRequests l₀)
      · obtain ⟨out', hfirst⟩ := getLine_terminated hl₀ hserved (scriptText (ls ++ [l]) false) out
        rw [hfirst, Prod.mk.injEq] at hrun
        obtain ⟨-, rfl⟩ := hrun
        exact ih (fun l' hl' => hlines l' (List.mem_cons_of_mem _ hl')) _ _ hrest
      · have hpanic := getLine_ne_ok hl₀ hserved (encode ('\n' :: scriptText (ls ++ [l]) false)) out
        rw [← encode_append, hrun] at hpanic
        cases hpanic

/-- An empty last line that is not terminated leaves the text of the lines in front. -/
theorem scriptText_concat_nil (ls : List (List Char)) :
    scriptText (ls ++ [[]]) false = scriptText ls true := by
  induction ls with
  | nil => rfl
  | cons l ls ih =>
      have htext : scriptText (l :: ls ++ [[]]) false =
          l ++ '\n' :: scriptText (ls ++ [[]]) false := by
        cases ls <;> rfl
      rw [htext, ih, scriptText_cons]

theorem length_le_terminated (lines : List (List Char)) :
    lines.length ≤ (scriptText lines true).length := by
  induction lines with
  | nil => exact Nat.le_refl 0
  | cons l ls ih =>
      rw [scriptText_cons, List.length_cons, List.length_append, List.length_cons]
      omega

/-- Lines that are read, and are no more than the characters of the text, are served. -/
theorem scriptServed_iff_reads (hle : ls.length ≤ text.length) :
    ScriptServed heaps ls ⟨encode text, out⟩ ↔ ReadsLines heaps ls ⟨encode text, out⟩ := by
  have hbytes := length_le_encode text
  exact ⟨ScriptServed.reads, fun h =>
    ⟨h, servedLinesFrom_eq h (show ls.length < (encode text).length + 1 by omega)⟩⟩

/-- A terminated script. -/
theorem scriptServed_terminated_iff (hlines : ∀ l ∈ lines, PlainLine l) (heaps : Nat → Heap)
    (out : List UInt8) :
    ScriptServed heaps lines ⟨encode (scriptText lines true), out⟩ ↔ HeapsServe heaps lines :=
  (scriptServed_iff_reads (length_le_terminated lines)).trans
    (readsLines_terminated_iff hlines heaps out)

/-- No line of a script is lost exactly when its last line is terminated or empty, and the
allocator serves every line. -/
theorem scriptServed_iff (heaps : Nat → Heap) (hlines : ∀ l ∈ lines, PlainLine l)
    (terminated : Bool) (out : List UInt8) :
    ScriptServed heaps (scriptLines lines terminated)
        ⟨encode (scriptText lines terminated), out⟩ ↔
      (terminated = true ∨ lines = [] ∨ lines.getLast? = some []) ∧
        HeapsServe heaps (scriptLines lines terminated) := by
  cases terminated with
  | true =>
      have hall : scriptLines lines true = lines := if_neg (by simp)
      rw [hall, and_iff_right (Or.inl rfl)]
      exact scriptServed_terminated_iff hlines heaps out
  | false =>
      rcases List.eq_nil_or_concat lines with rfl | ⟨ls, l, rfl⟩
      · rw [and_iff_right (Or.inr (Or.inl rfl))]
        exact scriptServed_terminated_iff hlines heaps out
      · rw [List.concat_eq_append] at hlines ⊢
        have hlast : (ls ++ [l]).getLast? = some l := List.getLast?_concat
        have hfront : ∀ l' ∈ ls, PlainLine l' := fun l' hl' =>
          hlines l' (List.mem_append_left _ hl')
        by_cases hempty : l = []
        · subst hempty
          have hdrop : scriptLines (ls ++ [[]]) false = ls := by
            rw [scriptLines, if_pos ⟨rfl, hlast⟩, List.dropLast_concat]
          rw [hdrop, scriptText_concat_nil, and_iff_right (Or.inr (Or.inr hlast))]
          exact scriptServed_terminated_iff hfront heaps out
        · have hne : (ls ++ [l]).getLast? ≠ some [] := by
            rw [hlast]
            exact fun heq => hempty (Option.some.inj heq)
          have hall : scriptLines (ls ++ [l]) false = ls ++ [l] := if_neg fun h => hne h.2
          rw [hall]
          refine iff_of_false (fun hserved => ?_) fun h => ?_
          · exact not_readsLines_unterminated hfront
              (hlines l (List.mem_append_right _ List.mem_cons_self)) heaps out hserved.reads
          · simp [hempty] at h

theorem scriptServed_iff_sample :
    ScriptServed (fun _ => heapSpace) (scriptLines ["help".toList, "cd /".toList] true)
      ⟨encode (scriptText ["help".toList, "cd /".toList] true), []⟩ ↔
        (true = true ∨ ["help".toList, "cd /".toList] = [] ∨
          ["help".toList, "cd /".toList].getLast? = some []) ∧
            HeapsServe (fun _ => heapSpace)
              (scriptLines ["help".toList, "cd /".toList] true) := by
  have hlines : ∀ l ∈ ["help".toList, "cd /".toList], PlainLine l :=
    List.forall_mem_cons.mpr ⟨by decide, List.forall_mem_singleton.mpr (by decide)⟩
  exact scriptServed_iff _ hlines true []

/-- A script of the single line `exit` without a newline is not served. -/
theorem not_scriptServed_unterminated :
    (∀ l ∈ ["exit".toList], PlainLine l) ∧
    scriptLines ["exit".toList] false = ["exit".toList] ∧
    HeapsServe (fun _ => heapSpace) ["exit".toList] ∧
      ¬ ScriptServed (fun _ => heapSpace) (scriptLines ["exit".toList] false)
        ⟨encode (scriptText ["exit".toList] false), []⟩ := by
  have hserve : HeapsServe (fun _ => heapSpace) ["exit".toList] :=
    heapsServe_cons.mpr ⟨⟨by decide, trivial⟩, fun i l hl => by simp at hl⟩
  refine ⟨fun l hl => by rw [List.mem_singleton.mp hl]; decide, rfl, hserve, fun hserved => ?_⟩
  obtain ⟨con, hrun, -⟩ := hserved.reads
  have herror : (getLine heapSpace ⟨encode "exit".toList, []⟩).1 = .error (.error .EEOF) := by
    decide
  have hok : (getLine heapSpace ⟨encode "exit".toList, []⟩).1 = .ok "exit".toList :=
    congrArg Prod.fst hrun
  rw [herror] at hok
  cases hok

end FmtIo

end ParchTestbench
