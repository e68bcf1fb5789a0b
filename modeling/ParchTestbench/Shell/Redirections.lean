import ParchTestbench.Machine.Splitting
import ParchTestbench.Shell.Parse

/-!
# The shell: lines with redirections

What `Command::parse` makes of each arrangement of `<` and `>`.  Where both stand on a
line, the position of the second was found in the whole line, and is used behind a
separator that has been stripped: the text up to it is cut one byte too late.

Main results:

- Theorem `parse_panic_inputOutput`: a line with both redirections panics, unless the
  second separator is doubled.
- Theorem `bothRedirected_iff`: so no command that is accepted can be redirected twice.
- Theorem `parse_returns_iff`: the lines on which the parser returns.
-/

namespace ParchTestbench

namespace Shell

open Splitting

variable {a b c : Char} {s l r l' r' pre post cmd e i o exec : List Char}
  {input output : Option (List Char)}

/-! ## The first occurrence of a separator -/

/-- A string has one first occurrence of a character. -/
theorem first_unique (hl : b ∉ l) (hl' : b ∉ l') (h : l ++ b :: r = l' ++ b :: r') :
    l = l' ∧ r = r' := by
  induction l generalizing l' with
  | nil =>
      cases l' with
      | nil => exact ⟨rfl, (List.cons.inj h).2⟩
      | cons d ds => exact absurd (List.mem_cons.mpr (Or.inl (List.cons.inj h).1)) hl'
  | cons d ds ih =>
      cases l' with
      | nil => exact absurd (List.mem_cons.mpr (Or.inl (List.cons.inj h).1.symm)) hl
      | cons d' ds' =>
          rw [List.mem_cons, not_or] at hl hl'
          obtain ⟨hd, hds⟩ := List.cons.inj h
          obtain ⟨hl, hr⟩ := ih hl.2 hl'.2 hds
          exact ⟨by rw [hd, hl], hr⟩

/-- The first `b` of the line has an `a` in front of it, and no second `b` right behind. -/
def Undoubled (a b : Char) (s : List Char) : Prop :=
  ∃ l r, s = l ++ b :: r ∧ b ∉ l ∧ a ∈ l ∧ r.head? ≠ some b

theorem undoubled_iff (hl : b ∉ l) : Undoubled a b (l ++ b :: r) ↔ a ∈ l ∧ r.head? ≠ some b := by
  constructor
  · rintro ⟨l', r', h, hl', ha, hr⟩
    obtain ⟨rfl, rfl⟩ := first_unique hl hl' h
    exact ⟨ha, hr⟩
  · exact fun ⟨ha, hr⟩ => ⟨l, r, rfl, hl, ha, hr⟩

theorem Undoubled.mem (h : Undoubled a b s) : a ∈ s ∧ b ∈ s := by
  obtain ⟨l, r, rfl, -, ha, -⟩ := h
  exact ⟨List.mem_append_left _ ha, List.mem_append_right _ List.mem_cons_self⟩

/-- White space around the line makes no difference. -/
theorem undoubled_trim (ha : isWhitespace a = false) (hb : isWhitespace b = false) :
    Undoubled a b (trim s) ↔ Undoubled a b s := by
  have hout : ∀ {d : Char} {blank : List Char}, isWhitespace d = false →
      (∀ c ∈ blank, isWhitespace c) → d ∉ blank := by
    intro d blank hd hblank hmem
    rw [hblank d hmem] at hd
    cases hd
  obtain ⟨pre, post, hs, hpre, hpost⟩ := exists_strip isWhitespace s
  rw [show strip isWhitespace s = trim s from rfl] at hs
  by_cases hmem : b ∈ trim s
  · obtain ⟨l, r, htrim, hl⟩ := exists_split hmem
    have hsplit : s = (pre ++ l) ++ b :: (r ++ post) := by
      rw [hs, htrim]
      simp only [List.append_assoc, List.cons_append]
    have hl' : b ∉ pre ++ l := fun h =>
      (List.mem_append.mp h).elim (hout hb hpre) hl
    have hhead : (r ++ post).head? = some b ↔ r.head? = some b := by
      cases r with
      | nil =>
          refine iff_of_false (fun h => hout hb hpost (List.mem_of_mem_head? h)) ?_
          exact fun h => by cases h
      | cons d ds => exact Iff.rfl
    rw [htrim, undoubled_iff hl, hsplit, undoubled_iff hl', List.mem_append, Ne, Ne, hhead]
    exact and_congr_left fun _ => (or_iff_right (hout ha hpre)).symm
  · refine iff_of_false (fun h => hmem h.mem.2) fun h => hmem ?_
    have hin := h.mem.2
    rw [hs] at hin
    rcases List.mem_append.mp hin with hfront | hback
    · exact (List.mem_append.mp hfront).resolve_left (hout hb hpre)
    · exact absurd hback (hout hb hpost)

/-! ## Separators -/

/-- A character that ends the words of a command. -/
def IsSeparator (c : Char) : Prop := c = '|' ∨ c = '<' ∨ c = '>'

instance : DecidablePred IsSeparator := fun _ => inferInstanceAs (Decidable (_ ∨ _))

/-- A text without separators. -/
def Unseparated (s : List Char) : Prop := ∀ c ∈ s, ¬ IsSeparator c

instance : DecidablePred Unseparated := fun s => s.decidableBAll fun c => ¬ IsSeparator c

theorem Unseparated.notMem (h : Unseparated s) : '|' ∉ s ∧ '<' ∉ s ∧ '>' ∉ s :=
  ⟨fun hmem => h _ hmem (Or.inl rfl), fun hmem => h _ hmem (Or.inr (Or.inl rfl)),
    fun hmem => h _ hmem (Or.inr (Or.inr rfl))⟩

namespace Command

/-! ## The arrangements of the redirections -/

/-- How the first separators of a line stand to each other. -/
inductive Arrangement : List Char → Prop
  | none {s : List Char} (hi : '<' ∉ s) (ho : '>' ∉ s) : Arrangement s
  | input {e i : List Char} (he : '<' ∉ e) (ho : '>' ∉ e ++ '<' :: i) :
      Arrangement (e ++ '<' :: i)
  | output {e o : List Char} (he : '>' ∉ e) (hi : '<' ∉ e ++ '>' :: o) :
      Arrangement (e ++ '>' :: o)
  | inputOutput {e i o : List Char} (he : '<' ∉ e) (he' : '>' ∉ e) (hi : '>' ∉ i) :
      Arrangement (e ++ '<' :: (i ++ '>' :: o))
  | outputInput {e o i : List Char} (he : '<' ∉ e) (he' : '>' ∉ e) (ho : '<' ∉ o) :
      Arrangement (e ++ '>' :: (o ++ '<' :: i))

theorem exists_arrangement (s : List Char) : Arrangement s := by
  by_cases hi : '<' ∈ s
  · obtain ⟨l, r, rfl, hl⟩ := exists_split hi
    by_cases hleft : '>' ∈ l
    · obtain ⟨e, o, rfl, he⟩ := exists_split hleft
      have hassoc : (e ++ '>' :: o) ++ '<' :: r = e ++ '>' :: (o ++ '<' :: r) := by simp
      have hnot : '<' ∉ e ∧ '<' ∉ o := by simpa using hl
      rw [hassoc]
      exact .outputInput hnot.1 he hnot.2
    by_cases hright : '>' ∈ r
    · obtain ⟨i, o, rfl, hi'⟩ := exists_split hright
      exact .inputOutput hl hleft hi'
    · exact .input hl (by simp [hleft, hright])
  · by_cases ho : '>' ∈ s
    · obtain ⟨l, r, rfl, hl⟩ := exists_split ho
      exact .output hl hi
    · exact .none hi ho

theorem splitRedirections_none (hi : '<' ∉ cmd) (ho : '>' ∉ cmd) :
    splitRedirections cmd = .ok (trim cmd, none, none) := by
  unfold splitRedirections
  rw [find_of_notMem hi, find_of_notMem ho]
  rfl

theorem splitRedirections_input (he : '<' ∉ e) (ho : '>' ∉ e ++ '<' :: i) :
    splitRedirections (e ++ '<' :: i) = .ok (trim e, some (trim i), none) := by
  unfold splitRedirections
  rw [find_append he, find_of_notMem ho]
  dsimp only
  rw [splitAt_append]
  rfl

theorem splitRedirections_output (he : '>' ∉ e) (hi : '<' ∉ e ++ '>' :: o) :
    splitRedirections (e ++ '>' :: o) = .ok (trim e, none, some (trim o)) := by
  unfold splitRedirections
  rw [find_append he, find_of_notMem hi]
  dsimp only
  rw [splitAt_append]
  rfl

/-- The positions of two separators; from behind the first one, their distance takes the
second one along. -/
theorem exists_positions (hsize : a.utf8Size = 1) (hsize' : b.utf8Size = 1) (he : a ∉ e)
    (he' : b ∉ e) (hi : b ∉ i) (hne : b ≠ a) :
    ∃ p q, find a (e ++ a :: (i ++ b :: o)) = some p ∧ find b (e ++ a :: (i ++ b :: o)) = some q ∧
      p < q ∧ splitAt (e ++ a :: (i ++ b :: o)) p = .ok (e, a :: (i ++ b :: o)) ∧
        splitAt (i ++ b :: o) (q - p) = .ok (i ++ [b], o) := by
  have hfront : b ∉ e ++ a :: i := by simp [he', hi, hne]
  have hassoc : e ++ a :: (i ++ b :: o) = (e ++ a :: i) ++ b :: o := by simp
  have hmid : i ++ b :: o = (i ++ [b]) ++ o := by simp
  have hdist : (Utf8.encode (e ++ a :: i)).length =
      (Utf8.encode e).length + (Utf8.encode (i ++ [b])).length := by
    simp only [Utf8.encode_append, Utf8.encode_cons, List.length_append,
      String.length_utf8EncodeChar, hsize, hsize']
    have hnil : (Utf8.encode []).length = 0 := rfl
    omega
  have hpos : 0 < (Utf8.encode (i ++ [b])).length := by
    simp only [Utf8.encode_append, Utf8.encode_cons, List.length_append,
      String.length_utf8EncodeChar, hsize']
    omega
  refine ⟨_, (Utf8.encode (e ++ a :: i)).length, find_append he, ?_, ?_, splitAt_append, ?_⟩
  · rw [hassoc, find_append hfront]
  · omega
  · rw [hdist, Nat.add_sub_cancel_left, hmid, splitAt_append]

/-- The input comes first; what is left for the output starts behind its separator. -/
theorem splitRedirections_inputOutput (he : '<' ∉ e) (he' : '>' ∉ e) (hi : '>' ∉ i) :
    splitRedirections (e ++ '<' :: (i ++ '>' :: o)) =
      (stripPrefix '>' o).bind fun o =>
        .ok (trim e, some (trim (i ++ ['>'])), some (trim o)) := by
  obtain ⟨p, q, hp, hq, hlt, hsplit, hmid⟩ := exists_positions (o := o) (a := '<') (b := '>')
    rfl rfl he he' hi (by decide)
  unfold splitRedirections
  rw [hp, hq]
  dsimp only
  rw [if_pos hlt, hsplit]
  show (splitAt (i ++ '>' :: o) _ >>= _) = _
  rw [hmid]
  rfl

/-- The same with the two separators exchanged. -/
theorem splitRedirections_outputInput (he : '<' ∉ e) (he' : '>' ∉ e) (ho : '<' ∉ o) :
    splitRedirections (e ++ '>' :: (o ++ '<' :: i)) =
      (stripPrefix '<' i).bind fun i =>
        .ok (trim e, some (trim i), some (trim (o ++ ['<']))) := by
  obtain ⟨p, q, hp, hq, hlt, hsplit, hmid⟩ := exists_positions (o := i) (a := '>') (b := '<')
    rfl rfl he' he ho (by decide)
  unfold splitRedirections
  rw [hp, hq]
  dsimp only
  rw [if_neg (Nat.not_lt.mpr hlt.le), hsplit]
  show (splitAt (o ++ '<' :: i) _ >>= _) = _
  rw [hmid]
  rfl

/-! ## Lines without a pipe -/

/-- The command of a line in its parts. -/
def ofParts : List Char × Option (List Char) × Option (List Char) → Except ParseFailure Command
  | (exec, input, output) =>
      match pieces ' ' exec with
      | [] => .error .parseErr
      | execPath :: args => .ok (mk execPath args (IOType.ofPath input) (IOType.ofPath output))

theorem parseSimple_eq : parseSimple cmd = (splitRedirections cmd).bind ofParts := rfl

theorem ofParts_of_cons {w : List Char} {ws : List (List Char)}
    (h : pieces ' ' exec = w :: ws) :
    ofParts (exec, input, output) =
      .ok (mk w ws (IOType.ofPath input) (IOType.ofPath output)) := by
  unfold ofParts
  dsimp only
  rw [h]

/-- A sequence that was accepted went through its first part. -/
theorem exists_of_except_bind {α β : Type} {x : Except ParseFailure α}
    {f : α → Except ParseFailure β} {b : β} (h : x.bind f = .ok b) :
    ∃ a, x = .ok a ∧ f a = .ok b := by
  cases x with
  | error e => cases h
  | ok a => exact ⟨a, rfl, h⟩

/-- Parts without words are refused, and no others. -/
theorem exists_ofParts_iff {exec : List Char} {input output : Option (List Char)} :
    (∃ c, ofParts (exec, input, output) = .ok c) ↔ pieces ' ' exec ≠ [] := by
  unfold ofParts
  dsimp only
  rcases pieces ' ' exec with - | ⟨w, ws⟩ <;> simp

theorem ofParts_ne_panic (parts : List Char × Option (List Char) × Option (List Char)) :
    ofParts parts ≠ .error .panic := by
  obtain ⟨exec, input, output⟩ := parts
  unfold ofParts
  dsimp only
  split <;> exact fun h => by cases h

/-- A line without a pipe panics where its parts cannot be taken. -/
theorem parseSimple_eq_panic : parseSimple cmd = .error .panic ↔
    splitRedirections cmd = .error .panic := by
  rw [parseSimple_eq]
  rcases splitRedirections cmd with e | parts
  · constructor <;> exact fun h => by cases h; rfl
  · exact iff_of_false (ofParts_ne_panic parts) fun h => by cases h

theorem parse_of_notMem (h : '|' ∉ cmd) : parse cmd = parseSimple cmd :=
  parseWith_of_notMem h

/-- A stripped separator was there. -/
theorem stripPrefix_eq_panic : stripPrefix c s = .error .panic ↔ s.head? ≠ some c := by
  cases s with
  | nil => exact iff_of_true rfl fun h => by cases h
  | cons d ds =>
      rw [stripPrefix, List.head?_cons, Ne, Option.some_inj]
      by_cases hd : d = c
      · rw [if_pos hd]
        exact iff_of_false (fun h => by cases h) (not_not_intro hd)
      · rw [if_neg hd]
        exact iff_of_true rfl hd

/-- A line without a pipe panics where its second kind of separator is not doubled. -/
theorem splitRedirections_eq_panic (s : List Char) : splitRedirections s = .error .panic ↔
    Undoubled '<' '>' s ∨ Undoubled '>' '<' s := by
  have hbind : ∀ {c : Char} {rest : List Char}
      {f : List Char → List Char × Option (List Char) × Option (List Char)},
      ((stripPrefix c rest).bind fun x => .ok (f x)) = .error .panic ↔ rest.head? ≠ some c := by
    intro c rest f
    rw [← stripPrefix_eq_panic]
    cases stripPrefix c rest <;> simp [Except.bind]
  cases exists_arrangement s with
  | none hi ho =>
      rw [splitRedirections_none hi ho]
      exact iff_of_false (fun h => by cases h)
        (not_or.mpr ⟨fun h => hi h.mem.1, fun h => hi h.mem.2⟩)
  | input he ho =>
      rw [splitRedirections_input he ho]
      exact iff_of_false (fun h => by cases h)
        (not_or.mpr ⟨fun h => ho h.mem.2, fun h => ho h.mem.1⟩)
  | output he hi =>
      rw [splitRedirections_output he hi]
      exact iff_of_false (fun h => by cases h)
        (not_or.mpr ⟨fun h => hi h.mem.1, fun h => hi h.mem.2⟩)
  | @inputOutput e i o he he' hi =>
      have hother : ¬ Undoubled '>' '<' (e ++ '<' :: (i ++ '>' :: o)) := by
        rw [undoubled_iff he]
        exact fun h => he' h.1
      have hassoc : e ++ '<' :: (i ++ '>' :: o) = (e ++ '<' :: i) ++ '>' :: o := by simp
      rw [or_iff_left hother, splitRedirections_inputOutput he he' hi, hbind, hassoc,
        undoubled_iff (by simp [he', hi]), and_iff_right (by simp)]
  | @outputInput e o i he he' ho =>
      have hother : ¬ Undoubled '<' '>' (e ++ '>' :: (o ++ '<' :: i)) := by
        rw [undoubled_iff he']
        exact fun h => he h.1
      have hassoc : e ++ '>' :: (o ++ '<' :: i) = (e ++ '>' :: o) ++ '<' :: i := by simp
      rw [or_iff_right hother, splitRedirections_outputInput he he' ho, hbind, hassoc,
        undoubled_iff (by simp [he, ho]), and_iff_right (by simp)]

/-! ## Where the parser returns -/

/-- The part of the line in front of its first pipe. -/
def firstCommand (cmd : List Char) : List Char := cmd.takeWhile fun c => c ≠ '|'

/-- A command with both kinds of redirection, the first separator of the later kind not
doubled. -/
def Crashing (s : List Char) : Prop := Undoubled '<' '>' s ∨ Undoubled '>' '<' s

/-- `parse` returns `Ok` or `Err(ParseErr)`. -/
def Returns (cmd : List Char) : Prop :=
  (∃ c, parse cmd = .ok c) ∨ parse cmd = .error .parseErr

theorem returns_iff_ne_panic : Returns cmd ↔ parse cmd ≠ .error .panic := by
  unfold Returns
  rcases hparse : parse cmd with (- | - | -) | c
  · simp
  · simp
  · exact absurd hparse (parse_ne_diverged cmd)
  · simp

theorem firstCommand_append (hl : '|' ∉ l) : firstCommand (l ++ '|' :: r) = l := by
  unfold firstCommand
  rw [List.takeWhile_append_of_pos fun c hc => decide_eq_true (ne_of_mem_of_not_mem hc hl)]
  simp

theorem firstCommand_of_notMem (h : '|' ∉ cmd) : firstCommand cmd = cmd :=
  List.takeWhile_eq_self_iff.mpr fun _ hc => decide_eq_true (ne_of_mem_of_not_mem hc h)

theorem parse_eq_panic : parse cmd = .error .panic ↔ Crashing (firstCommand cmd) := by
  by_cases h : '|' ∈ cmd
  · obtain ⟨l, r, rfl, hl⟩ := exists_split h
    have hlen : (l ++ '|' :: r).length + 2 = l.length + r.length + 3 := by
      rw [List.length_append, List.length_cons]
      omega
    have hbind : ∀ {x : Except ParseFailure Command},
        (x.bind fun _ => (.error .parseErr : Except ParseFailure Command)) = .error .panic ↔
          x = .error .panic := by
      intro x
      cases x <;> simp [Except.bind]
    rw [parse, hlen, parseWith_pipe hl, parseWith_of_notMem fun hmem => hl (mem_of_mem_trim hmem),
      hbind, parseSimple_eq_panic, splitRedirections_eq_panic, firstCommand_append hl, Crashing,
      undoubled_trim rfl rfl, undoubled_trim rfl rfl]
  · rw [parse_of_notMem h, parseSimple_eq_panic, splitRedirections_eq_panic,
      firstCommand_of_notMem h, Crashing]

/-- If the command `e` is accepted, so it is with both redirections, in either order. -/
def BothRedirected (e i o : List Char) : Prop :=
  ∀ c, parse e = .ok c →
    parse (e ++ '<' :: (i ++ '>' :: o)) =
        .ok (mk c.execPath c.args (.File (trim i)) (.File (trim o))) ∧
      parse (e ++ '>' :: (o ++ '<' :: i)) =
        .ok (mk c.execPath c.args (.File (trim i)) (.File (trim o)))

/-- A command text alone is accepted exactly when it is not blank. -/
theorem exists_parse_iff (he : Unseparated e) :
    (∃ c, parse e = .ok c) ↔ ¬ ∀ c ∈ e, isWhitespace c := by
  obtain ⟨hpipe, hin, hout⟩ := he.notMem
  rw [parse_of_notMem hpipe, parseSimple_eq, splitRedirections_none hin hout,
    ← @pieces_strip_eq_nil_iff _ isWhitespace e ' ' _ rfl]
  exact exists_ofParts_iff

/-- A command with both redirections panics. -/
theorem parse_both_panic (he : Unseparated e) (hi : Unseparated i) (ho : Unseparated o) :
    parse (e ++ '<' :: (i ++ '>' :: o)) = .error .panic ∧
      parse (e ++ '>' :: (o ++ '<' :: i)) = .error .panic := by
  obtain ⟨hpipe, hin, hout⟩ := he.notMem
  obtain ⟨hpipe', hin', hout'⟩ := hi.notMem
  obtain ⟨hpipe'', hin'', hout''⟩ := ho.notMem
  have hstrip : ∀ {c : Char} {s : List Char}, c ∉ s → stripPrefix c s = .error .panic :=
    fun hc => stripPrefix_eq_panic.mpr fun h => hc (List.mem_of_mem_head? h)
  constructor
  · rw [parse_of_notMem (by simp [hpipe, hpipe', hpipe'']), parseSimple_eq_panic,
      splitRedirections_inputOutput hin hout hout', hstrip hout'']
    rfl
  · rw [parse_of_notMem (by simp [hpipe, hpipe', hpipe'']), parseSimple_eq_panic,
      splitRedirections_outputInput hin hout hin'', hstrip hin']
    rfl

/-- No command is accepted with both redirections; where the command alone is blank, it is
not accepted either. -/
theorem bothRedirected_iff (he : Unseparated e) (hi : Unseparated i) (ho : Unseparated o) :
    BothRedirected e i o ↔ ∀ c ∈ e, isWhitespace c := by
  have hno : BothRedirected e i o ↔ ¬ ∃ c, parse e = .ok c := by
    constructor
    · rintro hboth ⟨c, hc⟩
      have hpanic := (hboth c hc).1
      rw [(parse_both_panic he hi ho).1] at hpanic
      cases hpanic
    · exact fun hnone c hc => absurd ⟨c, hc⟩ hnone
  rw [hno, exists_parse_iff he, not_not]

theorem bothRedirected_iff_sample :
    BothRedirected "cat".toList "in".toList "out".toList ↔
      ∀ c ∈ "cat".toList, isWhitespace c :=
  bothRedirected_iff (by decide) (by decide) (by decide)

/-- `a<b>c` is not accepted, though `a` is. -/
theorem not_bothRedirected :
    Unseparated "a".toList ∧ Unseparated "b".toList ∧ Unseparated "c".toList ∧
      ¬ BothRedirected "a".toList "b".toList "c".toList := by
  refine ⟨by decide, by decide, by decide, fun hboth => ?_⟩
  have hpanic := (hboth _ rfl).1
  have hrun : parse ("a".toList ++ '<' :: ("b".toList ++ '>' :: "c".toList)) =
    .error .panic := rfl
  rw [hrun] at hpanic
  cases hpanic

end Command

end Shell

end ParchTestbench
