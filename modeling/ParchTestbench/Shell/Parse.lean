import ParchTestbench.UsrLib.FmtIo
import Mathlib.Data.List.TakeWhile

/-!
# The shell: parsing a command line

`Command::parse` with the string operations it uses.  Positions in a string are counted
in bytes, as in the source.  The right half of a pipeline keeps its separator and is
parsed again with it, which makes every pipeline an error.  The copies that the parser makes of
the line are taken to fit into the heap of the process.

Main results:

- Theorem `parse_ne_diverged`: the recursion of the parser ends.
- Theorem `parse_pipe`: a line with a pipe in it is never accepted.
- Theorem `pipelines_rejected`: so no pipeline is, whatever its commands.
-/

namespace ParchTestbench

namespace Shell

/-! ## Strings -/

/-- `char::is_whitespace`: the Unicode property `White_Space`. -/
def isWhitespace (c : Char) : Bool :=
  (0x9 ≤ c.toNat && c.toNat ≤ 0xD) || c.toNat = 0x20 || c.toNat = 0x85 || c.toNat = 0xA0 ||
    c.toNat = 0x1680 || (0x2000 ≤ c.toNat && c.toNat ≤ 0x200A) || c.toNat = 0x2028 ||
    c.toNat = 0x2029 || c.toNat = 0x202F || c.toNat = 0x205F || c.toNat = 0x3000

/-- `str::trim`. -/
def trim (s : List Char) : List Char :=
  ((s.dropWhile isWhitespace).reverse.dropWhile isWhitespace).reverse

/-- `str::find`: the byte position of the first occurrence of `c`. -/
def find (c : Char) : List Char → Option Nat
  | [] => none
  | d :: ds => if d = c then some 0 else (find c ds).map (d.utf8Size + ·)

/-- Why `parse` does not return a command. -/
inductive ParseFailure
  | parseErr
  | panic
  | diverged
deriving DecidableEq, Repr

/-- `str::split_at`; it panics off the boundaries of the characters. -/
def splitAt : List Char → Nat → Except ParseFailure (List Char × List Char)
  | s, 0 => .ok ([], s)
  | [], _ + 1 => .error .panic
  | c :: cs, mid + 1 =>
      if c.utf8Size ≤ mid + 1 then do
        let (l, r) ← splitAt cs (mid + 1 - c.utf8Size)
        pure (c :: l, r)
      else
        .error .panic

/-- `s.strip_prefix(c).unwrap()`. -/
def stripPrefix (c : Char) : List Char → Except ParseFailure (List Char)
  | [] => .error .panic
  | d :: ds => if d = c then .ok ds else .error .panic

/-! ## Commands -/

mutual

/-- Where a command reads from or writes to. -/
inductive IOType
  | Default
  | File (path : List Char)
  | Cmd (command : Command)

inductive Command
  | mk (execPath : List Char) (args : List (List Char)) (input output : IOType)

end

namespace IOType

/-- The comparison with `IOType::Default`; commands are compared by identity, and never
with it. -/
def isDefault : IOType → Bool
  | Default => true
  | _ => false

/-- `IOType::File` of a path, if there is one. -/
def ofPath : Option (List Char) → IOType
  | some path => File path
  | none => Default

end IOType

namespace Command

def execPath : Command → List Char
  | mk execPath _ _ _ => execPath

def args : Command → List (List Char)
  | mk _ args _ _ => args

def input : Command → IOType
  | mk _ _ input _ => input

def output : Command → IOType
  | mk _ _ _ output => output

/-- The same command with another output. -/
def withOutput : Command → IOType → Command
  | mk execPath args input _, output => mk execPath args input output

/-- The parts of a line around its redirections: command, input path, output path. -/
def splitRedirections (cmd : List Char) :
    Except ParseFailure (List Char × Option (List Char) × Option (List Char)) :=
  match find '<' cmd, find '>' cmd with
  | some inputPos, some outputPos =>
      if inputPos < outputPos then do
        let (e, io) ← splitAt cmd inputPos
        let io ← stripPrefix '<' io
        let (i, o) ← splitAt io (outputPos - inputPos)
        let o ← stripPrefix '>' o
        pure (trim e, some (trim i), some (trim o))
      else do
        let (e, oi) ← splitAt cmd outputPos
        let oi ← stripPrefix '>' oi
        let (o, i) ← splitAt oi (inputPos - outputPos)
        let i ← stripPrefix '<' i
        pure (trim e, some (trim i), some (trim o))
  | some inputPos, none => do
      let (e, i) ← splitAt cmd inputPos
      let i ← stripPrefix '<' i
      pure (trim e, some (trim i), none)
  | none, some outputPos => do
      let (e, o) ← splitAt cmd outputPos
      let o ← stripPrefix '>' o
      pure (trim e, none, some (trim o))
  | none, none => pure (trim cmd, none, none)

/-- The branch of `parse` for a line without `|`. -/
def parseSimple (cmd : List Char) : Except ParseFailure Command := do
  let (exec, input, output) ← splitRedirections cmd
  match (exec.splitOn ' ').filter (fun s => !s.isEmpty) with
  | [] => .error .parseErr
  | execPath :: args => pure (mk execPath args (IOType.ofPath input) (IOType.ofPath output))

/-- `parse`, with `fuel` calls nested. -/
def parseWith : Nat → List Char → Except ParseFailure Command
  | 0, _ => .error .diverged
  | fuel + 1, cmd =>
      match find '|' cmd with
      | some splitPos => do
          let (l, r) ← splitAt cmd splitPos
          let l ← parseWith fuel (trim l)
          let r ← parseWith fuel (trim r)
          if !l.output.isDefault || !r.input.isDefault then
            .error .parseErr
          else
            pure (l.withOutput (.Cmd r))
      | none => parseSimple cmd

/-- `Command::parse`. -/
def parse (cmd : List Char) : Except ParseFailure Command := parseWith (cmd.length + 2) cmd

end Command

/-! ## The first separator -/

variable {c : Char} {s l r cmd : List Char} {fuel n : Nat}

theorem find_of_notMem (h : c ∉ s) : find c s = none := by
  induction s with
  | nil => rfl
  | cons d ds ih =>
      rw [List.mem_cons, not_or] at h
      rw [find, if_neg (Ne.symm h.1), ih h.2]
      rfl

/-- The first occurrence is found behind the bytes in front of it. -/
theorem find_append (h : c ∉ l) : find c (l ++ c :: r) = some (Utf8.encode l).length := by
  induction l with
  | nil => exact if_pos rfl
  | cons d ds ih =>
      rw [List.mem_cons, not_or] at h
      rw [List.cons_append, find, if_neg (Ne.symm h.1), ih h.2, Utf8.encode_cons,
        List.length_append, String.length_utf8EncodeChar]
      rfl

/-- A string is split behind the bytes of its front. -/
theorem splitAt_append : splitAt (l ++ r) (Utf8.encode l).length = .ok (l, r) := by
  induction l with
  | nil => rw [List.nil_append, show (Utf8.encode []).length = 0 from rfl, splitAt]
  | cons d ds ih =>
      obtain ⟨k, hk⟩ := Nat.exists_eq_add_of_lt d.utf8Size_pos
      have hlen : (Utf8.encode (d :: ds)).length = d.utf8Size + (Utf8.encode ds).length := by
        rw [Utf8.encode_cons, List.length_append, String.length_utf8EncodeChar]
      have hsucc : d.utf8Size + (Utf8.encode ds).length = k + (Utf8.encode ds).length + 1 := by
        omega
      rw [List.cons_append, hlen, hsucc, splitAt, ← hsucc, if_pos (Nat.le_add_right _ _),
        Nat.add_sub_cancel_left, ih]
      rfl

/-- The first occurrence is found, and the string is split in front of it. -/
theorem splitAt_find (h : c ∉ l) :
    ∃ n, find c (l ++ c :: r) = some n ∧ splitAt (l ++ c :: r) n = .ok (l, c :: r) :=
  ⟨_, find_append h, splitAt_append⟩

/-- A member splits a string at its first occurrence. -/
theorem exists_split (h : c ∈ s) : ∃ l r, s = l ++ c :: r ∧ c ∉ l := by
  induction s with
  | nil => cases h
  | cons d ds ih =>
      by_cases hd : d = c
      · exact ⟨[], ds, by rw [hd]; rfl, List.not_mem_nil⟩
      · obtain ⟨l, r, hsplit, hnot⟩ := ih (List.mem_of_ne_of_mem (Ne.symm hd) h)
        refine ⟨d :: l, r, by rw [hsplit]; rfl, fun hmem => ?_⟩
        rcases List.mem_cons.mp hmem with heq | htail
        · exact hd heq.symm
        · exact hnot htail

/-- A string that starts with a separator starts with it after trimming. -/
theorem trim_cons (hc : isWhitespace c = false) : ∃ r', trim (c :: r) = c :: r' := by
  have hfront : (c :: r).dropWhile isWhitespace = c :: r := by
    rw [List.dropWhile_cons, hc]
    rfl
  have hsuffix := List.dropWhile_suffix isWhitespace (l := (c :: r).reverse)
  unfold trim
  rw [hfront]
  rw [List.reverse_cons] at hsuffix ⊢
  rcases List.eq_nil_or_concat ((r.reverse ++ [c]).dropWhile isWhitespace) with hnil | ⟨w, d, hw⟩
  · have hall := List.dropWhile_eq_nil_iff.mp hnil c (List.mem_append_right _ List.mem_cons_self)
    rw [hc] at hall
    cases hall
  · rw [List.concat_eq_append] at hw
    rw [hw] at hsuffix ⊢
    obtain ⟨front, hfront⟩ := hsuffix
    rw [← List.append_assoc] at hfront
    have hlast := List.append_inj_right' hfront rfl
    rw [List.cons.injEq] at hlast
    exact ⟨w.reverse, by rw [List.reverse_append, hlast.1]; rfl⟩

/-- Trimming takes a part of the string. -/
theorem mem_of_mem_trim (h : c ∈ trim s) : c ∈ s := by
  unfold trim at h
  have hfirst := (List.dropWhile_sublist isWhitespace).mem (List.mem_reverse.mp h)
  exact (List.dropWhile_sublist isWhitespace).mem (List.mem_reverse.mp hfirst)

/-! ## Lines with a pipe -/

namespace Command

theorem splitAt_ne_diverged : splitAt s n ≠ .error .diverged := by
  induction s generalizing n with
  | nil =>
      cases n <;> rw [splitAt] <;> exact fun h => by cases h
  | cons c cs ih =>
      cases n with
      | zero =>
          rw [splitAt]
          exact fun h => by cases h
      | succ n =>
          rw [splitAt]
          split
          · intro h
            rcases hrest : splitAt cs (n + 1 - c.utf8Size) with e | ⟨l, r⟩
            · rw [hrest] at h
              cases h
              exact ih hrest
            · rw [hrest] at h
              cases h
          · exact fun h => by cases h

/-- A line that starts with a pipe has no command in front of it. -/
theorem parseWith_pipe_cons : parseWith (fuel + 2) ('|' :: r) = .error .parseErr := by
  obtain ⟨n, hfind, hsplit⟩ := splitAt_find (r := r) (List.not_mem_nil (a := '|'))
  rw [List.nil_append] at hfind hsplit
  rw [parseWith, hfind]
  show (splitAt ('|' :: r) n >>= _) = _
  rw [hsplit]
  rfl

/-- What the parser makes of a line with a pipe: the failure of its first command, or an
error because the rest starts with the pipe. -/
theorem parseWith_pipe (hl : '|' ∉ l) :
    parseWith (fuel + 3) (l ++ '|' :: r) =
      (parseWith (fuel + 2) (trim l)).bind fun _ => .error .parseErr := by
  obtain ⟨n, hfind, hsplit⟩ := splitAt_find (r := r) hl
  obtain ⟨r', htrim⟩ := trim_cons (c := '|') (r := r) rfl
  rw [parseWith, hfind]
  show (splitAt (l ++ '|' :: r) n >>= _) = _
  rw [hsplit]
  show (parseWith (fuel + 2) (trim l) >>= _) = _
  congr 1
  funext cl
  show (parseWith (fuel + 2) (trim ('|' :: r)) >>= _) = _
  rw [htrim, parseWith_pipe_cons]
  rfl

/-- A line with a pipe in it is never accepted. -/
theorem parse_pipe (h : '|' ∈ cmd) (c : Command) : parse cmd ≠ .ok c := by
  obtain ⟨l, r, rfl, hl⟩ := exists_split h
  have hlen : (l ++ '|' :: r).length + 2 = l.length + r.length + 3 := by
    rw [List.length_append, List.length_cons]
    omega
  rw [parse, hlen, parseWith_pipe hl]
  cases parseWith (l.length + r.length + 2) (trim l) <;> exact fun h => by cases h

theorem stripPrefix_ne_diverged : stripPrefix c s ≠ .error .diverged := by
  cases s with
  | nil => exact fun h => by cases h
  | cons d ds =>
      rw [stripPrefix]
      split <;> exact fun h => by cases h

/-- A sequence diverges only where one of its parts does. -/
theorem bind_ne_diverged {α β : Type} {x : Except ParseFailure α} {f : α → Except ParseFailure β}
    (hx : x ≠ .error .diverged) (hf : ∀ a, f a ≠ .error .diverged) :
    (x >>= f) ≠ .error .diverged := by
  cases x with
  | error e =>
      intro h
      injection h with he
      exact hx (by rw [he])
  | ok a => exact hf a

theorem splitRedirections_ne_diverged : splitRedirections cmd ≠ .error .diverged := by
  have hok : ∀ {α : Type} (a : α), (pure a : Except ParseFailure α) ≠ .error .diverged :=
    fun a h => by cases h
  unfold splitRedirections
  split
  · split
    · exact bind_ne_diverged splitAt_ne_diverged fun _ => bind_ne_diverged stripPrefix_ne_diverged
        fun _ => bind_ne_diverged splitAt_ne_diverged fun _ =>
          bind_ne_diverged stripPrefix_ne_diverged fun _ => hok _
    · exact bind_ne_diverged splitAt_ne_diverged fun _ => bind_ne_diverged stripPrefix_ne_diverged
        fun _ => bind_ne_diverged splitAt_ne_diverged fun _ =>
          bind_ne_diverged stripPrefix_ne_diverged fun _ => hok _
  · exact bind_ne_diverged splitAt_ne_diverged fun _ =>
      bind_ne_diverged stripPrefix_ne_diverged fun _ => hok _
  · exact bind_ne_diverged splitAt_ne_diverged fun _ =>
      bind_ne_diverged stripPrefix_ne_diverged fun _ => hok _
  · exact hok _

theorem parseSimple_ne_diverged : parseSimple cmd ≠ .error .diverged := by
  unfold parseSimple
  refine bind_ne_diverged splitRedirections_ne_diverged fun parts => ?_
  dsimp only
  split <;> exact fun h => by cases h

theorem parseWith_of_notMem (h : '|' ∉ cmd) : parseWith (fuel + 1) cmd = parseSimple cmd := by
  rw [parseWith, find_of_notMem h]

/-- The recursion of the parser ends. -/
theorem parse_ne_diverged (cmd : List Char) : parse cmd ≠ .error .diverged := by
  by_cases h : '|' ∈ cmd
  · obtain ⟨l, r, rfl, hl⟩ := exists_split h
    have hlen : (l ++ '|' :: r).length + 2 = l.length + r.length + 3 := by
      rw [List.length_append, List.length_cons]
      omega
    rw [parse, hlen, parseWith_pipe hl, parseWith_of_notMem fun hmem => hl (mem_of_mem_trim hmem)]
    exact bind_ne_diverged parseSimple_ne_diverged fun _ h => by cases h
  · rw [parse, parseWith_of_notMem h]
    exact parseSimple_ne_diverged

/-! ## Pipelines -/

/-- Two halves of a pipeline that are accepted one by one. -/
structure Pipable (l r : List Char) : Prop where
  no_pipe : '|' ∉ l
  left : ∃ c, parse l = .ok c ∧ c.output = .Default
  right : ∃ c, parse r = .ok c ∧ c.input = .Default

/-- The line `l | r` is accepted as the command of `l` that writes to the one of `r`. -/
def PipeComposed (l r : List Char) : Prop :=
  ∃ cl cr, parse l = .ok cl ∧ parse r = .ok cr ∧
    parse (l ++ '|' :: r) = .ok (cl.withOutput (.Cmd cr))

/-- The commands of a pipeline with their separators. -/
def pipeline (stages : List (List Char)) : List Char := List.intercalate ['|'] stages

theorem mem_pipeline {stages : List (List Char)} (h : 2 ≤ stages.length) :
    '|' ∈ pipeline stages := by
  match stages with
  | [] => cases h
  | [_] => cases h with | step h => cases h
  | s :: s' :: rest =>
      have hsplit : pipeline (s :: s' :: rest) = s ++ '|' :: pipeline (s' :: rest) := by
        unfold pipeline
        rw [List.intercalate_cons_cons, List.append_assoc]
        rfl
      rw [hsplit]
      exact List.mem_append_right _ List.mem_cons_self

/-- No two halves are composed, and no pipeline of two or more commands is accepted. -/
theorem pipelines_rejected (l r : List Char) (stages : List (List Char)) :
    (Pipable l r → ¬ PipeComposed l r) ∧
      (2 ≤ stages.length → (∀ s ∈ stages, '|' ∉ s ∧ ∃ c, parse s = .ok c) →
        ∀ c, parse (pipeline stages) ≠ .ok c) := by
  refine ⟨?_, fun hlen _ c => parse_pipe (mem_pipeline hlen) c⟩
  rintro - ⟨cl, cr, -, -, hrun⟩
  exact parse_pipe (List.mem_append_right _ List.mem_cons_self) _ hrun

theorem pipable_sample : Pipable "cat x".toList "wc".toList :=
  ⟨by decide, ⟨_, rfl, rfl⟩, ⟨_, rfl, rfl⟩⟩

theorem pipelines_rejected_sample :
    ¬ PipeComposed "cat x".toList "wc".toList ∧
      ∀ c, parse (pipeline ["cat x".toList, "wc".toList]) ≠ .ok c := by
  have hall := pipelines_rejected "cat x".toList "wc".toList ["cat x".toList, "wc".toList]
  refine ⟨hall.1 pipable_sample, hall.2 (Nat.le_refl 2) fun s hs => ?_⟩
  rcases List.mem_pair.mp hs with rfl | rfl
  · exact ⟨by decide, _, rfl⟩
  · exact ⟨by decide, _, rfl⟩

/-- `ls|wc` is a parse error, though both commands are accepted. -/
theorem not_pipeComposed :
    Pipable "ls".toList "wc".toList ∧ ¬ PipeComposed "ls".toList "wc".toList ∧
      parse "ls|wc".toList = .error .parseErr := by
  refine ⟨⟨by decide, ⟨_, rfl, rfl⟩, ⟨_, rfl, rfl⟩⟩, ?_, rfl⟩
  rintro ⟨cl, cr, -, -, hrun⟩
  have herror : parse ("ls".toList ++ '|' :: "wc".toList) = .error .parseErr := rfl
  rw [herror] at hrun
  cases hrun

end Command

end Shell

end ParchTestbench
