import ParchTestbench.UsrLib.Numerals

/-!
# The C user library: formats

`vfprintf` is a machine with two states that reads a format and takes arguments.  Its output is
told from the pieces of the format: literal characters and directives.

Main results:

- Theorem `directive_emits`: a directive writes its rendering and takes one argument or none.
- Theorem `vfprintf_emits`: a format writes its pieces in order.
- Theorem `vfprintf_append`: two formats behind each other write one after the other.
- Theorem `vfprintf_formats`: all of it, for every format and its arguments.
-/

namespace ParchTestbench

namespace BasicIo

open Program

/-! ## Programs that write -/

/-- A program returns `a` and has written `out` to a descriptor, in any number of calls, and
done nothing else. -/
def Emits {α : Type} (fd : Nat) (p : CProgram α) (a : α) (out : List UInt8) : Prop :=
  ∀ s, ∃ ws, p s = .ok (a, { s with writes := s.writes ++ ws }) ∧ (∀ w ∈ ws, w.1 = fd) ∧
    ws.flatMap Prod.snd = out

namespace Emits

variable {α β : Type} {fd : Nat} {p : CProgram α} {f : α → CProgram β} {a : α} {b : β}
  {out out' : List UInt8}

theorem pure (a : α) : Emits fd (Pure.pure a) a [] := by
  intro s
  refine ⟨[], ?_, fun w hw => absurd hw List.not_mem_nil, rfl⟩
  rw [List.append_nil]
  rfl

theorem tbWrite (bytes : List UInt8) : Emits fd (tbWrite fd bytes) () bytes := by
  intro s
  refine ⟨[(fd, bytes)], rfl, fun w hw => ?_, List.append_nil bytes⟩
  rw [List.mem_singleton.mp hw]

theorem bind (h : Emits fd p a out) (h' : Emits fd (f a) b out') :
    Emits fd (p >>= f) b (out ++ out') := by
  intro s
  obtain ⟨ws, hrun, hfd, hout⟩ := h s
  obtain ⟨ws', hrun', hfd', hout'⟩ := h' { s with writes := s.writes ++ ws }
  refine ⟨ws ++ ws', ?_, fun w hw => ?_, ?_⟩
  · rw [bind_eq_ok hrun, hrun', List.append_assoc]
  · exact (List.mem_append.mp hw).elim (hfd w) (hfd' w)
  · rw [List.flatMap_append, hout, hout']

/-- What follows without writing leaves the output alone. -/
theorem bind_pure (h : Emits fd p a out) (h' : f a = Pure.pure b) : Emits fd (p >>= f) b out := by
  have hboth := h.bind (f := f) (b := b) (by rw [h']; exact Emits.pure b)
  rwa [List.append_nil] at hboth

end Emits

/-- `put_int` of a signed number. -/
def signedNumeral (i : Int) : List UInt8 :=
  if i < 0 then minus :: numeral 10 i.natAbs else numeral 10 i.natAbs

theorem putInt_emits_signed (fd : Nat) (num : Int64) :
    Emits fd (putInt fd num 10 true) () (signedNumeral num.toInt) := by
  intro s
  by_cases hneg : num < 0
  · refine ⟨_, putInt_negative fd hneg s, fun w hw => by rw [List.mem_singleton.mp hw], ?_⟩
    rw [signedNumeral, if_pos (neg_iff_toInt.mp hneg)]
    exact List.append_nil _
  · refine ⟨_, putInt_unsigned (by decide) (by decide) fd num true
      (by rw [decide_eq_false hneg]; rfl) s, fun w hw => by rw [List.mem_singleton.mp hw], ?_⟩
    rw [signedNumeral, if_neg (neg_iff_toInt.not.mp hneg), toNat_of_nonneg hneg]
    exact List.append_nil _

theorem putInt_emits {base : UInt64} (hb : 10 ≤ base.toNat) (hbase : base.toNat ≤ 16) (fd : Nat)
    (num : Int64) : Emits fd (putInt fd num base false) ()
      (numeral base.toNat num.toUInt64.toNat) := by
  intro s
  refine ⟨_, putInt_unsigned hb hbase fd num false rfl s, fun w hw => ?_, List.append_nil _⟩
  rw [List.mem_singleton.mp hw]

/-! ## Formats and their arguments -/

/-- The character that starts a directive. -/
def percent : UInt8 := UInt8.ofNat '%'.toNat

/-- A piece of a format: a literal character, or a directive by its character. -/
inductive Piece
  | lit (c : UInt8)
  | conv (c : UInt8)
deriving DecidableEq

/-- The pieces of a format; a `%` at its very end is none. -/
def pieces : List UInt8 → List Piece
  | [] => []
  | [c] => if c = percent then [] else [.lit c]
  | c :: d :: format =>
      if c = percent then .conv d :: pieces format else .lit c :: pieces (d :: format)

/-- A format ends inside a directive: with a `%` that starts one. -/
def endsInside : List UInt8 → Bool
  | [] => false
  | [c] => c = percent
  | c :: d :: format => if c = percent then endsInside format else endsInside (d :: format)

/-- A kind of argument. -/
inductive Kind
  | num
  | str
deriving DecidableEq

def Arg.kind : Arg → Kind
  | .num _ => .num
  | .str _ => .str

/-- The kind of argument that a directive asks for. -/
def asks (c : UInt8) : Option Kind :=
  if c ∈ ascii "dulxpc".toList then some .num
  else if c = UInt8.ofNat 's'.toNat then some .str
  else none

/-- The number of arguments that a directive takes. -/
def takes (c : UInt8) : Nat := if (asks c).isSome then 1 else 0

/-- The number of arguments that the pieces of a format take. -/
def taken : List Piece → Nat
  | [] => 0
  | .lit _ :: ps => taken ps
  | .conv c :: ps => takes c + taken ps

/-- There are enough arguments of the kinds that the directives ask for. -/
def Suits : List Piece → List Arg → Prop
  | [], _ => True
  | .lit _ :: ps, args => Suits ps args
  | .conv c :: ps, args =>
      (∀ k, asks c = some k → args.head?.map Arg.kind = some k) ∧ Suits ps (args.drop (takes c))

/-- The rendering of a number by a directive. -/
def numRendering (c : UInt8) (bits : UInt64) : List UInt8 :=
  if c = UInt8.ofNat 'd'.toNat then signedNumeral bits.toInt64.toInt
  else if c = UInt8.ofNat 'u'.toNat then numeral 10 bits.toNat
  else if c = UInt8.ofNat 'l'.toNat then numeral 10 bits.toUInt32.toNat
  else if c = UInt8.ofNat 'x'.toNat then numeral 16 bits.toNat
  else if c = UInt8.ofNat 'p'.toNat then ascii "0x".toList ++ numeral 16 bits.toNat
  else [bits.toUInt8]

/-- The rendering of a directive that takes no argument: `%` once for `%%`, and both characters
of an unknown one. -/
def plainRendering (c : UInt8) : List UInt8 := if c = percent then [percent] else [percent, c]

/-- The rendering of a directive, with the next argument. -/
def rendering (c : UInt8) : Option Arg → List UInt8
  | some (.num bits) => if asks c = some .num then numRendering c bits else plainRendering c
  | some (.str s) =>
      if asks c = some .str then s.getD (ascii "(null)".toList) else plainRendering c
  | none => plainRendering c

/-- The pieces in order: literal characters, and the rendering of each directive. -/
def output : List Piece → List Arg → List UInt8
  | [], _ => []
  | .lit c :: ps, args => c :: output ps args
  | .conv c :: ps, args => rendering c args.head? ++ output ps (args.drop (takes c))

variable {fd : Nat} {c : UInt8} {args xs ys : List Arg} {f g format : List UInt8}
  {ps qs : List Piece}

/-! ## One directive -/

theorem numArg_emits (bits : UInt64) (args : List Arg) :
    Emits fd (numArg (.num bits :: args)) (bits, args) [] :=
  Emits.pure _

theorem strArg_emits (s : Option (List UInt8)) (args : List Arg) :
    Emits fd (strArg (.str s :: args)) (s, args) [] :=
  Emits.pure _

/-- The directives that take a number. -/
theorem directive_emits_num (hc : asks c = some .num) (bits : UInt64) (rest : List Arg) :
    Emits fd (directive fd c (.num bits :: rest)) rest (numRendering c bits) := by
  have hmem : c ∈ ascii "dulxpc".toList := by
    by_contra hnot
    rw [asks, if_neg hnot] at hc
    split at hc <;> cases hc
  have hcases : c = UInt8.ofNat 'd'.toNat ∨ c = UInt8.ofNat 'u'.toNat ∨
      c = UInt8.ofNat 'l'.toNat ∨ c = UInt8.ofNat 'x'.toNat ∨ c = UInt8.ofNat 'p'.toNat ∨
      c = UInt8.ofNat 'c'.toNat := by
    simpa [ascii] using hmem
  have hten := putInt_emits (show 10 ≤ (10 : UInt64).toNat by decide) (by decide) fd
  have hsixteen := putInt_emits (show 10 ≤ (16 : UInt64).toNat by decide) (by decide) fd
  have hchar : Emits fd (putc fd bits.toUInt32.toUInt8) () [bits.toUInt8] := by
    rw [UInt64.toUInt8_toUInt32]
    exact Emits.tbWrite _
  rcases hcases with rfl | rfl | rfl | rfl | rfl | rfl
  · exact (numArg_emits bits rest).bind ((putInt_emits_signed fd _).bind_pure rfl)
  · exact (numArg_emits bits rest).bind ((hten bits.toInt64).bind_pure rfl)
  · exact (numArg_emits bits rest).bind ((hten bits.toUInt32.toUInt64.toInt64).bind_pure rfl)
  · exact (numArg_emits bits rest).bind ((hsixteen bits.toInt64).bind_pure rfl)
  · exact (Emits.tbWrite _).bind
      ((numArg_emits bits rest).bind ((hsixteen bits.toInt64).bind_pure rfl))
  · exact (numArg_emits bits rest).bind (hchar.bind_pure rfl)

/-- The directive that takes a string. -/
theorem directive_emits_str (hc : asks c = some .str) (s : Option (List UInt8))
    (rest : List Arg) :
    Emits fd (directive fd c (.str s :: rest)) rest (s.getD (ascii "(null)".toList)) := by
  have heq : c = UInt8.ofNat 's'.toNat := by
    unfold asks at hc
    split at hc
    · cases hc
    · split at hc
      · assumption
      · cases hc
  subst heq
  exact (strArg_emits s rest).bind ((Emits.tbWrite _).bind_pure rfl)

/-- The directives that take no argument. -/
theorem directive_emits_plain (hc : asks c = none) (args : List Arg) :
    Emits fd (directive fd c args) args (plainRendering c) := by
  have hnot : c ∉ ascii "dulxpcs".toList := by
    intro hmem
    have hall : ((ascii "dulxpcs".toList).all fun c => (asks c).isSome) = true := by decide
    have hsome := List.all_eq_true.mp hall c hmem
    rw [hc] at hsome
    cases hsome
  simp only [ascii, List.mem_map, not_exists, not_and] at hnot
  have hne : ∀ d ∈ "dulxpcs".toList, c ≠ UInt8.ofNat d.toNat := fun d hd heq =>
    hnot d hd heq.symm
  unfold directive plainRendering percent
  rw [if_neg (hne 'd' (by decide)), if_neg (hne 'u' (by decide)), if_neg (hne 'l' (by decide)),
    if_neg (hne 'x' (by decide)), if_neg (hne 'p' (by decide)), if_neg (hne 's' (by decide)),
    if_neg (hne 'c' (by decide))]
  by_cases hpercent : c = UInt8.ofNat '%'.toNat
  · rw [if_pos hpercent, if_pos hpercent, hpercent]
    exact (Emits.tbWrite _).bind_pure rfl
  · rw [if_neg hpercent, if_neg hpercent]
    exact (Emits.tbWrite [UInt8.ofNat '%'.toNat]).bind ((Emits.tbWrite [c]).bind_pure rfl)

/-- A directive writes its rendering, and takes one argument or none. -/
theorem directive_emits (h : ∀ k, asks c = some k → args.head?.map Arg.kind = some k) :
    Emits fd (directive fd c args) (args.drop (takes c)) (rendering c args.head?) := by
  rcases hasks : asks c with - | k
  · have hrendering : rendering c args.head? = plainRendering c := by
      rcases args.head? with - | ⟨bits⟩ | ⟨s⟩
      · rfl
      · rw [rendering, hasks, if_neg nofun]
      · rw [rendering, hasks, if_neg nofun]
    rw [takes, hasks, hrendering]
    exact directive_emits_plain hasks args
  · have hkind := h k hasks
    cases args with
    | nil => cases hkind
    | cons arg rest =>
        rw [List.head?_cons, Option.map_some, Option.some_inj] at hkind
        rw [takes, hasks]
        cases arg with
        | num bits =>
            rw [← show Kind.num = k from hkind] at hasks
            rw [List.head?_cons, rendering, if_pos hasks]
            exact directive_emits_num hasks bits rest
        | str s =>
            rw [← show Kind.str = k from hkind] at hasks
            rw [List.head?_cons, rendering, if_pos hasks]
            exact directive_emits_str hasks s rest

/-! ## Whole formats -/

/-- A format writes its pieces in order. -/
theorem vfprintf_emits (h : Suits (pieces format) args) :
    Emits fd (vfprintf fd format false args) () (output (pieces format) args) := by
  induction format using pieces.induct generalizing args with
  | case1 => exact Emits.pure ()
  | case2 =>
      -- a `%` at the very end
      exact Emits.pure ()
  | case3 c hc =>
      rw [pieces, if_neg hc]
      rw [vfprintf, if_neg (show ¬ c = UInt8.ofNat '%'.toNat from hc)]
      exact (Emits.tbWrite [c]).bind_pure rfl
  | case4 d format ih =>
      rw [pieces, if_pos rfl] at h ⊢
      rw [vfprintf, if_pos (show percent = UInt8.ofNat '%'.toNat from rfl)]
      exact (directive_emits h.1).bind (ih h.2)
  | case5 c d format hc ih =>
      rw [pieces, if_neg hc] at h ⊢
      rw [vfprintf, if_neg (show ¬ c = UInt8.ofNat '%'.toNat from hc)]
      exact (Emits.tbWrite [c]).bind (ih h)

/-- A format that does not end inside a directive has its pieces in front of another one. -/
theorem pieces_append (h : endsInside f = false) : pieces (f ++ g) = pieces f ++ pieces g := by
  induction f using pieces.induct with
  | case1 => rfl
  | case2 => cases h
  | case3 c hc =>
      have hone : pieces [c] = [.lit c] := by rw [pieces, if_neg hc]
      cases g with
      | nil => rw [List.append_nil, hone]; rfl
      | cons d g => rw [hone, List.singleton_append, pieces, if_neg hc]; rfl
  | case4 d format ih =>
      rw [endsInside, if_pos rfl] at h
      rw [List.cons_append, List.cons_append, pieces, if_pos rfl, pieces, if_pos rfl, ih h]
      rfl
  | case5 c d format hc ih =>
      rw [endsInside, if_neg hc] at h
      have hrest := ih h
      rw [List.cons_append] at hrest
      rw [List.cons_append, List.cons_append, pieces, if_neg hc, pieces, if_neg hc, hrest]
      rfl

/-- Pieces behind each other are rendered one after the other, each with its own arguments. -/
theorem output_append (htaken : taken ps = xs.length) :
    output (ps ++ qs) (xs ++ ys) = output ps xs ++ output qs ys := by
  induction ps generalizing xs with
  | nil => rw [List.length_eq_zero_iff.mp htaken.symm]; rfl
  | cons p ps ih =>
      cases p with
      | lit c => rw [List.cons_append, output, output, ih htaken, List.cons_append]
      | conv c =>
          rw [taken] at htaken
          have hhead : rendering c (xs ++ ys).head? = rendering c xs.head? := by
            cases xs with
            | nil =>
                rw [List.length_nil] at htaken
                have hzero : asks c = none := by
                  by_contra hne
                  rw [takes, if_pos (Option.isSome_iff_ne_none.mpr hne)] at htaken
                  omega
                rw [List.nil_append, List.head?_nil]
                rcases ys.head? with - | ⟨bits⟩ | ⟨s⟩
                · rfl
                · rw [rendering, hzero, if_neg nofun]; rfl
                · rw [rendering, hzero, if_neg nofun]; rfl
            | cons x xs => rfl
          rw [List.cons_append, output, output, hhead,
            List.drop_append_of_le_length (show takes c ≤ xs.length by omega),
            ih (by rw [List.length_drop]; omega), List.append_assoc]

theorem suits_append (htaken : taken ps = xs.length) (hps : Suits ps xs) (hqs : Suits qs ys) :
    Suits (ps ++ qs) (xs ++ ys) := by
  induction ps generalizing xs with
  | nil =>
      rw [List.length_eq_zero_iff.mp htaken.symm]
      exact hqs
  | cons p ps ih =>
      cases p with
      | lit c => exact ih htaken hps
      | conv c =>
          rw [taken] at htaken
          refine ⟨fun k hk => ?_, ?_⟩
          · have hkind := hps.1 k hk
            cases xs with
            | nil => cases hkind
            | cons x xs => exact hkind
          · rw [List.drop_append_of_le_length (show takes c ≤ xs.length by omega)]
            exact ih (by rw [List.length_drop]; omega) hps.2

/-- A format that does not end inside a directive and another one behind it write, with the
arguments of both, what the two write one after the other. -/
theorem vfprintf_append (hend : endsInside f = false) (hf : Suits (pieces f) xs)
    (htaken : taken (pieces f) = xs.length) (hg : Suits (pieces g) ys) :
    Emits fd (vfprintf fd (f ++ g) false (xs ++ ys)) ()
      (output (pieces f) xs ++ output (pieces g) ys) := by
  have hpieces := pieces_append (g := g) hend
  rw [← output_append htaken, ← hpieces]
  refine vfprintf_emits ?_
  rw [hpieces]
  exact suits_append htaken hf hg

/-- With enough arguments of the kinds that its directives ask for, a format writes its pieces
in order; each directive takes exactly one argument or none; and formats behind each other write
one after the other. -/
theorem vfprintf_formats (fd : Nat) :
    (∀ format args, Suits (pieces format) args →
      Emits fd (vfprintf fd format false args) () (output (pieces format) args)) ∧
    (∀ c args, (∀ k, asks c = some k → args.head?.map Arg.kind = some k) →
      Emits fd (directive fd c args) (args.drop (takes c)) (rendering c args.head?)) ∧
    (∀ f g xs ys, endsInside f = false → Suits (pieces f) xs →
      taken (pieces f) = xs.length → Suits (pieces g) ys →
        Emits fd (vfprintf fd f false xs) () (output (pieces f) xs) ∧
        Emits fd (vfprintf fd g false ys) () (output (pieces g) ys) ∧
        Emits fd (vfprintf fd (f ++ g) false (xs ++ ys)) ()
          (output (pieces f) xs ++ output (pieces g) ys)) :=
  ⟨fun _ _ h => vfprintf_emits h, fun _ _ h => directive_emits h,
    fun _ _ _ _ hend hf htaken hg =>
      ⟨vfprintf_emits hf, vfprintf_emits hg, vfprintf_append hend hf htaken hg⟩⟩

/-- `n=%d` with 5, and behind it `%s` with NULL. -/
theorem vfprintf_formats_sample :
    Emits 1 (vfprintf 1 (ascii "n=%d".toList ++ ascii "%s".toList) false
      ([.num 5] ++ [.str none])) ()
      (output (pieces (ascii "n=%d".toList)) [.num 5] ++
        output (pieces (ascii "%s".toList)) [.str none]) := by
  have hnum : Suits (pieces (ascii "n=%d".toList)) [.num 5] := by
    refine ⟨fun k hk => ?_, trivial⟩
    rw [← hk]
    rfl
  have hstr : Suits (pieces (ascii "%s".toList)) [.str none] := by
    refine ⟨fun k hk => ?_, trivial⟩
    rw [← hk]
    rfl
  exact ((vfprintf_formats 1).2.2 _ _ _ _ (by decide) hnum (by decide) hstr).2.2

end BasicIo

end ParchTestbench
