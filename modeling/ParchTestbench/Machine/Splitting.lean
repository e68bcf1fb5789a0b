import Mathlib.Data.List.DropRight
import Mathlib.Data.List.TakeWhile

/-!
# Stripping and splitting lists

A list without the elements at its two ends that a predicate holds of, and the non-empty
pieces of a list between the occurrences of a separator.

Main results:

- Theorem `strip_padded`: elements of the predicate around a list are stripped with it.
- Theorem `pieces_joined`: words joined by separators are the pieces again.
- Theorem `pieces_strip_eq_nil_iff`: a stripped list without pieces had nothing else.
-/

namespace ParchTestbench

namespace Splitting

variable {α : Type*} {p : α → Bool} {s l r w pre post : List α} {a sep : α}
  {rest : List (Nat × List α)} {n : Nat}

/-! ## The first element outside a predicate -/

/-- A predicate holds throughout a list, or up to a first element that it does not hold of. -/
theorem takeWhile_cases (p : α → Bool) (s : List α) :
    (s.dropWhile p = [] ∧ s.takeWhile p = s) ∨
      ∃ a rest, s.dropWhile p = a :: rest ∧ p a = false ∧ s.takeWhile p ++ a :: rest = s := by
  have hsplit := List.takeWhile_append_dropWhile (p := p) (l := s)
  rcases hdrop : s.dropWhile p with - | ⟨a, rest⟩
  · rw [hdrop, List.append_nil] at hsplit
    exact Or.inl ⟨rfl, hsplit⟩
  · have ha := List.head?_dropWhile_not p s
    rw [hdrop, List.head?_cons] at ha
    rw [hdrop] at hsplit
    exact Or.inr ⟨a, rest, rfl, ha, hsplit⟩

/-! ## Stripping -/

/-- The list without the elements at its ends that `p` holds of. -/
def strip (p : α → Bool) (s : List α) : List α := (s.dropWhile p).rdropWhile p

theorem rdropWhile_append_of_all (h : ∀ a ∈ r, p a) :
    (l ++ r).rdropWhile p = l.rdropWhile p := by
  have hrev : ∀ a ∈ r.reverse, p a := fun a ha => h a (List.mem_reverse.mp ha)
  unfold List.rdropWhile
  rw [List.reverse_append, List.dropWhile_append_of_pos hrev]

/-- Behind an element outside the predicate only the rest is stripped. -/
theorem rdropWhile_append_of_solid (ha : p a = false) (l s : List α) :
    (l ++ [a] ++ s).rdropWhile p = l ++ [a] ++ s.rdropWhile p := by
  by_cases hs : s.rdropWhile p = []
  · rw [rdropWhile_append_of_all (List.rdropWhile_eq_nil_iff.mp hs), hs, List.append_nil,
      List.rdropWhile_concat_neg _ _ _ (by simp [ha])]
  · have hempty : (s.reverse.dropWhile p).isEmpty = false := by
      rw [List.isEmpty_eq_false_iff]
      intro hnil
      apply hs
      rw [List.rdropWhile, hnil, List.reverse_nil]
    rw [List.rdropWhile, List.reverse_append, List.dropWhile_append, hempty, if_neg (by simp),
      List.reverse_append, List.reverse_reverse]
    rfl

/-- Nothing is dropped in front of an element outside the predicate. -/
theorem dropWhile_of_head (h : ∀ a ∈ s.head?, p a = false) : s.dropWhile p = s := by
  cases s with
  | nil => rfl
  | cons a s => rw [List.dropWhile_cons, h a rfl, if_neg Bool.false_ne_true]

/-- What stands around a list and is of the predicate is stripped with its ends. -/
theorem strip_padded (hpre : ∀ a ∈ pre, p a) (hpost : ∀ a ∈ post, p a) :
    strip p (pre ++ s ++ post) = strip p s := by
  unfold strip
  rw [List.append_assoc, List.dropWhile_append_of_pos hpre]
  by_cases hs : ∀ a ∈ s, p a
  · have hnil : s.dropWhile p = [] := List.dropWhile_eq_nil_iff.mpr hs
    have hpostnil : post.dropWhile p = [] := List.dropWhile_eq_nil_iff.mpr hpost
    rw [List.dropWhile_append_of_pos hs, hnil, hpostnil]
  · have hne : (s.dropWhile p).isEmpty = false := by
      rw [List.isEmpty_eq_false_iff]
      exact fun hnil => hs (List.dropWhile_eq_nil_iff.mp hnil)
    rw [List.dropWhile_append, hne]
    exact rdropWhile_append_of_all hpost

/-- A list that starts and ends outside the predicate is left alone. -/
theorem strip_eq_self (hhead : ∀ a ∈ s.head?, p a = false)
    (hlast : ∀ a ∈ s.getLast?, p a = false) : strip p s = s := by
  unfold strip
  rw [dropWhile_of_head hhead, List.rdropWhile_eq_self_iff]
  intro hne
  rw [hlast _ (List.getLast?_eq_some_getLast hne)]
  exact Bool.false_ne_true

/-- In front of a list only elements of the predicate are stripped. -/
theorem strip_append_of_solid (hw : w ≠ []) (hsolid : ∀ a ∈ w, p a = false) :
    strip p (w ++ s) = w ++ s.rdropWhile p := by
  have hhead : ∀ a ∈ (w ++ s).head?, p a = false := fun a ha => by
    rw [List.head?_append_of_ne_nil _ hw] at ha
    exact hsolid a (List.mem_of_mem_head? ha)
  obtain ⟨front, a, rfl⟩ := (List.eq_nil_or_concat w).resolve_left hw
  rw [List.concat_eq_append] at hsolid hhead ⊢
  unfold strip
  rw [dropWhile_of_head hhead]
  exact rdropWhile_append_of_solid (hsolid a (by simp)) front s

/-- A list is its stripped part between elements of the predicate. -/
theorem exists_strip (p : α → Bool) (s : List α) :
    ∃ pre post, s = pre ++ strip p s ++ post ∧ (∀ a ∈ pre, p a) ∧ ∀ a ∈ post, p a := by
  refine ⟨s.takeWhile p, (s.dropWhile p).rtakeWhile p, ?_, fun a ha => List.mem_takeWhile_imp ha,
    fun a ha => List.mem_rtakeWhile_imp ha⟩
  unfold strip
  rw [List.append_assoc, List.rdropWhile_append_rtakeWhile, List.takeWhile_append_dropWhile]

/-! ## Words with separators between them -/

/-- Words joined by separators, one more than the number in front of each. -/
def joined (sep : α) (w : List α) : List (Nat × List α) → List α
  | [] => w
  | (n, w') :: rest => w ++ List.replicate (n + 1) sep ++ joined sep w' rest

theorem mem_joined (h : a ∈ joined sep w rest) :
    a = sep ∨ ∃ w' ∈ w :: rest.map Prod.snd, a ∈ w' := by
  induction rest generalizing w with
  | nil => exact Or.inr ⟨w, List.mem_cons_self, h⟩
  | cons x rest ih =>
      obtain ⟨n, w'⟩ := x
      rw [joined, List.mem_append, List.mem_append] at h
      rcases h with (hfirst | hsep) | hnext
      · exact Or.inr ⟨w, List.mem_cons_self, hfirst⟩
      · exact Or.inl (List.eq_of_mem_replicate hsep)
      · rcases ih hnext with heq | ⟨last, hmem, hlast⟩
        · exact Or.inl heq
        · exact Or.inr ⟨last, List.mem_cons_of_mem _ hmem, hlast⟩

theorem head?_joined (hw : w ≠ []) : (joined sep w rest).head? = w.head? := by
  cases rest with
  | nil => rfl
  | cons x rest =>
      rw [joined, List.append_assoc, List.head?_append_of_ne_nil _ hw]

/-- The last word ends the joined list. -/
theorem getLast?_joined (hw : w ≠ []) (hrest : ∀ x ∈ rest, x.2 ≠ []) :
    ∃ w' ∈ w :: rest.map Prod.snd, (joined sep w rest).getLast? = w'.getLast? := by
  induction rest generalizing w with
  | nil => exact ⟨w, List.mem_cons_self, rfl⟩
  | cons x rest ih =>
      obtain ⟨n, w'⟩ := x
      have hw' : w' ≠ [] := hrest _ List.mem_cons_self
      obtain ⟨last, hmem, hlast⟩ := ih hw' fun x hx => hrest x (List.mem_cons_of_mem _ hx)
      have hne : joined sep w' rest ≠ [] := fun hnil => by
        have hhead : (joined sep w' rest).head? = w'.head? := head?_joined hw'
        rw [hnil, List.head?_nil, eq_comm, List.head?_eq_none_iff] at hhead
        exact hw' hhead
      refine ⟨last, List.mem_cons_of_mem _ hmem, ?_⟩
      rw [joined, List.getLast?_append_of_ne_nil _ hne, hlast]

/-- Words outside the predicate are not stripped. -/
theorem strip_joined (hw : w ≠ []) (hrest : ∀ x ∈ rest, x.2 ≠ [])
    (hp : ∀ w' ∈ w :: rest.map Prod.snd, ∀ a ∈ w', p a = false) :
    strip p (joined sep w rest) = joined sep w rest := by
  refine strip_eq_self (fun a ha => ?_) fun a ha => ?_
  · rw [head?_joined hw] at ha
    exact hp w List.mem_cons_self a (List.mem_of_mem_head? ha)
  · obtain ⟨last, hmem, hlast⟩ := @getLast?_joined _ w sep rest hw hrest
    rw [hlast] at ha
    exact hp last hmem a (List.mem_of_mem_getLast? ha)

/-! ## Pieces -/

variable [DecidableEq α]

/-- The non-empty pieces of a list between the separators. -/
def pieces (sep : α) (s : List α) : List (List α) :=
  (s.splitOn sep).filter fun piece => !piece.isEmpty

@[simp]
theorem pieces_nil : pieces sep [] = [] := rfl

theorem pieces_append_sep (l r : List α) :
    pieces sep (l ++ sep :: r) = pieces sep l ++ pieces sep r := by
  unfold pieces
  rw [List.splitOn_append_cons_self, List.filter_append]

@[simp]
theorem pieces_cons_sep : pieces sep (sep :: s) = pieces sep s :=
  pieces_append_sep [] s

/-- A non-empty list without separators is one piece. -/
theorem pieces_of_notMem (hsep : sep ∉ w) (hw : w ≠ []) : pieces sep w = [w] := by
  have hempty : w.isEmpty = false := List.isEmpty_eq_false_iff.mpr hw
  unfold pieces
  rw [List.splitOn_eq_singleton hsep, List.filter_singleton, hempty]
  rfl

/-- The first piece of a list that starts with it. -/
theorem pieces_append_cons (hsep : sep ∉ w) (hw : w ≠ []) :
    pieces sep (w ++ sep :: s) = w :: pieces sep s := by
  rw [pieces_append_sep, pieces_of_notMem hsep hw, List.singleton_append]

@[simp]
theorem pieces_replicate_append : pieces sep (List.replicate n sep ++ s) = pieces sep s := by
  induction n with
  | zero => rfl
  | succ n ih => rw [List.replicate_succ, List.cons_append, pieces_cons_sep, ih]

/-- A list that starts outside the separators has its first piece there. -/
theorem pieces_cons_of_ne (ha : a ≠ sep) (s : List α) :
    pieces sep (a :: s) = (a :: s).takeWhile (fun b => b ≠ sep) ::
      pieces sep ((a :: s).dropWhile (fun b => b ≠ sep)) := by
  have hne : (a :: s).takeWhile (fun b => b ≠ sep) ≠ [] := by simp [ha]
  have hsep : sep ∉ (a :: s).takeWhile (fun b => b ≠ sep) := fun hmem => by
    simpa using List.mem_takeWhile_imp hmem
  rcases takeWhile_cases (fun b => decide (b ≠ sep)) (a :: s) with
    ⟨hdrop, hall⟩ | ⟨b, t, hdrop, hb, hall⟩
  · rw [hall] at hne hsep
    rw [hdrop, hall, pieces_of_notMem hsep hne, pieces_nil]
  · have heq : b = sep := by simpa using hb
    rw [heq] at hall
    rw [hdrop, heq, pieces_cons_sep, ← pieces_append_cons hsep hne, hall]

/-- A first piece that ends where it should. -/
theorem pieces_append_of_ended (hsep : sep ∉ w) (hw : w ≠ [])
    (hend : s = [] ∨ s.head? = some sep) : pieces sep (w ++ s) = w :: pieces sep s := by
  rcases s with - | ⟨b, t⟩
  · rw [List.append_nil, pieces_of_notMem hsep hw, pieces_nil]
  · have hb : b = sep := by simpa using hend
    rw [hb, pieces_append_cons hsep hw, pieces_cons_sep]

/-- A first piece that goes on is another one. -/
theorem head?_pieces_append (hsep : sep ∉ w) (hw : w ≠ []) :
    (pieces sep (w ++ s)).head? = some w ↔ s = [] ∨ s.head? = some sep := by
  refine ⟨fun h => ?_, fun hend => by rw [pieces_append_of_ended hsep hw hend, List.head?_cons]⟩
  rcases w with - | ⟨a, w⟩
  · exact absurd rfl hw
  rcases s with - | ⟨b, t⟩
  · exact Or.inl rfl
  right
  by_contra hb
  have hb' : b ≠ sep := by simpa using hb
  have ha : a ≠ sep := fun heq => hsep (heq ▸ List.mem_cons_self)
  rw [List.cons_append, pieces_cons_of_ne ha, List.head?_cons, ← List.cons_append,
    List.takeWhile_append_of_pos fun d hd => decide_eq_true (ne_of_mem_of_not_mem hd hsep),
    Option.some_inj] at h
  have hnil := List.append_right_eq_self.mp h
  simp [hb'] at hnil

theorem pieces_eq_nil_iff : pieces sep s = [] ↔ ∀ a ∈ s, a = sep := by
  induction s with
  | nil => simp
  | cons a s ih =>
      by_cases ha : a = sep
      · rw [ha, pieces_cons_sep, ih]
        simp
      · rw [pieces_cons_of_ne ha]
        simp [ha]

/-- A list without pieces, but for elements of the predicate at its end, is of the
predicate, the separator with it. -/
theorem pieces_rdropWhile_eq_nil_iff (hp : p sep) :
    pieces sep (s.rdropWhile p) = [] ↔ ∀ a ∈ s, p a := by
  rw [pieces_eq_nil_iff]
  constructor
  · intro h a ha
    rw [← List.rdropWhile_append_rtakeWhile (p := p) (l := s)] at ha
    rcases List.mem_append.mp ha with hfront | hback
    · rw [h a hfront]
      exact hp
    · exact List.mem_rtakeWhile_imp hback
  · intro h a ha
    rw [List.rdropWhile_eq_nil_iff.mpr h] at ha
    cases ha

/-- A list whose stripped part has no pieces is of the predicate, the separator with it. -/
theorem pieces_strip_eq_nil_iff (hp : p sep) : pieces sep (strip p s) = [] ↔ ∀ a ∈ s, p a := by
  unfold strip
  rw [pieces_rdropWhile_eq_nil_iff hp]
  constructor
  · intro h a ha
    rw [← List.takeWhile_append_dropWhile (p := p) (l := s)] at ha
    rcases List.mem_append.mp ha with htake | hdrop
    · exact List.mem_takeWhile_imp htake
    · exact h a hdrop
  · exact fun h a ha => h a ((List.dropWhile_subset p) ha)

/-- Words joined by separators are the pieces again. -/
theorem pieces_joined (hw : sep ∉ w ∧ w ≠ []) (hrest : ∀ x ∈ rest, sep ∉ x.2 ∧ x.2 ≠ []) :
    pieces sep (joined sep w rest) = w :: rest.map Prod.snd := by
  induction rest generalizing w with
  | nil => exact pieces_of_notMem hw.1 hw.2
  | cons x rest ih =>
      obtain ⟨n, w'⟩ := x
      have hnext := ih (hrest _ List.mem_cons_self) fun x hx => hrest x (List.mem_cons_of_mem _ hx)
      rw [joined, List.append_assoc, List.replicate_succ, List.cons_append,
        pieces_append_cons hw.1 hw.2, pieces_replicate_append, hnext, List.map_cons]

end Splitting

end ParchTestbench
