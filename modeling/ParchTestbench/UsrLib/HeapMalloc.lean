import ParchTestbench.UsrLib.HeapSupply

/-!
# The C user library: `tb_malloc`

A call of `tb_malloc` goes around the ring of free blocks to the first one that is large enough.
When it comes back to where it began it asks the kernel for more memory and goes on.

Main results:

- Theorem `search_settles`: the loop ends with a block, a refusal of the kernel or a fault.
- Theorem `tbMalloc_settles`: so does the call, in a heap of headers that are arranged.
-/

namespace ParchTestbench

namespace Heap

open Program

/-- The bytes that `morecore` asks the kernel for, for some units. -/
def coreBytes (n : Nat) : Nat := coreUnits (n % 2 ^ 32) * 16

/-- How the search for `n` units from a state ends. -/
inductive Searched (base : Nat) (kernel : Kernel) (s : State) (H F : Finset Nat) (n : Nat) :
    Except Crash (Nat × State) → Prop
  | found {s' : State} {H' F' : Finset Nat} {h : Nat} (hI : Arranged base s' H' F')
      (hfreep : s'.freep ∈ F') (hkept : ∀ k m, Taken s H F k m → Taken s' H' F' k m)
      (hnew : Taken s' H' F' h n) (hold : ∀ m, ¬ Taken s H F h m)
      (hgrown : Grown kernel (coreBytes n) s.calls s'.calls) :
      Searched base kernel s H F n (.ok (shift h 1, s'))
  | refused {t : State} {H' F' : Finset Nat} (hI : Arranged base t H' F')
      (hfreep : t.freep ∈ F') (hkept : ∀ k m, Taken t H' F' k m ↔ Taken s H F k m)
      (hgrown : Grown kernel (coreBytes n) s.calls t.calls)
      (hsame : t.calls = s.calls → t = s)
      (hrefuse : kernel t.calls (coreBytes n) = .failed (2 ^ 64 - 1)) :
      Searched base kernel s H F n
        (.ok (0, { t with calls := ⟨coreBytes n, .failed (2 ^ 64 - 1)⟩ :: t.calls }))
  | fault {calls : List Call} {v : Nat} (hgrown : Grown kernel (coreBytes n) s.calls calls)
      (hfail : kernel calls (coreBytes n) = .failed v) (hv : v ≠ 2 ^ 64 - 1) :
      Searched base kernel s H F n
        (.error (.fault ((v + 8) % 2 ^ 64) (⟨coreBytes n, .failed v⟩ :: calls)))

section Search

variable {base n a v p prevp : Nat} {kernel : Kernel} {s s' : State} {H F H' F' : Finset Nat}
  {r : Except Crash (Nat × State)}

theorem coreBytes_pos : 0 < coreBytes n := by
  have hunits : 4096 ≤ coreUnits (n % 2 ^ 32) := coreUnits_pos
  unfold coreBytes
  omega

/-- A search that goes on after a grant is one from the start. -/
theorem Searched.of_grant (h : Searched base kernel s' H' F' n r)
    (hgrant : kernel s.calls (coreBytes n) = .granted a)
    (hfresh : Fresh base kernel) (hcalls : s'.calls = ⟨coreBytes n, .granted a⟩ :: s.calls)
    (hkept : ∀ k m, Taken s' H' F' k m ↔ Taken s H F k m) : Searched base kernel s H F n r := by
  cases h with
  | found hI hfreep hkept' hnew hold hgrown =>
      rw [hcalls] at hgrown
      exact .found hI hfreep (fun k m htaken => hkept' k m ((hkept k m).mpr htaken)) hnew
        (fun m htaken => hold m ((hkept _ m).mpr htaken)) (hgrown.cons_left hgrant)
  | refused hI hfreep hkept' hgrown _ hrefuse =>
      rw [hcalls] at hgrown
      refine .refused hI hfreep (fun k m => (hkept' k m).trans (hkept k m))
        (hgrown.cons_left hgrant) (fun hsame => ?_) hrefuse
      -- the memory that was granted is not forgotten
      have hpos : 0 < coreBytes n := coreBytes_pos
      have hmem := hgrown.granted (granted_cons_granted.mpr (Or.inl ⟨Nat.le_refl a, by omega⟩))
      rw [hsame] at hmem
      exact absurd hmem ((hfresh _ _ _ hgrant).2.2 a (Nat.le_refl a) (by omega)).1
  | fault hgrown hfail hv =>
      rw [hcalls] at hgrown
      exact .fault (hgrown.cons_left hgrant) hfail hv

/-! ## The passes of the loop -/

/-- A pass at a block that is large enough. -/
theorem search_of_ge (hp : IsHeader base s.calls p) (hn : n ≤ s.size p)
    (hrest : carve base n prevp p s = r) :
    Settles (fun fuel => search base kernel n fuel prevp p) s r := by
  refine .of_succ (.bind_of_ok (getSize_eq hp) ?_)
  simp only [if_pos hn]
  exact .of_eq hrest

/-- A pass at another block, before the loop is back where it began. -/
theorem search_of_lt (hp : IsHeader base s.calls p) (hn : ¬ n ≤ s.size p) (hfreep : p ≠ s.freep)
    (hrest : Settles (fun fuel => search base kernel n fuel p (s.ptr p)) s r) :
    Settles (fun fuel => search base kernel n fuel prevp p) s r := by
  refine .of_succ (.bind_of_ok (getSize_eq hp) ?_)
  simp only [if_neg hn]
  refine .bind_of_ok (p := getFreep) rfl ?_
  simp only [if_neg hfreep]
  exact .bind_of_ok (getPtr_eq hp) hrest

/-- A pass that is back where the loop began asks for memory. -/
theorem search_at_end (hp : IsHeader base s.calls p) (hn : ¬ n ≤ s.size p) (hfreep : p = s.freep)
    (hrest : Settles (fun fuel => do
      let q ← morecore base kernel fuel (n % 2 ^ 32)
      if q = 0 then return 0 else search base kernel n fuel q (← getPtr base q)) s r) :
    Settles (fun fuel => search base kernel n fuel prevp p) s r := by
  refine .of_succ (.bind_of_ok (getSize_eq hp) ?_)
  simp only [if_neg hn]
  refine .bind_of_ok (p := getFreep) rfl ?_
  simp only [if_pos hfreep]
  exact hrest

/-- A pass that gets memory. -/
theorem search_of_granted {q : Nat} (hp : IsHeader base s.calls p) (hn : ¬ n ≤ s.size p)
    (hfreep : p = s.freep)
    (hcore : Settles (fun fuel => morecore base kernel fuel (n % 2 ^ 32)) s (.ok (q, s')))
    (hq : q ≠ 0) (hqh : IsHeader base s'.calls q)
    (hrest : Settles (fun fuel => search base kernel n fuel q (s'.ptr q)) s' r) :
    Settles (fun fuel => search base kernel n fuel prevp p) s r := by
  refine search_at_end hp hn hfreep (.bind hcore ?_)
  simp only [if_neg hq]
  exact .bind_of_ok (getPtr_eq hqh) hrest

/-- A pass that is refused memory. -/
theorem search_of_refused (hp : IsHeader base s.calls p) (hn : ¬ n ≤ s.size p)
    (hfreep : p = s.freep)
    (hcore : ∀ fuel, morecore base kernel fuel (n % 2 ^ 32) s = .ok (0, s')) :
    Settles (fun fuel => search base kernel n fuel prevp p) s (.ok (0, s')) :=
  search_at_end hp hn hfreep (.bind (Filter.Eventually.of_forall hcore) (.of_eq rfl))

/-- A pass that writes through the answer of the kernel. -/
theorem search_of_fault {e : Crash} (hp : IsHeader base s.calls p) (hn : ¬ n ≤ s.size p)
    (hfreep : p = s.freep)
    (hcore : ∀ fuel, morecore base kernel fuel (n % 2 ^ 32) s = .error e) :
    Settles (fun fuel => search base kernel n fuel prevp p) s (.error e) :=
  search_at_end hp hn hfreep (.bind_error (Filter.Eventually.of_forall hcore))

/-! ## The loop -/

/-- At a block that is large enough the loop ends. -/
theorem search_found (hI : Arranged base s H F) (hprevp : prevp ∈ F) (hpos : 0 < n)
    (hn : n ≤ s.size (s.ptr prevp)) :
    ∃ r, Settles (fun fuel => search base kernel n fuel prevp (s.ptr prevp)) s r ∧
      Searched base kernel s H F n r := by
  obtain ⟨s', H', F', h, hrun, hcalls, hI', hfreep', hkept, hnew, hold⟩ :=
    carve_arranged hI hprevp hpos hn
  refine ⟨_, search_of_ge (hI.isHeader_of_mem (hI.ptr_mem hprevp)) hn hrun,
    .found hI' hfreep' hkept hnew hold ?_⟩
  rw [hcalls]
  exact .refl

/-- The answers of the kernel at the end of a round, if what follows a grant ends. -/
theorem search_at_freep (hfresh : Fresh base kernel) (haway : EndsAway base kernel)
    (hsignals : Signals base kernel) (hI : Arranged base s H F) (hfreep : s.freep ∈ F)
    (hanswered : Answered kernel s.calls) (hprevp : prevp ∈ F) (hp : s.ptr prevp = s.freep)
    (hn : ¬ n ≤ s.size (s.ptr prevp))
    (ih : ∀ {s' : State} {H' F' : Finset Nat} {q : Nat}, spare s'.calls < spare s.calls →
      Arranged base s' H' F' → s'.freep ∈ F' → Answered kernel s'.calls → q ∈ F' →
      ∃ r, Settles (fun fuel => search base kernel n fuel q (s'.ptr q)) s' r ∧
        Searched base kernel s' H' F' n r) :
    ∃ r, Settles (fun fuel => search base kernel n fuel prevp (s.ptr prevp)) s r ∧
      Searched base kernel s H F n r := by
  have hph := hI.isHeader_of_mem (hI.ptr_mem hprevp)
  cases hanswer : kernel s.calls (coreBytes n) with
  | granted a =>
      obtain ⟨s', H', F', hcore, hcalls, hI', hfreep', hkept⟩ :=
        morecore_granted hfresh haway hI hfreep hanswer
      have hfewer : spare s'.calls < spare s.calls := by
        rw [hcalls]
        exact spare_lt hfresh hanswer coreBytes_pos
      have hanswered' : Answered kernel s'.calls := by
        rw [hcalls]
        exact hanswered.of_grown (.step .refl hanswer)
      obtain ⟨r, hrest, hr⟩ := ih hfewer hI' hfreep' hanswered' hfreep'
      have hpos := (hI'.header_end (hI'.mem_or_eq hfreep')).1
      exact ⟨r, search_of_granted hph hn hp hcore (by omega) (hI'.isHeader_of_mem hfreep') hrest,
        hr.of_grant hanswer hfresh hcalls hkept⟩
  | failed v =>
      by_cases hv : v = 2 ^ 64 - 1
      · subst hv
        exact ⟨_, search_of_refused hph hn hp fun fuel => morecore_refused fuel hanswer,
          .refused hI hfreep (fun k m => Iff.rfl) .refl (fun _ => rfl) hanswer⟩
      · have haccess := (hsignals _ _ _ hanswered hanswer).resolve_left hv
        exact ⟨_, search_of_fault hph hn hp fun fuel => morecore_fault fuel hanswer hv haccess,
          .fault .refl hanswer hv⟩

/-- The loop ends: every pass but one comes closer to where the loop began, and that one leaves
less memory that the kernel can grant. -/
theorem search_settles (hfresh : Fresh base kernel) (haway : EndsAway base kernel)
    (hsignals : Signals base kernel) (hpos : 0 < n) (hI : Arranged base s H F)
    (hfreep : s.freep ∈ F) (hanswered : Answered kernel s.calls) (hprevp : prevp ∈ F) :
    ∃ r, Settles (fun fuel => search base kernel n fuel prevp (s.ptr prevp)) s r ∧
      Searched base kernel s H F n r := by
  induction hspare : spare s.calls using Nat.strong_induction_on generalizing s H F prevp with
  | _ m ih =>
      subst hspare
      have hend {q : Nat} (hq : q ∈ F) (hp : s.ptr q = s.freep) (hn : ¬ n ≤ s.size (s.ptr q)) :
          ∃ r, Settles (fun fuel => search base kernel n fuel q (s.ptr q)) s r ∧
            Searched base kernel s H F n r :=
        search_at_freep hfresh haway hsignals hI hfreep hanswered hq hp hn
          fun hfewer hI' hfreep' hanswered' hq' => ih _ hfewer hI' hfreep' hanswered' hq' rfl
      obtain ⟨k, hk⟩ := hI.ring.exists_iterate_eq (hI.ptr_mem hprevp) hfreep
      induction k generalizing prevp with
      | zero =>
          by_cases hn : n ≤ s.size (s.ptr prevp)
          · exact search_found hI hprevp hpos hn
          · exact hend hprevp hk hn
      | succ k ihk =>
          by_cases hn : n ≤ s.size (s.ptr prevp)
          · exact search_found hI hprevp hpos hn
          by_cases hp : s.ptr prevp = s.freep
          · exact hend hprevp hp hn
          · obtain ⟨r, hrest, hr⟩ := ihk (hI.ptr_mem hprevp) hk
            exact ⟨r, search_of_lt (hI.isHeader_of_mem (hI.ptr_mem hprevp)) hn hp hrest, hr⟩

/-! ## The call -/

/-- The state once there is a ring: the one that `tb_malloc` makes is the header `base` alone. -/
def begun (base : Nat) (s : State) : State :=
  if s.freep = 0 then { (s.setPtr base base).setSize base 0 with freep := base } else s

theorem begun_calls : (begun base s).calls = s.calls := by
  unfold begun
  split <;> rfl

theorem startRing_eq (hstatic : base + 16 ≤ 2 ^ 64) :
    startRing base s = .ok ((begun base s).freep, begun base s) := by
  have hbase (calls : List Call) : IsHeader base calls base :=
    ⟨hstatic, fun x hx hx' => Or.inl ⟨hx, hx'⟩⟩
  unfold startRing begun
  rw [bind_eq_ok (a := s.freep) (p := getFreep) rfl]
  by_cases hfreep : s.freep = 0
  · rw [if_pos hfreep, if_pos hfreep]
    refine (bind_eq_ok (p := setFreep base) rfl).trans ?_
    rw [bind_eq_ok (setPtr_eq (hbase _)), bind_eq_ok (setSize_eq (hbase _))]
    rfl
  · rw [if_neg hfreep, if_neg hfreep]
    rfl

/-- The first ring is arranged. -/
theorem arranged_begun (hpos : 0 < base) (hstatic : base + 16 ≤ 2 ^ 64) (hfreep : s.freep = 0)
    (hnone : ∀ x, ¬ Granted s.calls x) :
    Arranged base (begun base s) ∅ {base} ∧ (begun base s).freep = base := by
  have hread := fields_setSize (s := s.setPtr base base) (v := 0) (Or.inl (Eq.refl base)) (by omega)
  have hread' := fields_setPtr (s := s) (v := base) (Or.inl (Eq.refl base)) (by omega)
  rw [Function.update_self] at hread hread'
  unfold begun
  rw [if_pos hfreep]
  exact ⟨{
    static := ⟨hpos, hstatic⟩
    territory := fun x hx => absurd hx (hnone x)
    tiling := Tiling.empty hnone
    base_mem := Finset.mem_singleton_self base
    sub := fun h hh hne => absurd (Finset.mem_singleton.mp hh) hne
    ring := SortedRing.singleton (hread.1.trans hread'.1)
    size_base := hread.2 }, rfl⟩

/-- The call ends like the search. -/
theorem tbMalloc_settles (hfresh : Fresh base kernel) (haway : EndsAway base kernel)
    (hsignals : Signals base kernel) (hI : Arranged base (begun base s) H F)
    (hfreep : (begun base s).freep ∈ F) (hanswered : Answered kernel s.calls) (nbytes : Nat) :
    ∃ r, Settles (fun fuel => tbMalloc base kernel fuel nbytes) s r ∧
      Searched base kernel (begun base s) H F (nunits nbytes) r := by
  have hpos : 0 < nunits nbytes := Nat.succ_pos _
  have hcalls : (begun base s).calls = s.calls := begun_calls
  rw [← hcalls] at hanswered
  obtain ⟨r, hsearch, hr⟩ := search_settles hfresh haway hsignals hpos hI hfreep hanswered hfreep
  exact ⟨r, .bind_of_ok (startRing_eq hI.static.2)
    (.bind_of_ok (getPtr_eq (hI.isHeader_of_mem hfreep)) hsearch), hr⟩

end Search

end Heap

end ParchTestbench
