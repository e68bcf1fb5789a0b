import ParchTestbench.UsrLib.HeapRuns

/-!
# The C user library: when memory runs out

By the convention of the system calls a failure is a small negative number, the errno with its
sign changed.  `morecore` compares the answer of `tb_sbrk` with one of these numbers only, and
takes every other one for the address of new memory.

Main results:

- Theorem `signals_of_convention`: no failure is the address of memory that the program has.
- Theorem `tbMalloc_outOfMemory_iff`: a failure of `tb_sbrk` is reported, with the heap as it was,
  exactly when the errno is 1 and no call before the failure was granted.
-/

namespace ParchTestbench

namespace Heap

open Program

/-- The convention of the system calls: memory is in the lower half of the address space, above
its first page, and a failure is an errno with its sign changed. -/
structure Convention (base : Nat) (kernel : Kernel) : Prop where
  static : 4096 ≤ base ∧ base + 16 ≤ 2 ^ 63
  memory : ∀ calls n a, kernel calls n = .granted a → 4096 ≤ a ∧ a + n ≤ 2 ^ 63
  errno : ∀ calls n v, kernel calls n = .failed v → ∃ e, 0 < e ∧ e < 2 ^ 63 ∧ v = 2 ^ 64 - e

/-- The calls of `tb_sbrk` at the end of a call of `tb_malloc`. -/
def callsAfter : Except Crash (Nat × State) → List Call
  | .ok (_, s') => s'.calls
  | .error (.fault _ calls) => calls
  | .error .fuel => []

/-- `tb_sbrk` fails with an errno in a call of `tb_malloc` from a state. -/
def FailsWith (s : State) (r : Except Crash (Nat × State)) (e : Nat) : Prop :=
  ∃ new n, callsAfter r = new ++ s.calls ∧ ⟨n, .failed (2 ^ 64 - e)⟩ ∈ new

/-- The ring of free blocks and the live blocks are as they were.  The first call of all makes
the ring, of the header `base` alone. -/
structure Untouched (base : Nat) (live : List (Nat × Nat)) (s s' : State) : Prop where
  freep : s.freep ≠ 0 → s'.freep = s.freep
  ring : ∀ h, h ≠ base → (InRing s' h ↔ InRing s h)
  fields : ∀ h, InRing s h → s'.ptr h = s.ptr h ∧ s'.size h = s.size h
  live : ∀ p n, (p, n) ∈ live → ∀ x, p - 16 ≤ x → x < p + room n → s'.mem x = s.mem x

/-- Memory ran out in a call of `tb_malloc` and the call says so. -/
def Reported (base : Nat) (live : List (Nat × Nat)) (s : State)
    (r : Except Crash (Nat × State)) : Prop :=
  ∃ s', r = .ok (0, s') ∧ Untouched base live s s'

section OutOfMemory

variable {base nbytes n x e : Nat} {kernel : Kernel} {s s' t : State} {H F H' F' : Finset Nat}
  {live : List (Nat × Nat)} {calls : List Call} {r : Except Crash (Nat × State)}

theorem granted_bounds (hconv : Convention base kernel) (h : Answered kernel calls)
    (hx : Granted calls x) : 4096 ≤ x ∧ x < 2 ^ 63 := by
  induction h with
  | nil => exact absurd hx not_granted_nil
  | @cons calls n _ ih =>
      cases hanswer : kernel calls n with
      | granted a =>
          rw [hanswer, granted_cons_granted] at hx
          have hbounds := hconv.memory _ _ _ hanswer
          rcases hx with hin | hold
          · omega
          · exact ih hold
      | failed v =>
          rw [hanswer, granted_cons_failed] at hx
          exact ih hx

/-- No failure is the address of memory that the program has. -/
theorem signals_of_convention (hconv : Convention base kernel) : Signals base kernel := by
  intro calls n v hanswered hfail
  obtain ⟨e, hpos, hsmall, rfl⟩ := hconv.errno _ _ _ hfail
  have hstatic := hconv.static
  by_cases hone : e = 1
  · exact Or.inl (by rw [hone])
  · refine Or.inr fun haccess => ?_
    -- the address is in the upper half, or wraps around to the first page
    obtain ⟨htop, hbytes⟩ := haccess
    rcases hbytes 0 (by omega) with hbase | hmem
    · omega
    · have hbounds := granted_bounds hconv hanswered hmem
      omega

/-! ## What a run shows -/

/-- In a call that finds a block nothing failed. -/
theorem not_failsWith_of_grown (hgrown : Grown kernel n s.calls s'.calls) {p : Nat} :
    ¬ FailsWith s (.ok (p, s')) e := by
  rintro ⟨new, m, happend, hmem⟩
  obtain ⟨new', happend', hall⟩ := hgrown.exists_append
  have hnew : new' = new := List.append_cancel_right (happend'.symm.trans happend)
  obtain ⟨a, hgrant⟩ := hall _ (hnew ▸ hmem)
  cases hgrant

/-- In a call that ends with a failure nothing else failed. -/
theorem failsWith_last {v : Nat} (hgrown : Grown kernel n s.calls calls)
    (hcalls : callsAfter r = ⟨n, .failed v⟩ :: calls) (hfails : FailsWith s r e) :
    v = 2 ^ 64 - e := by
  obtain ⟨new, m, happend, hmem⟩ := hfails
  obtain ⟨new', rfl, hall⟩ := hgrown.exists_append
  have hnew : new = ⟨n, .failed v⟩ :: new' := by
    rw [hcalls, ← List.cons_append] at happend
    exact (List.append_cancel_right happend).symm
  rw [hnew] at hmem
  rcases List.mem_cons.mp hmem with heq | hmem
  · injection heq with _ hanswer
    injection hanswer with hvalue
    exact hvalue.symm
  · obtain ⟨a, hgrant⟩ := hall _ hmem
    cases hgrant

/-- The state in which the search starts is as before but for the first ring. -/
theorem untouched_begun (hs : Sound base kernel s live) (hpos : 0 < base)
    (htop : base + 16 ≤ 2 ^ 64) {calls' : List Call} :
    Untouched base live s { begun base s with calls := calls' } := by
  by_cases hzero : s.freep = 0
  · obtain ⟨rfl, hnone⟩ := hs.unbegun hzero
    obtain ⟨hI, hfreep⟩ := arranged_begun hpos htop hzero hnone
    refine ⟨fun hne => absurd hzero hne, fun h hne => ⟨fun hin => ?_, fun hin => ?_⟩,
      fun h hin => absurd hzero hin.1, fun p n hmem => absurd hmem List.not_mem_nil⟩
    · have hbase : (begun base s).freep ∈ ({base} : Finset Nat) :=
        Finset.mem_singleton.mpr hfreep
      exact absurd (Finset.mem_singleton.mp ((inRing_iff hI hbase).mp hin)) hne
    · exact absurd hzero hin.1
  · rw [begun_of_ne hzero]
    exact ⟨fun _ => rfl, fun h _ => Iff.rfl, fun h _ => ⟨rfl, rfl⟩, fun p n _ x _ _ => rfl⟩

/-- After a grant the ring of free blocks is not what it was. -/
theorem not_untouched_of_granted {a : Nat}
    (hI : Arranged base (begun base s) H F) (hfreep : (begun base s).freep ∈ F)
    (hI' : Arranged base t H' F') (hfreep' : t.freep ∈ F')
    (hkept : ∀ h n, Taken t H' F' h n ↔ Taken (begun base s) H F h n)
    (hnew : ¬ Granted s.calls a) (hgranted : Granted t.calls a) {calls' : List Call} :
    ¬ Untouched base live s { t with calls := calls' } := by
  intro hsame
  have hcalls : (begun base s).calls = s.calls := begun_calls
  obtain ⟨h, hh, hah, hah'⟩ := (hI'.tiling.cover a).mp hgranted
  have hbase : h ≠ base := fun heq => hI'.base_notMem (heq ▸ hh)
  -- the block with the new memory was a block before, of the same size
  suffices hold : h ∈ H ∧ t.size h = (begun base s).size h by
    have hmem := hI.granted hold.1 hah (by rw [← hold.2]; exact hah')
    rw [hcalls] at hmem
    exact hnew hmem
  by_cases hfree : h ∈ F'
  · have hring := (hsame.ring h hbase).mp ((inRing_iff hI' hfreep').mpr hfree)
    have hsize := (hsame.fields h hring).2
    have hbegun : begun base s = s := begun_of_ne hring.1
    rw [hbegun] at hI hfreep ⊢
    exact ⟨hI.sub h ((inRing_iff hI hfreep).mp hring) hbase, hsize⟩
  · obtain ⟨hold, -, hsize⟩ := (hkept h _).mp ⟨hh, hfree, rfl⟩
    exact ⟨hold, hsize.symm⟩

/-- A failure of `tb_sbrk` in a call of `tb_malloc` is reported, and the heap is as it was, exactly
when the errno is 1 and it is the first call of `tb_sbrk` that fails. -/
theorem tbMalloc_outOfMemory_iff (hconv : Convention base kernel) (hfresh : Fresh base kernel)
    (haway : EndsAway base kernel) (hs : Reachable base kernel s live) (nbytes : Nat) :
    ∃ r, Settles (fun fuel => tbMalloc base kernel fuel nbytes) s r ∧
      ∀ e, 0 < e → e < 2 ^ 63 → FailsWith s r e → (Reported base live s r ↔
        e = 1 ∧ ∃ v, kernel s.calls (coreBytes (nunits nbytes)) = .failed v) := by
  have hstatic := hconv.static
  have hpos : 0 < base := by omega
  have htop : base + 16 ≤ 2 ^ 64 := by omega
  have hsignals := signals_of_convention hconv
  have hsound := hs.sound hpos htop hfresh haway hsignals
  have hcalls : (begun base s).calls = s.calls := begun_calls
  obtain ⟨H, F, hI, hfreep, -⟩ := hsound.arranged
  obtain ⟨r, hsettles, hr⟩ :=
    tbMalloc_settles hfresh haway hsignals hI hfreep hsound.answered nbytes
  refine ⟨r, hsettles, fun e hepos hesmall hfails => ?_⟩
  cases hr with
  | found hI' hfreep' hkept hnew hold hgrown =>
      rw [hcalls] at hgrown
      exact absurd hfails (not_failsWith_of_grown hgrown)
  | @refused t H' F' hI' hfreep' hkept hgrown hsame hrefuse =>
      rw [hcalls] at hgrown hsame
      have hone : e = 1 := by
        have hlast := failsWith_last hgrown rfl hfails
        omega
      rcases hgrown.eq_or_granted coreBytes_pos with hfirst | ⟨a, hgrant, hmem⟩
      · rw [hfirst] at hrefuse
        rw [hsame hfirst]
        exact iff_of_true ⟨_, rfl, untouched_begun hsound hpos htop⟩ ⟨hone, _, hrefuse⟩
      · refine iff_of_false ?_ ?_
        · rintro ⟨s', heq, huntouched⟩
          cases heq
          have hunits : 0 < coreBytes (nunits nbytes) := coreBytes_pos
          have hnew := ((hfresh _ _ _ hgrant).2.2 a (Nat.le_refl a) (by omega)).1
          exact not_untouched_of_granted hI hfreep hI' hfreep' hkept hnew hmem huntouched
        · rintro ⟨-, v, hfail⟩
          rw [hgrant] at hfail
          cases hfail
  | fault hgrown hfail hv =>
      rw [hcalls] at hgrown
      refine iff_of_false ?_ ?_
      · rintro ⟨s', heq, -⟩
        cases heq
      · rintro ⟨rfl, -⟩
        exact hv (failsWith_last hgrown rfl hfails)

/-! ## A kernel without memory -/

/-- A kernel that has no memory, with errno 12. -/
def noMemory : Kernel := fun _ _ => .failed (2 ^ 64 - 12)

theorem noMemory_convention : Convention 4096 noMemory where
  static := by decide
  memory _ _ _ h := by cases h
  errno _ _ v h := by
    cases h
    exact ⟨12, by decide, by decide, rfl⟩

theorem noMemory_fresh : Fresh 4096 noMemory := by
  intro calls n a h
  cases h

theorem noMemory_endsAway : EndsAway 4096 noMemory := by
  intro calls n a h
  cases h

/-- A first request of 100 bytes. -/
theorem tbMalloc_outOfMemory_iff_sample : ∃ r,
    Settles (fun fuel => tbMalloc 4096 noMemory fuel 100) unused r ∧
      ∀ e, 0 < e → e < 2 ^ 63 → FailsWith unused r e → (Reported 4096 [] unused r ↔
        e = 1 ∧ ∃ v, noMemory unused.calls (coreBytes (nunits 100)) = .failed v) :=
  tbMalloc_outOfMemory_iff noMemory_convention noMemory_fresh noMemory_endsAway
    (.start fun _ => 0) 100

/-- With errno 12 a first request writes through the failure. -/
theorem not_outOfMemory_reported : ¬ ∀ (base : Nat) (kernel : Kernel), Convention base kernel →
    Fresh base kernel → EndsAway base kernel →
    ∀ (s : State) (live : List (Nat × Nat)), Reachable base kernel s live → ∀ nbytes, ∃ r,
      Settles (fun fuel => tbMalloc base kernel fuel nbytes) s r ∧
        ∀ e, 0 < e → e < 2 ^ 63 → FailsWith s r e → Reported base live s r := by
  intro hall
  obtain ⟨r, hsettles, hreported⟩ := hall 4096 noMemory noMemory_convention noMemory_fresh
    noMemory_endsAway unused [] (.start fun _ => 0) 100
  have hrun : ((tbMalloc 4096 noMemory 9 100 unused).map Prod.fst) =
      .error (.fault (2 ^ 64 - 4) [⟨65536, .failed (2 ^ 64 - 12)⟩]) := by decide +kernel
  have hresult := StableAt.eq_of_settles (fun k => tbMalloc_stableAt k _) hsettles
    (fun hout : tbMalloc 4096 noMemory 9 100 unused = _ => by
      rw [hout] at hrun
      cases hrun)
  rw [← hresult] at hrun
  have hfails : FailsWith unused r 12 := by
    cases r with
    | ok _ => cases hrun
    | error crash =>
        cases hrun
        exact ⟨[⟨65536, .failed (2 ^ 64 - 12)⟩], 65536, rfl, List.mem_singleton_self _⟩
  obtain ⟨s', rfl, -⟩ := hreported 12 (by decide) (by decide) hfails
  cases hrun

end OutOfMemory

end Heap

end ParchTestbench
