import ParchTestbench.UsrLib.HeapMalloc

/-!
# The C user library: the heap of a running program

A program calls `tb_malloc`, calls `tb_free` on blocks that it has, and writes to these blocks and
to memory that has nothing to do with the heap.  The headers are arranged in every state that
such a program reaches, and its blocks are taken ones.

Main results:

- Theorem `Reachable.sound`: the headers are arranged in every reachable state.
- Theorem `tbMalloc_usable_iff`: the block that a call returns can be used exactly when rounding
  up the number of bytes does not wrap around.
-/

namespace ParchTestbench

namespace Heap

open Program

/-- The bytes behind the header of a block for a request. -/
def room (nbytes : Nat) : Nat := 16 * (nunits nbytes - 1)

/-- The heap states that a program reaches, with its live blocks: what `tb_malloc` returned and
the bytes that were asked for. -/
inductive Reachable (base : Nat) (kernel : Kernel) : State → List (Nat × Nat) → Prop
  | start (mem : Mem) : Reachable base kernel ⟨mem, 0, []⟩ []
  | malloc {s s' : State} {live : List (Nat × Nat)} {nbytes p : Nat}
      (h : Reachable base kernel s live) (hn : nbytes < 2 ^ 64)
      (hrun : Settles (fun fuel => tbMalloc base kernel fuel nbytes) s (.ok (p, s'))) :
      Reachable base kernel s' (if p = 0 then live else (p, nbytes) :: live)
  | free {s s' : State} {live : List (Nat × Nat)} {p nbytes : Nat}
      (h : Reachable base kernel s live) (hlive : (p, nbytes) ∈ live)
      (hrun : Settles (fun fuel => tbFree base fuel p) s (.ok ((), s'))) :
      Reachable base kernel s' (live.erase (p, nbytes))
  | write {s : State} {live : List (Nat × Nat)} {p nbytes x : Nat}
      (h : Reachable base kernel s live) (hlive : (p, nbytes) ∈ live) (hx : p ≤ x)
      (hx' : x < p + room nbytes) (byte : UInt8) :
      Reachable base kernel { s with mem := Function.update s.mem x byte } live
  | other {s : State} {live : List (Nat × Nat)} {x : Nat} (h : Reachable base kernel s live)
      (hx : ¬ Granted s.calls x) (hx' : x < base ∨ base + 16 ≤ x) (byte : UInt8) :
      Reachable base kernel { s with mem := Function.update s.mem x byte } live

/-- A pointer is to the block of a taken header. -/
def Owns (s : State) (H F : Finset Nat) (p nbytes : Nat) : Prop :=
  ∃ h, p = h + 16 ∧ p < 2 ^ 64 ∧ Taken s H F h (nunits nbytes)

/-- What holds of the heap and the live blocks between two steps of the program. -/
structure Sound (base : Nat) (kernel : Kernel) (s : State) (live : List (Nat × Nat)) : Prop where
  answered : Answered kernel s.calls
  arranged : ∃ H F, Arranged base (begun base s) H F ∧ (begun base s).freep ∈ F ∧
    ∀ block ∈ live, Owns (begun base s) H F block.1 block.2
  nodup : (live.map Prod.fst).Nodup
  unbegun : s.freep = 0 → live = [] ∧ ∀ x, ¬ Granted s.calls x

section Runs

variable {base p q x nbytes n : Nat} {kernel : Kernel} {s s' : State} {H F H' F' : Finset Nat}
  {live : List (Nat × Nat)} {byte : UInt8}

theorem begun_of_ne (h : s.freep ≠ 0) : begun base s = s := if_neg h

/-- A pointer into the ring is not null. -/
theorem FreeList.ne_zero {calls : List Call} {ptr size : Nat → Nat}
    (hI : FreeList base (Granted calls) H F ptr size) (hp : p ∈ F) : p ≠ 0 :=
  Nat.pos_iff_ne_zero.mp (hI.header_end (hI.mem_or_eq hp)).1

/-- A pointer to the end of a header is one of the program's, unless it wraps around to null. -/
theorem owns_of_taken (hI : Arranged base s H F) (htaken : Taken s H F q (nunits nbytes))
    (hnull : shift q 1 ≠ 0) : shift q 1 = q + 16 ∧ Owns s H F (shift q 1) nbytes := by
  have hend := hI.header_end (Or.inl htaken.1)
  have hshift : shift q 1 = q + 16 ∧ q + 16 < 2 ^ 64 := by
    unfold shift at hnull ⊢
    omega
  rw [hshift.1]
  exact ⟨rfl, q, rfl, hshift.2, htaken⟩

/-- The fields of a header are read as before when a byte changes that is not in it. -/
theorem fields_update {k : Nat} (hx : x < k ∨ k + 16 ≤ x) :
    ({ s with mem := Function.update s.mem x byte } : State).ptr k = s.ptr k ∧
      ({ s with mem := Function.update s.mem x byte } : State).size k = s.size k :=
  ⟨Mem.load_congr fun y _ _ => Function.update_of_ne (by omega) _ _,
    Mem.load_congr fun y _ _ => Function.update_of_ne (by omega) _ _⟩

/-- The headers stay arranged when a byte changes that is in none of them. -/
theorem arranged_update (hI : Arranged base s H F)
    (hx : ∀ k, k ∈ H ∨ k = base → x < k ∨ k + 16 ≤ x) :
    Arranged base { s with mem := Function.update s.mem x byte } H F ∧
      ∀ h n, Taken { s with mem := Function.update s.mem x byte } H F h n ↔ Taken s H F h n := by
  have hread (k : Nat) (hk : k ∈ H ∨ k = base) := @fields_update x s byte k (hx k hk)
  exact ⟨hI.of_fields hread,
    fun k n => taken_congr Iff.rfl fun hk _ => (hread k (Or.inl hk)).2⟩

/-- A byte behind the header of a taken block is in no header. -/
theorem outside_headers (hI : Arranged base s H F) (howns : Owns s H F p nbytes) (hx : p ≤ x)
    (hx' : x < p + room nbytes) {k : Nat} (hk : k ∈ H ∨ k = base) : x < k ∨ k + 16 ≤ x := by
  obtain ⟨h, rfl, -, hh, -, hsize⟩ := howns
  have hunits : x < h + 16 * s.size h := by
    unfold room at hx'
    omega
  rcases hk with hk | rfl
  · have hkpos := hI.size_pos hk
    rcases Nat.lt_trichotomy h k with hlt | rfl | hlt
    · have hend := hI.tiling.apart h hh k hk hlt
      omega
    · omega
    · have hend := hI.tiling.apart k hk h hh hlt
      omega
  · have hapart := hI.base_apart hh
    omega

/-! ## The steps of the program -/

theorem sound_start (hpos : 0 < base) (htop : base + 16 ≤ 2 ^ 64) (mem : Mem) :
    Sound base kernel ⟨mem, 0, []⟩ [] where
  answered := .nil
  arranged := by
    obtain ⟨hI, hfreep⟩ := arranged_begun (s := ⟨mem, 0, []⟩) hpos htop rfl fun x => not_granted_nil
    refine ⟨∅, {base}, hI, ?_, fun block hblock => absurd hblock List.not_mem_nil⟩
    rw [hfreep]
    exact Finset.mem_singleton_self base
  nodup := List.nodup_nil
  unbegun := fun _ => ⟨rfl, fun _ => not_granted_nil⟩

/-- A state with the headers arranged is sound for the blocks that it has. -/
theorem Sound.of_arranged (hanswered : Answered kernel s.calls) (hI : Arranged base s H F)
    (hfreep : s.freep ∈ F) (howns : ∀ block ∈ live, Owns s H F block.1 block.2)
    (hnodup : (live.map Prod.fst).Nodup) : Sound base kernel s live where
  answered := hanswered
  arranged := by
    rw [begun_of_ne (hI.ne_zero hfreep)]
    exact ⟨H, F, hI, hfreep, howns⟩
  nodup := hnodup
  unbegun := fun hzero => absurd hzero (hI.ne_zero hfreep)

/-- A program with a live block has a ring. -/
theorem Sound.of_mem (hs : Sound base kernel s live) {block : Nat × Nat} (hblock : block ∈ live) :
    ∃ H F, Arranged base s H F ∧ s.freep ∈ F ∧
      ∀ block ∈ live, Owns s H F block.1 block.2 := by
  have hne : s.freep ≠ 0 := by
    intro hzero
    rw [(hs.unbegun hzero).1] at hblock
    exact absurd hblock List.not_mem_nil
  have harranged := hs.arranged
  rwa [begun_of_ne hne] at harranged

/-- A call of `tb_malloc` that returns keeps the heap sound. -/
theorem Sound.searched (hs : Sound base kernel s live)
    (hlive : ∀ block ∈ live, Owns (begun base s) H F block.1 block.2)
    (h : Searched base kernel (begun base s) H F (nunits nbytes) (.ok (p, s'))) :
    Sound base kernel s' (if p = 0 then live else (p, nbytes) :: live) := by
  have hanswered : Answered kernel (begun base s).calls := by
    rw [begun_calls]
    exact hs.answered
  cases h with
  | @found _ H' F' h hI hfreep hkept hnew hold hgrown =>
      have howns : ∀ block ∈ live, Owns s' H' F' block.1 block.2 := by
        intro block hblock
        obtain ⟨k, hk, htop, htaken⟩ := hlive block hblock
        exact ⟨k, hk, htop, hkept _ _ htaken⟩
      split
      · exact .of_arranged (hanswered.of_grown hgrown) hI hfreep howns hs.nodup
      · rename_i hnull
        obtain ⟨hshift, hown⟩ := owns_of_taken hI hnew hnull
        refine .of_arranged (hanswered.of_grown hgrown) hI hfreep (fun block hblock => ?_) ?_
        · rcases List.mem_cons.mp hblock with rfl | hblock
          · exact hown
          · exact howns block hblock
        · rw [List.map_cons, List.nodup_cons]
          refine ⟨fun hmem => ?_, hs.nodup⟩
          obtain ⟨block, hblock, heq⟩ := List.mem_map.mp hmem
          -- the new block was not taken before
          obtain ⟨k, hk, -, htaken⟩ := hlive block hblock
          have hkh : k = h := by
            have hpointers := hk.symm.trans (heq.trans hshift)
            omega
          exact hold _ (hkh ▸ htaken)
  | @refused t H' F' hI hfreep hkept hgrown _ hrefuse =>
      have hnext : Answered kernel
          (⟨coreBytes (nunits nbytes), .failed (2 ^ 64 - 1)⟩ :: t.calls) := by
        have hcall := (hanswered.of_grown hgrown).cons (coreBytes (nunits nbytes))
        rwa [hrefuse] at hcall
      rw [if_pos rfl]
      refine .of_arranged (H := H') (F := F') hnext ?_ hfreep (fun block hblock => ?_) hs.nodup
      · have hsame : Granted (⟨coreBytes (nunits nbytes), .failed (2 ^ 64 - 1)⟩ :: t.calls) =
            Granted t.calls := funext fun x => propext granted_cons_failed
        show FreeList base (Granted (_ :: t.calls)) H' F' t.ptr t.size
        rw [hsame]
        exact hI
      · obtain ⟨k, hk, htop, htaken⟩ := hlive block hblock
        exact ⟨k, hk, htop, (hkept _ _).mpr htaken⟩

/-- A call of `tb_free` on a live block keeps the heap sound. -/
theorem Sound.freed (hs : Sound base kernel s live) (hlive : (p, nbytes) ∈ live)
    (hrun : Settles (fun fuel => tbFree base fuel p) s (.ok ((), s'))) :
    Sound base kernel s' (live.erase (p, nbytes)) := by
  obtain ⟨H, F, hI, hfreep, howns⟩ := hs.of_mem hlive
  obtain ⟨h, hp, htop, hh, hhF, -⟩ := howns _ hlive
  have hshift : shift h 1 = p := by
    unfold shift
    omega
  obtain ⟨t, H', F', hfree, hcalls, hI', hfreep', hkept⟩ := tbFree_settles hI hfreep hh hhF
  rw [hshift] at hfree
  cases hrun.unique hfree
  have hdup : live.Nodup := List.Nodup.of_map _ hs.nodup
  refine .of_arranged (hcalls ▸ hs.answered) hI' hfreep' (fun block hblock => ?_)
    (hs.nodup.sublist ((List.erase_sublist).map _))
  obtain ⟨hne, hmem⟩ := hdup.mem_erase_iff.mp hblock
  obtain ⟨k, hk, hktop, htaken⟩ := howns _ hmem
  refine ⟨k, hk, hktop, (hkept _ _).mpr (taken_insert.mpr ⟨fun heq => hne ?_, htaken⟩)⟩
  -- two live blocks with one pointer are the same block
  exact List.inj_on_of_nodup_map hs.nodup hmem hlive (by omega)

/-- A write to a live block keeps the heap sound. -/
theorem Sound.written (hs : Sound base kernel s live) (hlive : (p, nbytes) ∈ live) (hx : p ≤ x)
    (hx' : x < p + room nbytes) :
    Sound base kernel { s with mem := Function.update s.mem x byte } live := by
  obtain ⟨H, F, hI, hfreep, howns⟩ := hs.of_mem hlive
  obtain ⟨hI', hkept⟩ := @arranged_update base x s H F byte hI fun k hk =>
    outside_headers hI (howns _ hlive) hx hx' hk
  refine .of_arranged hs.answered hI' hfreep (fun block hblock => ?_) hs.nodup
  obtain ⟨k, hk, htop, htaken⟩ := howns _ hblock
  exact ⟨k, hk, htop, (hkept _ _).mpr htaken⟩

/-- A write outside of the heap keeps the heap sound. -/
theorem Sound.written_outside (hpos : 0 < base) (htop : base + 16 ≤ 2 ^ 64)
    (hs : Sound base kernel s live) (hx : ¬ Granted s.calls x) (hx' : x < base ∨ base + 16 ≤ x) :
    Sound base kernel { s with mem := Function.update s.mem x byte } live := by
  by_cases hzero : s.freep = 0
  · obtain ⟨rfl, hnone⟩ := hs.unbegun hzero
    obtain ⟨hI, hfreep⟩ :=
      arranged_begun (s := { s with mem := Function.update s.mem x byte }) hpos htop hzero hnone
    refine ⟨hs.answered, ⟨∅, {base}, hI, ?_, fun block hblock => absurd hblock List.not_mem_nil⟩,
      List.nodup_nil, fun _ => ⟨rfl, hnone⟩⟩
    rw [hfreep]
    exact Finset.mem_singleton_self base
  · obtain ⟨H, F, hI, hfreep, howns⟩ := hs.arranged
    rw [begun_of_ne hzero] at hI hfreep howns
    have houtside (k : Nat) (hk : k ∈ H ∨ k = base) : x < k ∨ k + 16 ≤ x := by
      rcases hk with hk | rfl
      · by_contra hinside
        have hsize := hI.size_pos hk
        exact hx (hI.granted hk (by omega) (by omega))
      · exact hx'
    obtain ⟨hI', hkept⟩ := @arranged_update base x s H F byte hI houtside
    refine .of_arranged hs.answered hI' hfreep (fun block hblock => ?_) hs.nodup
    obtain ⟨k, hk, hktop, htaken⟩ := howns _ hblock
    exact ⟨k, hk, hktop, (hkept _ _).mpr htaken⟩

/-- The headers are arranged in every state that a program reaches. -/
theorem Reachable.sound (hpos : 0 < base) (htop : base + 16 ≤ 2 ^ 64)
    (hfresh : Fresh base kernel) (haway : EndsAway base kernel) (hsignals : Signals base kernel)
    (h : Reachable base kernel s live) : Sound base kernel s live := by
  induction h with
  | start mem => exact sound_start hpos htop mem
  | malloc _ _ hrun ih =>
      obtain ⟨H, F, hI, hfreep, howns⟩ := ih.arranged
      obtain ⟨r, hsettles, hr⟩ :=
        tbMalloc_settles hfresh haway hsignals hI hfreep ih.answered _
      cases hrun.unique hsettles
      exact ih.searched howns hr
  | free _ hlive hrun ih => exact ih.freed hlive hrun
  | write _ hlive hx hx' byte ih => exact ih.written hlive hx hx'
  | other _ hx hx' byte ih => exact ih.written_outside hpos htop hx hx'

end Runs

/-! ## The block that a call returns -/

/-- The ring of free blocks goes through the header at `h`. -/
def InRing (s : State) (h : Nat) : Prop := s.freep ≠ 0 ∧ ∃ k, s.ptr^[k] s.freep = h

/-- The `m` bytes from `a` on and the `n` bytes from `b` on have none in common. -/
def RangesApart (a m b n : Nat) : Prop := ∀ x, a ≤ x → x < a + m → ¬ (b ≤ x ∧ x < b + n)

/-- The bytes from `p` on can be used by a program with some live blocks: they were granted, and
they are neither in a live block, header included, nor in a free one or the header `base`. -/
structure Usable (s : State) (live : List (Nat × Nat)) (p nbytes : Nat) : Prop where
  granted : ∀ x, p ≤ x → x < p + nbytes → Granted s.calls x
  header : RangesApart p nbytes (p - 16) 16
  live : ∀ q m, (q, m) ∈ live → RangesApart p nbytes (q - 16) (16 + room m)
  free : ∀ h, InRing s h → RangesApart p nbytes h (16 * max 1 (s.size h))

section Use

variable {base p nbytes n h : Nat} {kernel : Kernel} {s s' : State} {H F : Finset Nat}
  {live : List (Nat × Nat)}

theorem inRing_iff (hI : Arranged base s H F) (hfreep : s.freep ∈ F) : InRing s h ↔ h ∈ F := by
  constructor
  · rintro ⟨-, k, rfl⟩
    exact hI.ring.iterate_mem hfreep k
  · intro hh
    exact ⟨hI.ne_zero hfreep, hI.ring.exists_iterate_eq hfreep hh⟩

/-- Rounding up gives room for the bytes asked for as long as it does not wrap around. -/
theorem le_room (hn : nbytes ≤ 2 ^ 64 - 16) : nbytes ≤ room nbytes := by
  unfold room nunits
  omega

/-- A taken block can be used next to the other blocks. -/
theorem usable_of_owns (hI : Arranged base s H F) (hfreep : s.freep ∈ F)
    (hown : Owns s H F p nbytes) (howns : ∀ block ∈ live, Owns s H F block.1 block.2)
    (hnew : ∀ block ∈ live, block.1 ≠ p) (hroom : nbytes ≤ room nbytes) :
    Usable s live p nbytes := by
  obtain ⟨h, rfl, -, hh, hhF, hsize⟩ := hown
  have hend : h + 16 + nbytes ≤ h + 16 * s.size h := by
    unfold room at hroom
    have hpos := hI.size_pos hh
    omega
  constructor
  · exact fun x hx hx' => hI.granted hh (by omega) (by omega)
  · intro x hx _
    omega
  · intro q m hlive x hx hx'
    obtain ⟨k, rfl, -, hk, -, hksize⟩ := howns _ hlive
    have hne : k ≠ h := fun heq => hnew _ hlive (by rw [heq])
    have hksize' : s.size k = nunits m := hksize
    have hkend : k + 16 - 16 + (16 + room m) ≤ k + 16 * s.size k := by
      unfold room
      have hpos := hI.size_pos hk
      omega
    intro hin
    exact hne (hI.tiling.eq_of_mem (x := x) hk hh (by omega) (by omega) (by omega) (by omega))
  · intro k hk x hx hx' hin
    have hkF := (inRing_iff hI hfreep).mp hk
    rcases hI.mem_or_eq hkF with hkH | rfl
    · have hpos := hI.size_pos hkH
      rw [Nat.max_eq_right hpos] at hin
      have heq := hI.tiling.eq_of_mem (x := x) hkH hh (by omega) (by omega) (by omega) (by omega)
      exact hhF (heq ▸ hkF)
    · rw [hI.size_base] at hin
      have hapart := hI.base_apart hh
      omega

/-- Behind a pointer there are never as many bytes as a wrapped request asks for. -/
theorem not_usable_of_wrapped (hI : Arranged base s H F) (hown : Owns s H F p nbytes)
    (hn : 2 ^ 64 - 16 < nbytes) : ¬ Usable s live p nbytes := by
  intro husable
  obtain ⟨h, rfl, -, hh, -, -⟩ := hown
  have hpos := (hI.block_end hh).1
  have hlast := hI.territory _ (husable.granted (h + 16 + nbytes - 1) (by omega) (by omega))
  omega

/-- From every reachable state `tb_malloc` returns, and what it returns is null or can be used
exactly when rounding up the number of bytes does not wrap around. -/
theorem tbMalloc_usable_iff (hpos : 0 < base) (htop : base + 16 ≤ 2 ^ 64)
    (hfresh : Fresh base kernel) (hminus : ∀ calls n v, kernel calls n = .failed v → v = 2 ^ 64 - 1)
    (haway : EndsAway base kernel) (hs : Reachable base kernel s live) (hn : nbytes < 2 ^ 64) :
    ∃ p s', Settles (fun fuel => tbMalloc base kernel fuel nbytes) s (.ok (p, s')) ∧
      Reachable base kernel s' (if p = 0 then live else (p, nbytes) :: live) ∧
      (p ≠ 0 → (Usable s' live p nbytes ↔ nbytes ≤ 2 ^ 64 - 16)) := by
  have hsignals : Signals base kernel := fun calls n v _ hfail => Or.inl (hminus calls n v hfail)
  have hsound := hs.sound hpos htop hfresh haway hsignals
  obtain ⟨H, F, hI, hfreep, howns⟩ := hsound.arranged
  obtain ⟨r, hsettles, hr⟩ :=
    tbMalloc_settles hfresh haway hsignals hI hfreep hsound.answered nbytes
  cases hr with
  | fault hgrown hfail hv => exact absurd (hminus _ _ _ hfail) hv
  | refused hI' hfreep' hkept hgrown hsame hrefuse =>
      exact ⟨_, _, hsettles, hs.malloc hn hsettles, fun hnull => absurd rfl hnull⟩
  | @found s' H' F' h hI' hfreep' hkept hnew hold hgrown =>
      refine ⟨_, _, hsettles, hs.malloc hn hsettles, fun hnull => ?_⟩
      obtain ⟨hshift, hown⟩ := owns_of_taken hI' hnew hnull
      constructor
      · intro husable
        by_contra hwrapped
        exact not_usable_of_wrapped hI' hown (by omega) husable
      · intro hsmall
        refine usable_of_owns hI' hfreep' hown (fun block hblock => ?_) (fun block hblock heq => ?_)
          (le_room hsmall)
        · obtain ⟨k, hk, hktop, htaken⟩ := howns block hblock
          exact ⟨k, hk, hktop, hkept _ _ htaken⟩
        · obtain ⟨k, hk, -, htaken⟩ := howns block hblock
          have hkh : k = h := by
            rw [hshift] at heq
            omega
          exact hold _ (hkh ▸ htaken)

/-! ## A request that wraps around -/

/-- A kernel that grants memory once. -/
def grantsOnce : Kernel := fun calls bytes =>
  if calls = [] ∧ bytes ≤ 2 ^ 36 then .granted 65536 else .failed (2 ^ 64 - 1)

theorem grantsOnce_granted {calls : List Call} {a : Nat} (h : grantsOnce calls n = .granted a) :
    calls = [] ∧ n ≤ 2 ^ 36 ∧ a = 65536 := by
  unfold grantsOnce at h
  split at h
  · rename_i hcond
    cases h
    exact ⟨hcond.1, hcond.2, rfl⟩
  · cases h

theorem grantsOnce_fresh : Fresh 4096 grantsOnce := by
  intro calls n a h
  obtain ⟨rfl, hn, rfl⟩ := grantsOnce_granted h
  exact ⟨by omega, by omega, fun x hx hx' => ⟨not_granted_nil, by omega⟩⟩

theorem grantsOnce_failed {calls : List Call} {v : Nat} (h : grantsOnce calls n = .failed v) :
    v = 2 ^ 64 - 1 := by
  unfold grantsOnce at h
  split at h
  · cases h
  · cases h
    rfl

theorem grantsOnce_endsAway : EndsAway 4096 grantsOnce := by
  intro calls n a h
  obtain ⟨-, -, rfl⟩ := grantsOnce_granted h
  omega

/-- The heap before the first call. -/
def unused : State := ⟨fun _ => 0, 0, []⟩

/-- A first request of 100 bytes. -/
theorem tbMalloc_usable_iff_sample : ∃ p s',
    Settles (fun fuel => tbMalloc 4096 grantsOnce fuel 100) unused (.ok (p, s')) ∧
      Reachable 4096 grantsOnce s' (if p = 0 then [] else [(p, 100)]) ∧
      (p ≠ 0 → (Usable s' [] p 100 ↔ 100 ≤ 2 ^ 64 - 16)) :=
  tbMalloc_usable_iff (by decide) (by decide) grantsOnce_fresh
    (fun _ _ _ => grantsOnce_failed) grantsOnce_endsAway (.start fun _ => 0) (by decide)

/-- A first request of 2^64 - 1 bytes returns a pointer, and none of the bytes is behind it. -/
theorem not_usable : ¬ ∀ (base : Nat) (kernel : Kernel), 0 < base → base + 16 ≤ 2 ^ 64 →
    Fresh base kernel → (∀ calls n v, kernel calls n = .failed v → v = 2 ^ 64 - 1) →
    ∀ (s : State) (live : List (Nat × Nat)), Reachable base kernel s live →
    ∀ nbytes < 2 ^ 64, ∃ p s',
      Settles (fun fuel => tbMalloc base kernel fuel nbytes) s (.ok (p, s')) ∧
        (p = 0 ∨ Usable s' live p nbytes) := by
  intro hall
  obtain ⟨p, s', hsettles, husable⟩ := hall 4096 grantsOnce (by decide) (by decide)
    grantsOnce_fresh (fun _ _ _ => grantsOnce_failed) unused [] (.start fun _ => 0) (2 ^ 64 - 1)
    (by decide)
  have hrun : ((tbMalloc 4096 grantsOnce 9 (2 ^ 64 - 1) unused).map
      fun r => (r.1, r.2.calls)) = .ok (131072, [⟨65536, .granted 65536⟩]) := by decide +kernel
  have hresult := StableAt.eq_of_settles (fun k => tbMalloc_stableAt k _) hsettles
    (fun hout : tbMalloc 4096 grantsOnce 9 (2 ^ 64 - 1) unused = _ => by
      rw [hout] at hrun
      cases hrun)
  rw [← hresult] at hrun
  have hpointer : p = 131072 ∧ s'.calls = [⟨65536, .granted 65536⟩] := by
    simpa [Except.map] using hrun
  obtain ⟨rfl, hcalls⟩ := hpointer
  rcases husable with hnull | husable
  · omega
  · have hfirst := husable.granted 131072 (by omega) (by omega)
    rw [hcalls] at hfirst
    revert hfirst
    decide

end Use

/-! ## Memory up to the header `base` -/

/-- A kernel that grants memory twice, the second time up to a header at 2^20. -/
def grantsBelow : Kernel := fun calls _ =>
  match calls with
  | [] => .granted (2 ^ 20 - 3 * 65536)
  | [_] => .granted (2 ^ 20 - 65536)
  | _ => .failed (2 ^ 64 - 1)

/-- Take and free two blocks that fill this memory, and take three. -/
def takeThree : HeapM (Nat × Nat) := do
  let first ← tbMalloc (2 ^ 20) grantsBelow 9 65520
  let second ← tbMalloc (2 ^ 20) grantsBelow 9 65520
  tbFree (2 ^ 20) 9 first
  tbFree (2 ^ 20) 9 second
  let _ ← tbMalloc (2 ^ 20) grantsBelow 9 65520
  let second ← tbMalloc (2 ^ 20) grantsBelow 9 65520
  let third ← tbMalloc (2 ^ 20) grantsBelow 9 65520
  return (second, third)

-- the second block takes over the header `base` when it is freed, which leaves the ring
example : (takeThree unused).map Prod.fst = .ok (851984, 851984) := by decide +kernel

end Heap

end ParchTestbench
