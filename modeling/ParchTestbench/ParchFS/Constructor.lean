import ParchTestbench.ParchFS.Root

/-!
# ParchFS: the constructor

Which symbol files the constructor accepts, and the volume it leaves behind.

Main results:

- Theorem `init_outcome`: on checked symbols the constructor builds the new volume or
  aborts.
- Theorem `initial_of_init`: it returns on accepted symbols only.
- Theorem `Initial.ownership`: when the reserve is marked from a block of the pool on,
  the blocks of the new volume are owned.
-/

namespace ParchTestbench

open ParchFS Program

variable {s t u : ParchFS} {env : Env}

/-- The first block behind the kernel, which the root directory takes. -/
def rootBlkNo (s : ParchFS) : Nat := pa2blkno s s.eKernel + 1

/-- The images and symbols that the constructor accepts. -/
structure Accepted (s : ParchFS) : Prop where
  checked : Checked s
  mapped : 0x80000000 ≤ s.mapped
  lt : rootBlkNo s < 524288
  lt_reserve : rootBlkNo s < reserveStart s
  ne_list : rootBlkNo s ≠ 0x7FDDE
  ne_mm : rootBlkNo s ≠ 0x7FFEE
  ne_fs : rootBlkNo s ≠ 0x7FFFE

/-- `u` is the volume that the constructor builds from `s`. -/
structure Initial (s u : ParchFS) : Prop where
  accepted : Accepted s
  memory : ∃ t v, Formatted (pa2blkno s s.eKernel) (reserveStart s) (managedLength s) s t ∧
    Fresh rootInode .DIR 256 3 t v ∧ u = v.withMem (rootMem v.mem (rootBlkNo s))

/-- The fields of the root, wherever its block lies. -/
theorem Initial.root_fields (h : Initial s u) :
    fileType u.mem rootInode = FType.DIR.code ∧ fileSize u.mem rootInode = 256 ∧
      linkCount u.mem rootInode = 3 := by
  obtain ⟨t, v, -, hv, rfl⟩ := h.memory
  have hfield : ∀ x, 0x7FDDE100 ≤ x → x < 0x7FDDE200 → x < 0x7FDDE114 ∨ 0x7FDDE118 ≤ x →
      rootMem v.mem (rootBlkNo s) x = v.mem x := fun x hx hx' hslot => by
    have hlist := h.accepted.ne_list
    exact rootMem_of_notMem h.accepted.lt (by omega) (by omega) (by omega) hslot
  rw [mem_withMem]
  refine ⟨?_, ?_, ?_⟩
  · rw [← hv.type_eq]
    exact Mem.load_congr fun x hx hx' => by
      simp only [INode.fType_eq, rootInode] at hx hx'
      exact hfield x (by omega) (by omega) (by omega)
  · rw [← hv.size_eq]
    exact Mem.load_congr fun x hx hx' => by
      simp only [INode.fSize_eq, rootInode] at hx hx'
      exact hfield x (by omega) (by omega) (by omega)
  · rw [← hv.links_eq]
    exact Mem.load_congr fun x hx hx' => by
      simp only [INode.hardLinkCount_eq, rootInode] at hx hx'
      exact hfield x (by omega) (by omega) (by omega)

/-- On checked symbols the constructor builds the new volume or aborts. -/
theorem init_outcome (hs : Checked s) (hmapped : 0x80000000 ≤ s.mapped)
    (he : pa2blkno s s.eKernel < 524288) :
    Outcome (init env) s (fun _ u => Initial s u)
      (fun e => ¬ Accepted s ∧ ((rootBlkNo s < reserveStart s → rootBlkNo s ≠ 0x7FDDE ∧
        rootBlkNo s ≠ 0x7FFEE ∧ rootBlkNo s ≠ 0x7FFFE) → e = blockBitmapFull)) := by
  unfold init
  refine Outcome.bind_ok hs.checkLayout_eq ?_
  refine Outcome.bind ((initMetadata_outcome hmapped hs he).mono ?_ fun _ he => he.elim)
  intro _ t ht
  have hmapped' : 0x80000000 ≤ t.mapped := by rwa [ht.state, mapped_withMem]
  by_cases hfree : rootBlkNo s < 524288 ∧ rootBlkNo s < reserveStart s
  · -- the first clear block is the one behind the kernel
    have hclear : fsBit t.mem (rootBlkNo s) = false := by
      rw [ht.fs _ hfree.1]
      exact decide_eq_false (by unfold rootBlkNo at hfree ⊢; omega)
    have hset : ∀ q, q < rootBlkNo s → fsBit t.mem q = true := fun q hq => by
      rw [ht.fs q (by omega)]
      exact decide_eq_true (by unfold rootBlkNo at hq; omega)
    refine Outcome.bind ((rootDir_outcome hmapped' ht.inodeBit_eq hfree.1 (Nat.succ_ne_zero _)
      hclear hset).mono ?_ ?_)
    · rintro _ u ⟨rfl, ⟨hlist, hmm, hfs⟩, v, hv, hu⟩
      refine Outcome.onlyIf (fun hc => absurd rfl hc) fun _ => ?_
      exact ⟨⟨hs, hmapped, hfree.1, hfree.2, hlist, hmm, hfs⟩, t, v, ht, hv, hu⟩
    · intro e hbad
      refine ⟨fun hacc => ?_, fun hne => ?_⟩
      · have h1 := hacc.ne_list
        have h2 := hacc.ne_mm
        have h3 := hacc.ne_fs
        omega
      · have hall := hne hfree.2
        omega
  · have hfull : ∀ q, q < 524288 → fsBit t.mem q = true := fun q hq => by
      rw [ht.fs q hq]
      exact decide_eq_true (by unfold rootBlkNo at hfree; omega)
    refine Outcome.bind ((rootDir_full hmapped' ht.inodeBit_eq hfull).mono
      (fun _ _ hc => hc.elim) ?_)
    exact fun e he => ⟨fun hacc => hfree ⟨hacc.lt, hacc.lt_reserve⟩, fun _ => he⟩

/-- The constructor returns on accepted symbols only, and builds the new volume. -/
theorem initial_of_init (hrun : init env s = .ok ((), u)) : Initial s u := by
  have hrun' := hrun
  unfold init at hrun'
  obtain ⟨_, t, hcheck, hrest⟩ := exists_of_bind_eq_ok hrun'
  obtain ⟨hs, rfl⟩ := checked_of_checkLayout hcheck
  obtain ⟨_, v, hmeta, hrest'⟩ := exists_of_bind_eq_ok hrest
  have hmapped := mapped_of_initMetadata hmeta
  by_cases he : pa2blkno t t.eKernel < 524288
  · exact (init_outcome hs hmapped he).of_ok hrun
  · -- every block is marked, so that the root finds none
    have hv : Overfull t v := (initMetadata_full hmapped (Nat.not_lt.mp he)).of_ok hmeta
    obtain ⟨_, w, hroot, -⟩ := exists_of_bind_eq_ok hrest'
    have hmapped' : 0x80000000 ≤ v.mapped := by rwa [hv.state, mapped_withMem]
    exact ((rootDir_full hmapped' hv.inodeBit_eq hv.full).of_ok hroot).elim

/-- Accepted symbols are accepted. -/
theorem exists_init (h : Accepted s) : ∃ u, init env s = .ok ((), u) ∧ Initial s u := by
  have hlt : pa2blkno s s.eKernel + 1 < 524288 := h.lt
  obtain ⟨⟨⟩, u, hrun, hu⟩ := ((init_outcome h.checked h.mapped (by omega)).mono
    (fun _ _ hu => hu) fun e he => he.1 h).exists_ok
  exact ⟨u, hrun, hu⟩

/-- The constructor reads the symbols and then runs its body. -/
theorem construct_ok {bin : MMAPBinContent} {lines : List (List Char)}
    (hrun : construct env bin lines = .ok u) :
    ∃ syms, Symbols.read env lines = .ok syms ∧ init env (ofSymbols bin syms) = .ok ((), u) := by
  obtain ⟨syms, hread, hbody⟩ := exists_of_except_ok hrun
  obtain ⟨r, hinit, hlast⟩ := exists_of_except_ok hbody
  cases hlast
  exact ⟨syms, hread, hinit⟩

theorem construct_eq {bin : MMAPBinContent} {lines : List (List Char)} {syms : Symbols}
    (hread : Symbols.read env lines = .ok syms)
    (hrun : init env (ofSymbols bin syms) = .ok ((), u)) : construct env bin lines = .ok u := by
  unfold construct
  rw [hread]
  show (init env (ofSymbols bin syms) >>= fun r => pure r.2 : Except Abort ParchFS) = .ok u
  rw [hrun]
  rfl

/-! ## The pool of a new volume -/

/-- The constructor formats the metadata and then makes the root. -/
theorem formatted_of_init (hrun : init env s = .ok ((), u)) :
    ∃ t no, Formatted (pa2blkno s s.eKernel) (reserveStart s) (managedLength s) s t ∧
      makeDir env rootInode [] t = .ok (no, u) := by
  have haccepted := (initial_of_init hrun).accepted
  have hlt : pa2blkno s s.eKernel + 1 < 524288 := haccepted.lt
  unfold init at hrun
  obtain ⟨_, t, hcheck, hrest⟩ := exists_of_bind_eq_ok hrun
  obtain ⟨hs, rfl⟩ := checked_of_checkLayout hcheck
  obtain ⟨_, v, hmeta, hrest'⟩ := exists_of_bind_eq_ok hrest
  obtain ⟨no, w, hroot, hlast⟩ := exists_of_bind_eq_ok hrest'
  have hformat := (initMetadata_outcome haccepted.mapped hs (by omega)).of_ok hmeta
  have hsame : w = u := by
    by_cases hno : no ≠ rootInode
    · rw [onlyIf_pos hno] at hlast
      cases hlast
    · rw [onlyIf_neg hno] at hlast
      cases hlast
      rfl
  exact ⟨v, no, hformat, hsame ▸ hroot⟩

/-- The end of the pool: the marked reserve, but at most the first page of the
metadata. -/
def poolEnd (s : ParchFS) : Nat := min (reserveStart s) 0x7FDDE

/-- On formatted metadata no inode but the unused one is taken, and no block. -/
theorem Formatted.ownership {e r len : Nat} (h : Formatted e r len s t)
    (hmapped : 0x80000000 ≤ s.mapped) (he : e < 0x7FDDE) :
    Ownership e (min r 0x7FDDE) 0 t := by
  have hzero : ∀ i, i ≤ 0 → ∀ σ : Slot, σ.Valid → slotVal t.mem i σ = 0 := fun i hi σ hσ =>
    slotVal_eq_zero (fun x hx hx' => h.table x (by rw [INode.addr_eq] at hx; omega)
      (by rw [INode.addr_eq] at hx'; omega)) hσ
  refine ⟨by rwa [h.state, mapped_withMem], min_le_right _ _, he, by omega, ?_, ?_, ?_, ?_, ?_,
    ?_, ?_⟩
  · intro no hno
    rw [h.inodeBit_eq no hno, decide_eq_true_iff]
    omega
  · intro b hb
    rw [h.mm b hb, h.fs b hb]
  · intro b hb hb'
    rw [h.fs b hb', decide_eq_true_iff]
    exact Or.inl hb
  · exact fun i hi σ hσ hv => absurd (hzero i hi σ hσ) hv
  · exact fun i hi σ hσ hv => absurd (hzero i hi σ hσ) hv
  · exact fun i j hi _ σ τ hσ _ hv _ => absurd (hzero i hi σ hσ) hv
  · intro b hb hb' hmarked
    rw [h.fs b (by omega), decide_eq_true_iff] at hmarked
    omega

/-- With the reserve marked from a block of the pool on, there are no blocks beyond
the pool. -/
theorem Formatted.closed {e r len : Nat} (h : Formatted e r len s t) (hr : r ≤ 0x7FDDE) :
    Closed (min r 0x7FDDE) t.mem := by
  intro b hb hb'
  rw [h.fs b hb', decide_eq_true_iff]
  omega

/-- The blocks of the pool are free. -/
theorem Formatted.freeCount {e r len : Nat} (h : Formatted e r len s t) :
    freeCount (min r 0x7FDDE) t.mem = min r 0x7FDDE - (e + 1) := by
  have hset : ((Finset.range (min r 0x7FDDE)).filter fun b => fsBit t.mem b = false) =
      Finset.Ico (e + 1) (min r 0x7FDDE) := by
    ext b
    rw [Finset.mem_filter, Finset.mem_range, Finset.mem_Ico]
    constructor
    · rintro ⟨hb, hclear⟩
      rw [h.fs b (by omega), decide_eq_false_iff_not] at hclear
      omega
    · rintro ⟨hb, hb'⟩
      refine ⟨hb', ?_⟩
      rw [h.fs b (by omega), decide_eq_false_iff_not]
      omega
  rw [ParchTestbench.freeCount, hset, Nat.card_Ico]

/-- `u` is a new volume whose blocks are owned: formatted, with the root as its only
directory. -/
structure Founded (lo hi : Nat) (s t v u : ParchFS) : Prop where
  formatted : Formatted lo (reserveStart s) (managedLength s) s t
  spawned : Spawned lo hi 0 .DIR 256 3 t v
  dotted : Dotted lo hi 1 1 1 v u

/-- The constructor founds a volume when the kernel ends below the metadata. -/
theorem founded_of_init (hrun : init env s = .ok ((), u))
    (he : pa2blkno s s.eKernel + 1 < 0x7FDDE) :
    ∃ t v, Founded (pa2blkno s s.eKernel) (poolEnd s) s t v u := by
  have haccepted := (initial_of_init hrun).accepted
  have hlt : pa2blkno s s.eKernel + 1 < reserveStart s := haccepted.lt_reserve
  obtain ⟨t, no, hformat, hroot⟩ := formatted_of_init hrun
  have hown := hformat.ownership haccepted.mapped (by omega)
  have hfree : 1 ≤ freeCount (min (reserveStart s) 0x7FDDE) t.mem := by
    rw [hformat.freeCount]
    omega
  obtain ⟨-, v, hv, hu⟩ := (makeRoot_outcome hown (Or.inr hfree)).of_ok hroot
  exact ⟨t, v, hformat, hv, hu⟩

end ParchTestbench
