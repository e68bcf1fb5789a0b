import ParchTestbench.ParchFS.Reachable

/-!
# ParchFS: filling a volume

The exact number of blocks that a run takes, for a root directory whose entries are
all files: what is free, what the root holds and what the files hold adds up to a
constant.  This gives runs that do return, up to the last block of the pool.

Main results:

- Theorem `card_neededSlots`: the blocks of a file below the double-indirect range.
- Theorem `Flat.makeFile`: a creation in the root returns while there is room.
- Theorem `Flat.write`: so does the first write to the new file.
-/

namespace ParchTestbench

open ParchFS Program

variable {lo hi k total spent off i : Nat} {base s t u : ParchFS} {name buf : List UInt8}
  {env : Env}

/-! ## The blocks of a file -/

/-- The number of blocks that a file takes up to offset `off`, index blocks included. -/
def blockCost (off : Nat) : Nat :=
  min 16 (off / 4096 + 1) + if off < 65536 then 0 else 1 + min 1024 ((off - 65536) / 4096 + 1)

theorem card_firstSlots {f : Nat → Slot} (hf : Function.Injective f) (n : Nat) :
    (firstSlots f n).card = n := by
  unfold firstSlots
  rw [Finset.card_image_of_injective _ hf, Finset.card_range]

/-- The blocks of a file below the double-indirect range. -/
theorem card_neededSlots (off : Nat) : (neededSlots off).card = blockCost off := by
  have hfield : Function.Injective Slot.field := fun a b hab => by
    simpa only [Slot.field.injEq] using hab
  have hentry : Function.Injective (Slot.entry (.field 16)) := fun a b hab => by
    simpa only [Slot.entry.injEq, true_and] using hab
  unfold neededSlots blockCost
  split
  · rw [Finset.union_empty, card_firstSlots hfield]
    rfl
  · have hindex : Disjoint ({.field 16} : Finset Slot)
        (firstSlots (.entry (.field 16)) (min 1024 ((off - 65536) / 4096 + 1))) := by
      rw [Finset.disjoint_singleton_left, mem_firstSlots]
      rintro ⟨l, -, hl⟩
      cases hl
    have hdirect : Disjoint (firstSlots .field (min 16 (off / 4096 + 1))) ({.field 16} ∪
        firstSlots (.entry (.field 16)) (min 1024 ((off - 65536) / 4096 + 1))) := by
      rw [Finset.disjoint_left]
      intro σ hσ hmem
      obtain ⟨l, hl, rfl⟩ := mem_firstSlots.mp hσ
      rcases Finset.mem_union.mp hmem with hone | hrest
      · rw [Finset.mem_singleton, Slot.field.injEq] at hone
        omega
      · obtain ⟨l', -, hl'⟩ := mem_firstSlots.mp hrest
        cases hl'
    rw [Finset.card_union_of_disjoint hdirect, Finset.card_union_of_disjoint hindex,
      card_firstSlots hfield, card_firstSlots hentry, Finset.card_singleton]

/-- Filling `T` when exactly the slots of `S` are filled takes the difference. -/
theorem emptySlots_add_card {m : Mem} {S T : Finset Slot} (hsub : S ⊆ T)
    (hfilled : ∀ σ ∈ S, slotVal m i σ ≠ 0)
    (hempty : ∀ σ ∈ T, σ ∉ S → slotVal m i σ = 0) : emptySlots m i T + S.card = T.card := by
  have hset : (T.filter fun σ => slotVal m i σ = 0) = T \ S := by
    ext σ
    rw [Finset.mem_filter, Finset.mem_sdiff]
    constructor
    · rintro ⟨hσ, hzero⟩
      exact ⟨hσ, fun hS => hfilled σ hS hzero⟩
    · rintro ⟨hσ, hS⟩
      exact ⟨hσ, hempty σ hσ hS⟩
  unfold emptySlots
  rw [hset]
  exact Finset.card_sdiff_add_card_eq_card hsub

/-! ## A root directory of files -/

/-- The volume holds a root with `k` files; the root's slots are those its size needs.
The blocks of the pool that are free, in the root, and `spent` on the files are `total`
together; the symbols and the bits beyond the pool are those of `base`. -/
structure Flat (lo hi total : Nat) (base : ParchFS) (spent k : Nat) (s : ParchFS) : Prop where
  owned : Ownership lo hi (k + 1) s
  state : s = base.withMem s.mem
  dir : fileType s.mem rootInode = FType.DIR.code
  size : fileSize s.mem rootInode = 128 * (k + 2)
  used : ∀ l, l < k + 2 → entryInode (content s.mem rootInode) l ≠ 0
  unused : ∀ l, k + 2 ≤ l → entryInode (content s.mem rootInode) l = 0
  filled : ∀ σ ∈ neededSlots (128 * (k + 2)), slotVal s.mem rootInode σ ≠ 0
  others : ∀ σ : Slot, σ.Valid → σ ∉ neededSlots (128 * (k + 2)) → slotVal s.mem rootInode σ = 0
  marks : ∀ b, hi ≤ b → b < 524288 → fsBit s.mem b = fsBit base.mem b
  budget : freeCount hi s.mem + blockCost (128 * (k + 2)) + spent = total

/-- Inode `i` has no block and no size. -/
structure Vacant (i : Nat) (s : ParchFS) : Prop where
  slots : ∀ σ : Slot, σ.Valid → slotVal s.mem i σ = 0
  size : fileSize s.mem i = 0

theorem blockCost_mono {off' : Nat} (h : off' ≤ off) : blockCost off' ≤ blockCost off := by
  rw [← card_neededSlots, ← card_neededSlots]
  exact Finset.card_le_card (neededSlots_mono h)

/-- A write that reaches the end of a file returns while there is room for all blocks of the
file, of which it takes the missing ones. -/
theorem Ownership.exists_write {last : Nat} (h : Ownership lo hi last s) (hi' : i ≤ last)
    (hend : off + buf.length < 4259840) (hsize : fileSize s.mem i ≤ off + buf.length)
    (hfree : blockCost (off + buf.length) ≤ freeCount hi s.mem) :
    ∃ u, INode.write i off buf s = .ok ((), u) ∧ Ownership lo hi last u ∧
      fileSize u.mem i = off + buf.length ∧
      freeCount hi s.mem ≤ freeCount hi u.mem + blockCost (off + buf.length) := by
  have hcost : emptySlots s.mem i (neededSlots (off + buf.length)) ≤
      blockCost (off + buf.length) := by
    rw [← card_neededSlots]
    exact Finset.card_filter_le _ _
  have hfits := hcost.trans hfree
  have hstep : Outcome (INode.write i off buf) s
      (fun _ u => Ownership lo hi last u ∧ fileSize u.mem i = off + buf.length ∧
        freeCount hi s.mem ≤ freeCount hi u.mem + blockCost (off + buf.length))
      (fun _ => False) := by
    refine (write_outcome_of_lt h hi' hend hsize (Or.inr hfits)).mono ?_ fun e he =>
      absurd he.2 (Nat.not_lt.mpr hfits)
    rintro _ u ⟨t, hfills, hwrite⟩
    have hcount := hfills.count
    have hkeep := hwrite.free_eq
    exact ⟨hwrite.owned, hwrite.size_eq.trans hfills.size, by omega⟩
  obtain ⟨⟨⟩, u, hrun, hu⟩ := hstep.exists_ok
  exact ⟨u, hrun, hu⟩

namespace Flat

/-- A creation in the root returns while there is room for the entry. -/
theorem makeFile (h : Flat lo hi total base spent k s) (env : Env) (hname : name.length ≤ 118)
    (hk : k + 1 < 8191) (hroom : blockCost (128 * (k + 3)) + spent ≤ total) :
    ∃ t, ParchFS.makeFile env rootInode name s = .ok (k + 2, t) ∧
      Flat lo hi total base spent (k + 1) t ∧ Vacant (k + 2) t := by
  have hstep : Outcome (ParchFS.makeFile env rootInode name) s
      (fun no t => no = k + 2 ∧ Flat lo hi total base spent (k + 1) t ∧ Vacant (k + 2) t)
      (fun _ => False) := by
    refine makeFile_spawn h.owned hk (by decide) (fun e hn => ?_) fun t _ ht => ?_
    · exact hn ⟨hname, by decide, Nat.succ_le_succ (Nat.zero_le k), h.dir⟩
    have hone : rootInode ≤ k + 1 := Nat.succ_le_succ (Nat.zero_le k)
    have hcontent := ht.content h.owned hone
    have hslots := ht.slots rootInode hone
    have hsize : fileSize t.mem rootInode = 128 * (k + 2) :=
      (ht.fileSize hk hone).trans h.size
    have hdir : fileType t.mem rootInode = FType.DIR.code :=
      (ht.fileType hk hone).trans h.dir
    have hfilled : ∀ σ ∈ neededSlots (128 * (k + 2)), slotVal t.mem rootInode σ ≠ 0 :=
      fun σ hσ => by
        rw [hslots σ (neededSlots_valid _ σ hσ)]
        exact h.filled σ hσ
    -- the entry takes the slots that the root lacks
    have hcost : emptySlots t.mem rootInode (neededSlots (128 * (k + 3))) +
        blockCost (128 * (k + 2)) = blockCost (128 * (k + 3)) := by
      rw [← card_neededSlots, ← card_neededSlots]
      refine emptySlots_add_card (neededSlots_mono (by omega)) hfilled fun σ hσ hnot => ?_
      rw [hslots σ (neededSlots_valid _ σ hσ)]
      exact h.others σ (neededSlots_valid _ σ hσ) hnot
    have hbudget := h.budget
    have hfree := ht.freeCount hk
    have hfits : emptySlots t.mem rootInode (neededSlots (128 * (k + 3))) ≤ freeCount hi t.mem := by
      omega
    refine (addDentry_outcome_of_lt (n := k + 2) ht.owned (hone.trans (Nat.le_succ _)) hdir
      (fun l hl => ?_) ?_ hsize.ge (fun _ => ⟨by omega, hsize.ge, hfilled⟩) (by omega)
      (Or.inr hfits)).mono ?_ fun e he => absurd he.2 (Nat.not_lt.mpr hfits)
    · rw [hcontent]
      exact h.used l hl
    · rw [hcontent]
      exact h.unused _ le_rfl
    · rintro _ w ⟨v, hv, hw⟩
      have hnew : k + 2 < 2 ^ 32 := by omega
      have hne : k + 2 ≠ rootInode := by
        simp only [rootInode]
        omega
      have htouch := hv.grows.toTouches.trans hw.touches
      have hwcontent : content w.mem rootInode =
          (content s.mem rootInode).copy (128 * (k + 2)) (fileEntry (k + 2) name).bytes := by
        rw [hw.content_eq, hv.grows.own, hcontent]
      have hwslots := hw.slots_eq rootInode (hone.trans (Nat.le_succ _))
      refine ⟨rfl, ⟨hw.owned, ?_, ?_, ?_, fun l hl => ?_, fun l hl => ?_, fun σ hσ => ?_,
        fun σ hσ hnot => ?_, fun b hb hb' => ?_, ?_⟩, ⟨fun σ hσ => ?_, ?_⟩⟩
      · rw [htouch.state, ht.state, h.state]
        rfl
      · rw [htouch.fileType (by decide), hdir]
      · rw [hw.size_eq, hv.size, hsize]
        omega
      · rw [hwcontent]
        rcases Nat.lt_succ_iff_lt_or_eq.mp hl with hold | rfl
        · rw [entryInode_copy_of_ne (by omega)]
          exact h.used l hold
        · rw [entryInode_copy_self hnew]
          exact Nat.succ_ne_zero _
      · rw [hwcontent, entryInode_copy_of_ne (by omega)]
        exact h.unused l (by omega)
      · rw [hwslots σ (neededSlots_valid _ σ hσ)]
        exact hv.filled σ hσ
      · rw [hwslots σ hσ, hv.others σ hσ hnot, hslots σ hσ]
        exact h.others σ hσ fun hmem => hnot (neededSlots_mono (by omega) hmem)
      · rw [htouch.marks b hb hb', ht.fsBit hb' hk, h.marks b hb hb']
      · have hcount := hv.count
        have hkeep := hw.free_eq
        rw [show k + 2 + 1 = k + 3 from rfl] at hcount
        rw [show k + 1 + 2 = k + 3 by omega]
        omega
      · rw [htouch.slots (k + 2) le_rfl σ hσ (Or.inl hne)]
        exact ht.empty σ hσ
      · rw [htouch.fileSize (by omega) hne]
        exact ht.size_eq
  obtain ⟨no, t, hrun, rfl, hflat, hvacant⟩ := hstep.exists_ok
  exact ⟨t, hrun, hflat, hvacant⟩

/-- The first write to an empty file returns while there is room for its blocks. -/
theorem write (h : Flat lo hi total base spent k s) (hi' : i ≤ k + 1) (hne : i ≠ rootInode)
    (hvacant : Vacant i s) (hlen : buf.length < 4259840)
    (hroom : blockCost (128 * (k + 2)) + spent + blockCost buf.length ≤ total) :
    ∃ t, INode.write i 0 buf s = .ok ((), t) ∧
      Flat lo hi total base (spent + blockCost buf.length) k t ∧
      fileSize t.mem i = buf.length := by
  have hlast := h.owned.last_lt
  have hone : rootInode ≤ k + 1 := Nat.succ_le_succ (Nat.zero_le k)
  have hcost : emptySlots s.mem i (neededSlots (0 + buf.length)) = blockCost buf.length := by
    have hall := emptySlots_add_card (i := i) (m := s.mem)
      (Finset.empty_subset (neededSlots (0 + buf.length)))
      (fun σ hσ => absurd hσ (Finset.notMem_empty σ))
      fun σ hσ _ => hvacant.slots σ (neededSlots_valid _ σ hσ)
    rw [Finset.card_empty, Nat.add_zero, card_neededSlots, Nat.zero_add] at hall
    rw [Nat.zero_add, hall]
  have hbudget := h.budget
  have hfits : emptySlots s.mem i (neededSlots (0 + buf.length)) ≤ freeCount hi s.mem := by omega
  have hstep : Outcome (INode.write i 0 buf) s
      (fun _ t => Flat lo hi total base (spent + blockCost buf.length) k t ∧
        fileSize t.mem i = buf.length) (fun _ => False) := by
    refine (write_outcome_of_lt h.owned hi' (by omega) (by rw [hvacant.size]; omega)
      (Or.inr hfits)).mono ?_ fun e he => absurd he.2 (Nat.not_lt.mpr hfits)
    rintro _ w ⟨v, hv, hw⟩
    have htouch := hv.grows.toTouches.trans hw.touches
    have hcontent := htouch.others rootInode hone (Ne.symm hne)
    have hslots := fun σ hσ => htouch.slots rootInode hone σ hσ (Or.inl (Ne.symm hne))
    refine ⟨⟨hw.owned, ?_, ?_, ?_, ?_, ?_, fun σ hσ => ?_, fun σ hσ hnot => ?_,
      fun b hb hb' => ?_, ?_⟩, ?_⟩
    · rw [htouch.state, h.state]
      rfl
    · rw [htouch.fileType (by decide), h.dir]
    · rw [htouch.fileSize (by decide) (Ne.symm hne), h.size]
    · rw [hcontent]
      exact h.used
    · rw [hcontent]
      exact h.unused
    · rw [hslots σ (neededSlots_valid _ σ hσ)]
      exact h.filled σ hσ
    · rw [hslots σ hσ]
      exact h.others σ hσ hnot
    · rw [htouch.marks b hb hb', h.marks b hb hb']
    · have hcount := hv.count
      have hkeep := hw.free_eq
      omega
    · rw [hw.size_eq, hv.size, Nat.zero_add]
  obtain ⟨⟨⟩, t, hrun, hflat, hsize⟩ := hstep.exists_ok
  exact ⟨t, hrun, hflat, hsize⟩

/-- A file is made in the root while there is room for its entry and its blocks. -/
theorem addFile (h : Flat lo hi total base spent k s) (env : Env) (hname : name.length ≤ 118)
    (hk : k + 1 < 8191) (hlen : buf.length < 4259840)
    (hroom : blockCost (128 * (k + 3)) + spent + blockCost buf.length ≤ total) :
    ∃ t u, ParchFS.makeFile env rootInode name s = .ok (k + 2, t) ∧
      getInode (k + 2) t = .ok (k + 2, t) ∧ INode.write (k + 2) 0 buf t = .ok ((), u) ∧
      Flat lo hi total base (spent + blockCost buf.length) (k + 1) u := by
  obtain ⟨t, hmake, hflat, hvacant⟩ := h.makeFile env hname hk (by omega)
  have hget := getInode_eq hflat.owned.mapped_ge (show k + 2 < 32768 by omega)
    ((hflat.owned.inodeBit_iff _ (by omega)).mpr le_rfl)
  have hne : k + 2 ≠ rootInode := by
    simp only [rootInode]
    omega
  obtain ⟨u, hwrite, hflat', -⟩ := hflat.write (show k + 2 ≤ k + 1 + 1 from le_rfl) hne hvacant hlen
    (by rwa [show k + 1 + 2 = k + 3 by omega])
  exact ⟨t, u, hmake, hget, hwrite, hflat'⟩

end Flat

/-! ## From the constructor on -/

/-- Two copied entries read back. -/
theorem entryInode_dots (no p l : Nat) (hno : no < 2 ^ 32) (hp : p < 2 ^ 32) :
    entryInode ((Mem.copy (fun _ => 0) 0 (dotEntry no).bytes).copy 128 (dotDotEntry p).bytes) l =
      if l = 0 then no else if l = 1 then p else 0 := by
  have hfirst : Mem.copy (fun _ => 0) 0 (dotEntry no).bytes =
      Mem.copy (fun _ => 0) (128 * 0) (dotEntry no).bytes := rfl
  have hsecond : ∀ m : Mem, m.copy 128 (dotDotEntry p).bytes =
      m.copy (128 * 1) (dotDotEntry p).bytes := fun _ => rfl
  rw [hfirst, hsecond]
  split
  · rename_i hl
    rw [entryInode_copy_of_ne (by omega), hl, entryInode_copy_self hno]
    rfl
  split
  · rename_i hl
    rw [hl, entryInode_copy_self hp]
    rfl
  · rw [entryInode_copy_of_ne (by omega), entryInode_copy_of_ne (by omega), entryInode_zero]

/-- A founded volume has no files yet. -/
theorem Founded.flat (h : Founded lo (poolEnd base) base s t u) :
    Flat lo (poolEnd base) (poolEnd base - (lo + 1)) u 0 0 u := by
  have hone : rootInode ≤ 0 + 1 := le_rfl
  have hlo := h.dotted.owned.lo_lt
  have hneeded : neededSlots (128 * (0 + 2)) = {.field 0} := neededSlots_of_lt (by omega)
  have hcost : blockCost (128 * (0 + 2)) = 1 := rfl
  have hvalue := fun l => entryInode_dots 1 1 l (by decide) (by decide)
  refine ⟨h.dotted.owned, rfl, ?_, h.dotted.size_eq, fun l hl => ?_, fun l hl => ?_, fun σ hσ => ?_,
    fun σ hσ hnot => ?_, fun _ _ _ => rfl, ?_⟩
  · rw [h.dotted.touches.fileType (by decide), ← h.spawned.type_eq]
    rfl
  · rw [show content u.mem rootInode = _ from h.dotted.content_eq, hvalue]
    rcases (show l = 0 ∨ l = 1 by omega) with rfl | rfl <;> decide
  · rw [show content u.mem rootInode = _ from h.dotted.content_eq, hvalue, if_neg (by omega),
      if_neg (by omega)]
  · rw [hneeded, Finset.mem_singleton] at hσ
    subst hσ
    exact (h.dotted.filled_iff _ (field_valid (by omega))).mpr rfl
  · rw [hneeded, Finset.mem_singleton] at hnot
    by_contra hv
    exact hnot ((h.dotted.filled_iff σ hσ).mp hv)
  · have hfree : freeCount (poolEnd base) s.mem = poolEnd base - (lo + 1) := h.formatted.freeCount
    have hspawn := h.spawned.freeCount (by omega)
    have hcount := h.dotted.count
    omega

/-- A run of `make_file` and `write` for a list of files, the first one with number
`no`. -/
inductive FilesMade (env : Env) : Nat → List (List UInt8 × List UInt8) → ParchFS → ParchFS → Prop
  | nil {no : Nat} {s : ParchFS} : FilesMade env no [] s s
  | cons {no : Nat} {name buf : List UInt8} {files : List (List UInt8 × List UInt8)}
      {s t u v : ParchFS} :
      makeFile env rootInode name s = .ok (no, t) → getInode no t = .ok (no, t) →
      INode.write no 0 buf t = .ok ((), u) → FilesMade env (no + 1) files u v →
      FilesMade env no ((name, buf) :: files) s v

namespace FilesMade

variable {no : Nat} {files files' : List (List UInt8 × List UInt8)}

theorem append (h : FilesMade env no files s t)
    (h' : FilesMade env (no + files.length) files' t u) :
    FilesMade env no (files ++ files') s u := by
  induction h with
  | nil => exact h'
  | cons hmake hget hwrite _ ih =>
      rw [List.length_cons, Nat.add_comm _ 1, ← Nat.add_assoc] at h'
      exact .cons hmake hget hwrite (ih h')

/-- The same files as a host directory. -/
def tree : List (List UInt8 × List UInt8) → HostDir
  | [] => .nil
  | (name, buf) :: files => .file name buf (tree files)

/-- Copying the host directory into the root is this run. -/
theorem makeFs_eq (h : FilesMade env no files s t) :
    makeFs env (tree files) rootInode s = .ok ((), t) := by
  induction h with
  | nil => rfl
  | cons hmake hget hwrite _ ih =>
      unfold tree makeFs
      rw [bind_eq_ok hmake, bind_eq_ok hget, bind_eq_ok hwrite]
      exact ih

/-- The same files as calls on the volume. -/
def ops (env : Env) : Nat → List (List UInt8 × List UInt8) → List Op
  | _, [] => []
  | no, (name, buf) :: files =>
      .makeFile env rootInode name :: .write no 0 buf :: ops env (no + 1) files

theorem ops_append : ops env no (files ++ files') =
    ops env no files ++ ops env (no + files.length) files' := by
  induction files generalizing no with
  | nil => rfl
  | cons p files ih =>
      have hnext := @ih (no + 1)
      rw [Nat.add_assoc, Nat.add_comm 1] at hnext
      show _ :: _ :: ops env (no + 1) (files ++ files') = _
      rw [hnext]
      rfl

theorem creations_ops : creations (ops env no files) = files.length := by
  induction files generalizing no with
  | nil => rfl
  | cons p files ih =>
      have hsplit : ops env no (p :: files) =
          [.makeFile env rootInode p.1, .write no 0 p.2] ++ ops env (no + 1) files := rfl
      have htwo : creations [.makeFile env rootInode p.1, .write no 0 p.2] = 1 := rfl
      rw [hsplit, creations_append, htwo, ih, List.length_cons, Nat.add_comm]

theorem wellTyped_ops (hlen : ∀ p ∈ files, p.2.length < 2 ^ 64)
    (hno : no + files.length ≤ 8192) : ∀ op ∈ ops env no files, op.WellTyped := by
  induction files generalizing no with
  | nil =>
      intro op hop
      cases hop
  | cons p files ih =>
      rw [List.length_cons] at hno
      intro op hop
      rcases List.mem_cons.mp hop with rfl | hop
      · exact show rootInode < 8192 by decide
      rcases List.mem_cons.mp hop with rfl | hop
      · exact ⟨by omega, by norm_num, hlen p List.mem_cons_self⟩
      · exact ih (fun q hq => hlen q (List.mem_cons_of_mem _ hq)) (by omega) op hop

/-- Making these calls is this run. -/
theorem runAll_eq (h : FilesMade env no files s t) :
    runAll Op.exec (ops env no files) s = .ok ((), t) := by
  induction h with
  | nil => rfl
  | @cons no name buf files s t u v hmake hget hwrite _ ih =>
      have hfirst : (Op.makeFile env rootInode name).exec s = .ok ((), t) := bind_eq_ok hmake
      have hsecond : (Op.write no 0 buf).exec t = .ok ((), u) := (bind_eq_ok hget).trans hwrite
      unfold ops runAll
      rw [bind_eq_ok hfirst]
      unfold runAll
      rw [bind_eq_ok hsecond]
      exact ih

end FilesMade

end ParchTestbench
