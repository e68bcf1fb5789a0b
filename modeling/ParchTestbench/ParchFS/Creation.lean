import ParchTestbench.ParchFS.Directory
import ParchTestbench.ParchFS.Volume

/-!
# ParchFS: creating inodes

`make_file` and `make_dir` take the first free inode, fill in its fields, and
store entries.  This file follows the two calls on a volume whose blocks are
owned.

Main results:

- Theorem `Ownership.extend`: a zeroed inode joins the invariant.
- Theorems `fresh_outcome` and `spawn_outcome`: the first steps of a creation.
- Theorems `makeFile_outcome` and `makeDir_outcome`: with a directory as parent
  and a name that fits, the calls return the next inode or stop with a full block
  bitmap.
-/

namespace ParchTestbench

open ParchFS Program

variable {lo hi last i p no : Nat} {s t u : ParchFS}

/-- `hard_link_count` of inode `i`. -/
def linkCount (m : Mem) (i : Nat) : Nat := m.load (INode.hardLinkCount i) 4

/-! ## What a creation hands out -/

/-- What `make_file` returns is what `alloc_inode` hands out. -/
theorem allocInode_of_makeFile {env : Env} {name : List UInt8}
    (hrun : makeFile env p name s = .ok (no, t)) :
    ∃ v, allocInode s = .ok (no, v) := by
  obtain ⟨_, hget⟩ := ReadOnly.exists_of_bind (assert_readOnly _) hrun
  obtain ⟨_, hused⟩ := ReadOnly.exists_of_bind (bitmapGet_readOnly _ _) hget
  obtain ⟨_, hparent⟩ := ReadOnly.exists_of_bind (assert_readOnly _) hused
  obtain ⟨_, halloc⟩ := ReadOnly.exists_of_bind (assert_readOnly _) hparent
  obtain ⟨next, v, hnext, hinode⟩ := exists_of_bind_eq_ok halloc
  -- the steps that follow do not change the number
  obtain ⟨_, _, -, hinit⟩ := exists_of_bind_eq_ok hinode
  obtain ⟨_, _, -, hfind⟩ := exists_of_bind_eq_ok hinit
  obtain ⟨_, _, -, htype⟩ := exists_of_bind_eq_ok hfind
  obtain ⟨_, _, -, hdir⟩ := exists_of_bind_eq_ok htype
  obtain ⟨_, _, -, hentry⟩ := exists_of_bind_eq_ok hdir
  obtain ⟨_, _, -, hreturn⟩ := exists_of_bind_eq_ok hentry
  cases hreturn
  exact ⟨v, hnext⟩

/-- What `make_dir` returns is what `alloc_inode` hands out. -/
theorem allocInode_of_makeDir {env : Env} {name : List UInt8}
    (hrun : makeDir env p name s = .ok (no, t)) :
    ∃ v, allocInode s = .ok (no, v) := by
  obtain ⟨_, hparent⟩ := ReadOnly.exists_of_bind (assert_readOnly _) hrun
  obtain ⟨_, halloc⟩ := ReadOnly.exists_of_bind (assert_readOnly _) hparent
  obtain ⟨next, v, hnext, hinode⟩ := exists_of_bind_eq_ok halloc
  obtain ⟨_, _, -, hinit⟩ := exists_of_bind_eq_ok hinode
  obtain ⟨_, _, -, hdot⟩ := exists_of_bind_eq_ok hinit
  obtain ⟨_, _, -, hdotDot⟩ := exists_of_bind_eq_ok hdot
  obtain ⟨_, _, -, hrest⟩ := exists_of_bind_eq_ok hdotDot
  split at hrest
  · obtain ⟨_, _, -, hreturn⟩ := exists_of_bind_eq_ok hrest
    cases hreturn
    exact ⟨v, hnext⟩
  · obtain ⟨_, _, -, hentry⟩ := exists_of_bind_eq_ok hrest
    obtain ⟨_, _, -, hreturn⟩ := exists_of_bind_eq_ok hentry
    cases hreturn
    exact ⟨v, hnext⟩

/-! ## A fresh inode -/

/-- An inode without block numbers has no block. -/
theorem slotVal_eq_zero {m : Mem}
    (hzero : ∀ x, INode.addr i + 20 ≤ x → x < INode.addr i + 92 → m x = 0) {σ : Slot}
    (hσ : σ.Valid) : slotVal m i σ = 0 := by
  induction σ with
  | field k =>
      have hk : k < 18 := hσ
      exact Mem.load_eq_zero fun x hx hx' => hzero x (by omega) (by omega)
  | entry q k ih => exact slotVal_entry_of_zero (ih hσ.1)

/-- A zeroed inode joins the invariant. -/
theorem Ownership.extend (h : Ownership lo hi last s) (hlast : last < 8191) (t : ParchFS)
    (hmapped : t.mapped = s.mapped)
    (hframe : ∀ x, x < INode.addr (last + 1) ∨ INode.addr (last + 1) + 256 ≤ x →
      x < 0x7FFDE000 ∨ 0x7FFDF000 ≤ x → x < 0x7FFFF000 → t.mem x = s.mem x)
    (hbit : ∀ no, no < 32768 →
      inodeBit t.mem no = (decide (no = last + 1) || inodeBit s.mem no))
    (hzero : ∀ x, INode.addr (last + 1) + 20 ≤ x → x < INode.addr (last + 1) + 92 →
      t.mem x = 0) :
    Ownership lo hi (last + 1) t ∧
      (∀ j, j ≤ last → ∀ σ : Slot, σ.Valid → slotVal t.mem j σ = slotVal s.mem j σ) ∧
      ∀ σ : Slot, σ.Valid → slotVal t.mem (last + 1) σ = 0 := by
  have hpool := h.pool_below_metadata
  have hslots : ∀ j, j ≤ last → ∀ σ : Slot, σ.Valid → slotVal t.mem j σ = slotVal s.mem j σ := by
    intro j hj σ hσ
    refine slotVal_congr (fun x hx hx' => ?_) (fun q hq hidx hqv x hx hx' => ?_) hσ
    · rw [INode.addr_eq] at hx hx'
      exact hframe x (by rw [INode.addr_eq]; omega) (by omega) (by omega)
    · obtain ⟨-, hqhi⟩ := h.in_pool j hj q hq hqv
      exact hframe x (by rw [INode.addr_eq]; omega) (by omega) (by omega)
  have hnew : ∀ σ : Slot, σ.Valid → slotVal t.mem (last + 1) σ = 0 :=
    fun σ hσ => slotVal_eq_zero hzero hσ
  have hold : ∀ j, j ≤ last + 1 → ∀ σ : Slot, σ.Valid → slotVal t.mem j σ ≠ 0 →
      j ≤ last ∧ slotVal t.mem j σ = slotVal s.mem j σ := by
    intro j hj σ hσ hv
    rcases Nat.lt_or_ge last j with hlt | hge
    · have hj' : j = last + 1 := by omega
      subst hj'
      exact absurd (hnew σ hσ) hv
    · exact ⟨hge, hslots j hge σ hσ⟩
  have hfs : ∀ b, b < 524288 → fsBit t.mem b = fsBit s.mem b := fun b hb =>
    fsBit_congr hb fun x hx hx' => hframe x (by rw [INode.addr_eq]; omega) (by omega) hx'
  have hmm : ∀ b, b < 524288 → mmBit t.mem b = mmBit s.mem b := fun b hb =>
    mmBit_congr hb fun x hx hx' => hframe x (by rw [INode.addr_eq]; omega) (by omega) (by omega)
  refine ⟨⟨hmapped ▸ h.mapped_ge, hpool, h.lo_lt, by omega, ?_, ?_, ?_, ?_, ?_, ?_, ?_⟩, hslots,
    hnew⟩
  · intro no hno
    have hiff := h.inodeBit_iff no hno
    rw [hbit no hno, Bool.or_eq_true, decide_eq_true_iff, hiff]
    omega
  · intro b hb
    rw [hfs b hb, hmm b hb, h.mmBit_eq b hb]
  · intro b hb hb'
    rw [hfs b hb', h.low_marked b hb hb']
  · intro j hj σ hσ hv
    obtain ⟨hj', heq⟩ := hold j hj σ hσ hv
    rw [heq] at hv ⊢
    exact h.in_pool j hj' σ hσ hv
  · intro j hj σ hσ hv
    obtain ⟨hj', heq⟩ := hold j hj σ hσ hv
    rw [heq] at hv ⊢
    obtain ⟨-, hlt⟩ := h.in_pool j hj' σ hσ hv
    rw [hfs _ (by omega), h.marked j hj' σ hσ hv]
  · intro j j' hj hj' σ τ hσ hτ hv heq
    obtain ⟨hjl, hjeq⟩ := hold j hj σ hσ hv
    obtain ⟨hjl', hjeq'⟩ := hold j' hj' τ hτ (heq ▸ hv)
    rw [hjeq] at hv heq
    rw [hjeq'] at heq
    exact h.unique j j' hjl hjl' σ τ hσ hτ hv heq
  · intro b hb hb' hmarked
    rw [hfs b (by omega)] at hmarked
    obtain ⟨j, σ, hj, hσ, hv⟩ := h.no_leak b hb hb' hmarked
    exact ⟨j, σ, by omega, hσ, by rw [hslots j hj σ hσ, hv]⟩

/-- From `s` to `t` inode `last + 1` has been taken and its fields filled in. -/
structure Spawned (lo hi last : Nat) (ty : FType) (size links : Nat) (s t : ParchFS) : Prop where
  owned : Ownership lo hi (last + 1) t
  state : t = s.withMem t.mem
  frame : ∀ x, x < INode.addr (last + 1) ∨ INode.addr (last + 1) + 256 ≤ x →
    x < 0x7FFDE000 ∨ 0x7FFDF000 ≤ x → x < 0x7FFFF118 ∨ 0x7FFFF120 ≤ x → t.mem x = s.mem x
  slots : ∀ j, j ≤ last → ∀ σ : Slot, σ.Valid → slotVal t.mem j σ = slotVal s.mem j σ
  empty : ∀ σ : Slot, σ.Valid → slotVal t.mem (last + 1) σ = 0
  counter : t.mem.load SuperBlock.freeInode 8 =
    (s.mem.load SuperBlock.freeInode 8 + (2 ^ 64 - 1)) % 2 ^ 64
  type_eq : fileType t.mem (last + 1) = ty.code
  size_eq : fileSize t.mem (last + 1) = size
  links_eq : linkCount t.mem (last + 1) = links

/-- The stores of `initInode` stay in the inode and off its block numbers. -/
theorem initInode_outcome {env : Env} {ty : FType} {size links : Nat}
    (hmapped : 0x80000000 ≤ s.mapped) (hno : no < 8192) (hsize : size < 2 ^ 64)
    (hlinks : links < 2 ^ 32) :
    Outcome (initInode env no ty size links) s
      (fun _ t => t = s.withMem t.mem ∧
        (∀ x, x < INode.addr no ∨ INode.addr no + 20 ≤ x ∧ x < INode.addr no + 92 ∨
          INode.addr no + 256 ≤ x → t.mem x = s.mem x) ∧
        fileType t.mem no = ty.code ∧ fileSize t.mem no = size ∧ linkCount t.mem no = links)
      (fun _ => False) := by
  unfold initInode
  refine Outcome.bind_ok (store_eq (by rw [INode.permission_eq]; omega)) ?_
  refine Outcome.bind_ok (store_eq (by rw [INode.fType_eq, mapped_withMem]; omega)) ?_
  refine Outcome.bind_ok (store_eq (by rw [INode.uid_eq]; simp only [mapped_withMem]; omega)) ?_
  refine Outcome.bind_ok (store_eq (by rw [INode.gid_eq]; simp only [mapped_withMem]; omega)) ?_
  refine Outcome.bind_ok (store_eq (by rw [INode.fSize_eq]; simp only [mapped_withMem]; omega)) ?_
  refine Outcome.bind_ok
    (store_eq (by rw [INode.accessTime_eq]; simp only [mapped_withMem]; omega)) ?_
  refine Outcome.bind_ok
    (store_eq (by rw [INode.changeTime_eq]; simp only [mapped_withMem]; omega)) ?_
  refine Outcome.bind_ok
    (store_eq (by rw [INode.createTime_eq]; simp only [mapped_withMem]; omega)) ?_
  refine Outcome.bind_ok (store_eq (by rw [INode.flags_eq]; simp only [mapped_withMem]; omega)) ?_
  refine Outcome.of_eq_ok
    (store_eq (by rw [INode.hardLinkCount_eq]; simp only [mapped_withMem]; omega)) ?_
  simp only [mem_withMem, withMem_withMem]
  simp only [fileType, fileSize, linkCount, INode.addr_eq, INode.permission_eq, INode.fType_eq,
    INode.uid_eq, INode.gid_eq, INode.fSize_eq, INode.accessTime_eq, INode.changeTime_eq,
    INode.createTime_eq, INode.flags_eq, INode.hardLinkCount_eq]
  refine ⟨trivial, fun x hx => ?_, ?_, ?_, ?_⟩
  · iterate 10 rw [Mem.store_of_notMem (by omega)]
  · iterate 8 rw [Mem.load_store_of_disjoint (by omega)]
    exact Mem.load_store_of_lt (by cases ty <;> decide)
  · iterate 5 rw [Mem.load_store_of_disjoint (by omega)]
    exact Mem.load_store_of_lt (by omega)
  · exact Mem.load_store_of_lt (by omega)

/-- From `s` to `t` inode `no` has been taken and its fields filled in, whatever the
state of the blocks. -/
structure Fresh (no : Nat) (ty : FType) (size links : Nat) (s t : ParchFS) : Prop where
  state : t = s.withMem t.mem
  frame : ∀ x, x < INode.addr no ∨ INode.addr no + 256 ≤ x →
    x < 0x7FFDE000 ∨ 0x7FFDF000 ≤ x → x < 0x7FFFF118 ∨ 0x7FFFF120 ≤ x → t.mem x = s.mem x
  zero : ∀ x, INode.addr no + 20 ≤ x → x < INode.addr no + 92 → t.mem x = 0
  inodeBit_eq : ∀ q, q < 32768 → inodeBit t.mem q = (decide (q = no) || inodeBit s.mem q)
  counter : t.mem.load SuperBlock.freeInode 8 =
    (s.mem.load SuperBlock.freeInode 8 + (2 ^ 64 - 1)) % 2 ^ 64
  type_eq : fileType t.mem no = ty.code
  size_eq : fileSize t.mem no = size
  links_eq : linkCount t.mem no = links

/-- Both creations start by taking the first free inode. -/
theorem fresh_outcome {α : Type} {env : Env} {ty : FType} {size links : Nat}
    {rest : Nat → Nat → ParchM α} {Q : α → ParchFS → Prop} {E : Abort → Prop}
    (hmapped : 0x80000000 ≤ s.mapped) (hno : no < 8192) (hclear : inodeBit s.mem no = false)
    (hset : ∀ q, q < no → inodeBit s.mem q = true) (hsize : size < 2 ^ 64)
    (hlinks : links < 2 ^ 32)
    (hrest : ∀ t, Fresh no ty size links s t → Outcome (rest no no) t Q E) :
    Outcome (do
      let no ← allocInode
      let inode ← getInode no
      initInode env inode ty size links
      rest no inode) s Q E := by
  have hbit := fun q hq => inodeBit_allocInodeMem (m := s.mem) hno (q := q) hq
  refine Outcome.bind_ok (allocInode_eq hmapped (by omega) hclear hset) ?_
  refine Outcome.bind_ok (getInode_eq (by rwa [mapped_withMem]) (by omega) ?_) ?_
  · rw [mem_withMem, hbit _ (by omega)]
    simp
  refine Outcome.bind ((initInode_outcome (by rwa [mapped_withMem]) hno hsize hlinks).mono ?_
    fun _ he => he.elim)
  rintro _ t ⟨hstate, hkeep, htype, hfsize, hlink⟩
  rw [mem_withMem] at hkeep
  rw [withMem_withMem] at hstate
  refine hrest t ⟨hstate, ?_, ?_, ?_, ?_, htype, hfsize, hlink⟩
  · intro x hx hx' hx''
    rw [hkeep x (by omega), allocInodeMem_of_notMem hno hx hx' hx'']
  · intro x hx hx'
    rw [hkeep x (by omega)]
    exact allocInodeMem_of_mem (by omega) (by omega)
  · intro q hq
    rw [← hbit q hq]
    exact inodeBit_congr hq fun x hx hx' => hkeep x (by rw [INode.addr_eq]; omega)
  · rw [← freeInode_allocInodeMem hno]
    exact Mem.load_congr fun x hx hx' => hkeep x (by
      rw [SuperBlock.freeInode_eq] at hx
      rw [INode.addr_eq]
      omega)

/-- On a volume whose blocks are owned, the first free inode is `last + 1`. -/
theorem spawn_outcome {α : Type} {env : Env} {ty : FType} {size links : Nat}
    {rest : Nat → Nat → ParchM α} {Q : α → ParchFS → Prop} {E : Abort → Prop}
    (h : Ownership lo hi last s) (hlast : last < 8191) (hsize : size < 2 ^ 64)
    (hlinks : links < 2 ^ 32)
    (hrest : ∀ t, Spawned lo hi last ty size links s t →
      Outcome (rest (last + 1) (last + 1)) t Q E) :
    Outcome (do
      let no ← allocInode
      let inode ← getInode no
      initInode env inode ty size links
      rest no inode) s Q E := by
  have hclear : inodeBit s.mem (last + 1) = false := by
    refine Bool.eq_false_of_not_eq_true fun hset => ?_
    have hle := (h.inodeBit_iff (last + 1) (by omega)).mp hset
    omega
  refine fresh_outcome h.mapped_ge (by omega) hclear
    (fun q hq => (h.inodeBit_iff q (by omega)).mpr (by omega)) hsize hlinks fun t ht => ?_
  obtain ⟨hown, hslots, hempty⟩ := h.extend hlast t (by rw [ht.state, mapped_withMem])
    (fun x hx hx' hx'' => ht.frame x hx hx' (by omega)) ht.inodeBit_eq ht.zero
  exact hrest t ⟨hown, ht.state, ht.frame, hslots, hempty, ht.counter, ht.type_eq, ht.size_eq,
    ht.links_eq⟩

namespace Spawned

variable {ty : FType} {size links : Nat}

theorem mapped (h : Spawned lo hi last ty size links s t) : t.mapped = s.mapped := by
  rw [h.state, mapped_withMem]

/-- The memory below the inode table is as before. -/
theorem low (h : Spawned lo hi last ty size links s t) {x : Nat} (hx : x < 0x7FDDE000) :
    t.mem x = s.mem x :=
  h.frame x (by rw [INode.addr_eq]; omega) (by omega) (by omega)

/-- The inodes taken before keep their 256 bytes. -/
theorem inode (h : Spawned lo hi last ty size links s t) {j x : Nat} (hj : j ≤ last)
    (hlast : last < 8191) (hx : INode.addr j ≤ x) (hx' : x < INode.addr j + 256) :
    t.mem x = s.mem x := by
  rw [INode.addr_eq] at hx hx'
  exact h.frame x (by rw [INode.addr_eq]; omega) (by omega) (by omega)

theorem fsBit (h : Spawned lo hi last ty size links s t) {b : Nat} (hb : b < 524288)
    (hlast : last < 8191) : fsBit t.mem b = fsBit s.mem b :=
  fsBit_congr hb fun x hx hx' => h.frame x (by rw [INode.addr_eq]; omega) (by omega) (by omega)

theorem closed (h : Spawned lo hi last ty size links s t) (hlast : last < 8191)
    (hclosed : Closed hi s.mem) : Closed hi t.mem := by
  intro b hb hb'
  rw [h.fsBit hb' hlast, hclosed b hb hb']

theorem freeCount (h : Spawned lo hi last ty size links s t) (hlast : last < 8191) :
    freeCount hi t.mem = freeCount hi s.mem := by
  have hpool := h.owned.pool_below_metadata
  exact freeCount_congr (by omega) fun x hx hx' =>
    h.frame x (by rw [INode.addr_eq]; omega) (by omega) (by omega)

theorem room (h : Spawned lo hi last ty size links s t) (hlast : last < 8191) {k : Nat}
    (hroom : Room hi k s.mem) : Room hi k t.mem :=
  hroom.imp (h.closed hlast) fun hle => by rwa [h.freeCount hlast]

/-- The contents of the inodes taken before are as before. -/
theorem content (h : Spawned lo hi last ty size links s t) (hs : Ownership lo hi last s) {j : Nat}
    (hj : j ≤ last) : content t.mem j = content s.mem j := by
  have hpool := hs.pool_below_metadata
  refine content_congr (h.slots j hj) fun k hk hv x hx hx' => ?_
  obtain ⟨-, hhi⟩ := hs.in_pool j hj _ (dataSlot_valid hk) hv
  exact h.low (by rw [fileBlk] at hx'; omega)

/-- A fresh inode has no contents. -/
theorem content_new (h : Spawned lo hi last ty size links s t) :
    ParchTestbench.content t.mem (last + 1) = fun _ => 0 := by
  funext o
  by_cases hk : o / 4096 < 1049616
  · exact content_of_unmapped (h.empty _ (dataSlot_valid hk))
  · exact content_of_ge (by omega)

theorem fileSize (h : Spawned lo hi last ty size links s t) (hlast : last < 8191) {j : Nat}
    (hj : j ≤ last) : fileSize t.mem j = fileSize s.mem j :=
  Mem.load_congr fun x hx hx' => h.inode hj hlast
    (by rw [INode.fSize_eq] at hx; rw [INode.addr_eq]; omega)
    (by rw [INode.fSize_eq] at hx'; rw [INode.addr_eq]; omega)

theorem fileType (h : Spawned lo hi last ty size links s t) (hlast : last < 8191) {j : Nat}
    (hj : j ≤ last) : fileType t.mem j = fileType s.mem j :=
  Mem.load_congr fun x hx hx' => h.inode hj hlast
    (by rw [INode.fType_eq] at hx; rw [INode.addr_eq]; omega)
    (by rw [INode.fType_eq] at hx'; rw [INode.addr_eq]; omega)

theorem linkCount (h : Spawned lo hi last ty size links s t) (hlast : last < 8191) {j : Nat}
    (hj : j ≤ last) : linkCount t.mem j = linkCount s.mem j :=
  Mem.load_congr fun x hx hx' => h.inode hj hlast
    (by rw [INode.hardLinkCount_eq] at hx; rw [INode.addr_eq]; omega)
    (by rw [INode.hardLinkCount_eq] at hx'; rw [INode.addr_eq]; omega)

end Spawned

/-! ## Files -/

/-- The arguments of a creation: a name that fits and a directory as parent. -/
structure ValidParent (last : Nat) (m : Mem) (p : Nat) (name : List UInt8) : Prop where
  name_le : name.length ≤ 118
  ne_zero : p ≠ 0
  le_last : p ≤ last
  dir : fileType m p = FType.DIR.code

/-- `make_file` up to its `add_dentry`. -/
theorem makeFile_spawn {env : Env} {name : List UInt8} {Q : Nat → ParchFS → Prop}
    {E : Abort → Prop} (h : Ownership lo hi last s) (hlast : last < 8191) (hp : p < 8192)
    (hinvalid : ∀ e, ¬ ValidParent last s.mem p name → E e)
    (hrest : ∀ t, ValidParent last s.mem p name → Spawned lo hi last .REGULAR 0 1 s t →
      Outcome (INode.addDentry p (fileEntry (last + 1) name)) t (fun _ u => Q (last + 1) u) E) :
    Outcome (makeFile env p name) s Q E := by
  have hmapped := h.mapped_ge
  have hget : INodeBitmap.get p s = .ok (inodeBit s.mem p, s) :=
    Bitmap.get_eq (by omega) (by simp only [inodeBitmap]; omega)
  unfold makeFile
  refine assert_outcome (fun hname => ?_) fun hn => hinvalid _ fun hv => hn hv.name_le
  refine Outcome.bind_ok hget ?_
  refine assert_outcome (fun hused => ?_) fun hn => hinvalid _ fun hv =>
    hn ((h.inodeBit_iff p (by omega)).mpr hv.le_last)
  have hle := (h.inodeBit_iff p (by omega)).mp hused
  refine assert_outcome (fun hne => ?_) fun hn => hinvalid _ fun hv => hn hv.ne_zero
  refine spawn_outcome h hlast (by omega) (by omega) fun t ht => ?_
  have hused' := (ht.owned.inodeBit_iff p (by omega)).mpr (by omega)
  refine Outcome.bind_ok (getInode_eq ht.owned.mapped_ge (by omega) hused') ?_
  refine Outcome.bind_ok (load_fType ht.owned (by omega)) ?_
  rw [ht.fileType hlast hle]
  refine assert_outcome (fun hdir => ?_) fun hn => hinvalid _ fun hv => hn hv.dir
  refine Outcome.bind ((hrest t ⟨hname, hne, hle, hdir⟩ ht).mono ?_ fun _ he => he)
  exact fun _ u hu => Outcome.pure hu

/-- `make_file` with a directory as parent returns the next inode, or stops with a
full block bitmap. -/
theorem makeFile_outcome {env : Env} {name : List UInt8} (h : Ownership lo hi last s)
    (hclosed : Closed hi s.mem) (hlast : last < 8191) (hp : p < 8192) :
    Outcome (makeFile env p name) s
      (fun no u => no = last + 1 ∧ ValidParent last s.mem p name ∧
        ∃ t j, Spawned lo hi last .REGULAR 0 1 s t ∧
          Added lo hi (last + 1) p 0 j (fileEntry (last + 1) name) t u)
      (fun e => ValidParent last s.mem p name → e = blockBitmapFull) := by
  refine makeFile_spawn h hlast hp (fun e hn hv => absurd hv hn) fun t hv ht => ?_
  have hle := hv.le_last
  refine (addDentry_outcome ht.owned (ht.closed hlast hclosed) (by omega) ?_).mono ?_
    fun e he _ => he
  · rw [ht.fileType hlast hle, hv.dir]
  · rintro _ u ⟨j, hj⟩
    exact ⟨rfl, hv, t, j, ht, hj⟩

/-! ## Directories -/

/-- From `t` to `u` the fresh directory `n` has been given its entries `.` and
`..`. -/
structure Dotted (lo hi last n p : Nat) (t u : ParchFS) : Prop where
  owned : Ownership lo hi last u
  touches : Touches lo hi last n t u
  content_eq : content u.mem n = (Mem.copy (fun _ => 0) 0 (dotEntry n).bytes).copy 128
    (dotDotEntry p).bytes
  size_eq : fileSize u.mem n = 256
  filled_iff : ∀ σ : Slot, σ.Valid → (slotVal u.mem n σ ≠ 0 ↔ σ = .field 0)
  count : freeCount hi t.mem = freeCount hi u.mem + 1

/-- The two first entries of a fresh directory need one block. -/
theorem addDots_outcome (h : Ownership lo hi last t) (hn : i ≤ last) (hne : i ≠ 0)
    (hdir : fileType t.mem i = FType.DIR.code) (hsize : fileSize t.mem i = 256)
    (hempty : ∀ σ : Slot, σ.Valid → slotVal t.mem i σ = 0)
    (hcontent : content t.mem i = fun _ => 0) (hroom : Room hi 1 t.mem) :
    Outcome (do
        INode.addDentry i (dotEntry i)
        INode.addDentry i (dotDotEntry p)) t
      (fun _ u => Dotted lo hi last i p t u) (Exhausted hi 1 t.mem) := by
  have hlast := h.last_lt
  have hneeded : neededSlots (128 * (0 + 1)) = {.field 0} := neededSlots_of_lt (by omega)
  have hneeded' : neededSlots (128 * (1 + 1)) = {.field 0} := neededSlots_of_lt (by omega)
  have hone : emptySlots t.mem i {.field 0} = 1 := by
    rw [emptySlots_singleton, if_pos (hempty _ (field_valid (by omega)))]
  refine Outcome.bind ((addDentry_outcome_of_lt (n := 0) h hn hdir (fun l hl => by omega)
    (by rw [hcontent, entryInode_zero]) (by omega) (fun hc => by omega) (by omega)
    (by rw [hneeded, hone]; exact hroom)).mono ?_ ?_)
  swap
  · intro e he
    rwa [hneeded, hone] at he
  rintro _ u ⟨v, hv, hu⟩
  rw [hneeded, hsize] at hv
  have hfield : slotVal u.mem i (.field 0) ≠ 0 := by
    rw [hu.slots_eq i hn _ (field_valid (by omega))]
    exact hv.filled _ (Finset.mem_singleton_self _)
  have husize : fileSize u.mem i = 256 := by
    rw [hu.size_eq, hv.size]
    rfl
  have hucontent : content u.mem i = Mem.copy (fun _ => 0) (128 * 0) (dotEntry i).bytes := by
    rw [hu.content_eq, hv.grows.own, hcontent]
  have hudir : fileType u.mem i = FType.DIR.code := by
    rw [hu.touches.fileType (by omega), hv.grows.toTouches.fileType (by omega), hdir]
  have hall : ∀ σ ∈ ({.field 0} : Finset Slot), slotVal u.mem i σ ≠ 0 := fun σ hσ => by
    rwa [Finset.mem_singleton.mp hσ]
  have hzero : emptySlots u.mem i {.field 0} = 0 := by
    rw [emptySlots_singleton, if_neg hfield]
  refine (addDentry_outcome_of_lt (n := 1) hu.owned hn hudir (fun l hl => ?_) ?_ (by omega)
    (fun _ => ⟨by omega, by omega, ?_⟩) (by omega)
    (by rw [hneeded', hzero]; exact Or.inr (by omega))).mono ?_ ?_
  · have hl0 : l = 0 := by omega
    rw [hl0, hucontent, entryInode_copy_self (show i < 2 ^ 32 by omega)]
    exact hne
  · rw [hucontent, entryInode_copy_of_ne (by omega), entryInode_zero]
  · rw [neededSlots_of_lt (by omega)]
    exact hall
  · rintro _ w ⟨x, hx, hw⟩
    rw [hneeded', husize] at hx
    -- the slot is there already, so nothing is allocated
    have hsame := hx.same husize hall
    subst hsame
    refine ⟨hw.owned, (hv.grows.toTouches.trans hu.touches).trans hw.touches, ?_, ?_, ?_, ?_⟩
    · rw [hw.content_eq, hucontent]
    · rw [hw.size_eq, husize]
    · intro σ hσ
      rw [hw.slots_eq i hn σ hσ, hu.slots_eq i hn σ hσ]
      constructor
      · intro hne0
        by_contra hnot
        rw [hv.others σ hσ fun hc => hnot (Finset.mem_singleton.mp hc), hempty σ hσ] at hne0
        exact hne0 rfl
      · rintro rfl
        exact hv.filled _ (Finset.mem_singleton_self _)
    · have hcount := hv.count
      rw [hone] at hcount
      rw [hcount, hw.free_eq, hu.free_eq]
  · intro e he
    have hlt := he.2
    rw [hneeded', hzero] at hlt
    omega

/-- `make_dir` up to the entries of the new directory. -/
theorem makeDir_spawn {env : Env} {name : List UInt8} {Q : Nat → ParchFS → Prop}
    {E : Abort → Prop} (h : Ownership lo hi last s) (hlast : last < 8191) (hroom : Room hi 1 s.mem)
    (hinvalid : ∀ e, ¬ (name.length ≤ 118 ∧ p ≠ 0) → E e)
    (hE : ∀ e, Exhausted hi 1 s.mem e → E e)
    (hrest : ∀ t u, name.length ≤ 118 → p ≠ 0 → Spawned lo hi last .DIR 256 3 s t →
      Dotted lo hi (last + 1) (last + 1) p t u →
      Outcome (if last + 1 = rootInode then do
          onlyIf (p ≠ rootInode) (ParchFS.panic "Root dir's parent must be itself!")
          pure (last + 1)
        else do
          let parentInode ← getInode p
          INode.addDentry parentInode (dirEntry env (last + 1) name)
          pure (last + 1)) u Q E) :
    Outcome (makeDir env p name) s Q E := by
  unfold makeDir
  refine assert_outcome (fun hname => ?_) fun hn => hinvalid _ fun hv => hn hv.1
  refine assert_outcome (fun hne => ?_) fun hn => hinvalid _ fun hv => hn hv.2
  refine spawn_outcome h hlast (by simp only [dentrySize]; omega) (by omega) fun t ht => ?_
  have hdots := addDots_outcome (p := p) ht.owned le_rfl (Nat.succ_ne_zero last) ht.type_eq
    ht.size_eq ht.empty ht.content_new (ht.room hlast hroom)
  -- the two calls are the first of a longer sequence
  rw [← bind_assoc]
  refine Outcome.bind (hdots.mono ?_ ?_)
  · exact fun _ u hu => hrest t u hname hne ht hu
  · intro e he
    have hlt := he.2
    rw [ht.freeCount hlast] at hlt
    exact hE e ⟨he.1, hlt⟩

/-- `make_dir` on a volume without inodes makes the root, which needs one block. -/
theorem makeRoot_outcome {env : Env} (h : Ownership lo hi 0 s) (hroom : Room hi 1 s.mem) :
    Outcome (makeDir env rootInode []) s
      (fun no u => no = rootInode ∧ ∃ t, Spawned lo hi 0 .DIR 256 3 s t ∧ Dotted lo hi 1 1 1 t u)
      (Exhausted hi 1 s.mem) := by
  refine makeDir_spawn h (by omega) hroom (fun e hn => ?_) (fun _ he => he) ?_
  · exact absurd ⟨Nat.zero_le _, by decide⟩ hn
  · intro t u _ _ ht hu
    rw [if_pos (show 0 + 1 = rootInode from rfl)]
    refine Outcome.onlyIf_bind_neg (fun hc => hc rfl) ?_
    exact Outcome.pure ⟨rfl, t, ht, hu⟩

/-- `make_dir` with a directory as parent returns the next inode, or stops with a
full block bitmap. -/
theorem makeDir_outcome {env : Env} {name : List UInt8} (h : Ownership lo hi last s)
    (hclosed : Closed hi s.mem) (hlast : last < 8191) (hroot : 0 < last) (hp : p < 8192) :
    Outcome (makeDir env p name) s
      (fun no u => no = last + 1 ∧ name.length ≤ 118 ∧ p ≠ 0 ∧ p ≤ last + 1 ∧
        ∃ t v j, Spawned lo hi last .DIR 256 3 s t ∧ Dotted lo hi (last + 1) (last + 1) p t v ∧
          Added lo hi (last + 1) p 0 j (dirEntry env (last + 1) name) v u)
      (fun e => ValidParent last s.mem p name → e = blockBitmapFull) := by
  refine makeDir_spawn h hlast (Or.inl hclosed) (fun e hn hv => ?_) (fun e he _ => he.1) ?_
  · exact absurd ⟨hv.name_le, hv.ne_zero⟩ hn
  · intro t v hname hne ht hv
    have hroot' : ¬ last + 1 = rootInode := by
      simp only [rootInode]
      omega
    rw [if_neg hroot']
    have hclosed' := hv.touches.closed (ht.closed hlast hclosed)
    have hdirs : p ≤ last → fileType v.mem p = fileType s.mem p := fun hle => by
      rw [hv.touches.fileType hp, ht.fileType hlast hle]
    by_cases hused : inodeBit v.mem p = true
    swap
    · -- `get_inode` on a free inode number
      refine Outcome.intro (fun no u hrun => ?_) fun e _ hvalid => ?_
      · obtain ⟨_, _, hget, -⟩ := exists_of_bind_eq_ok hrun
        exact absurd (getInode_ok hv.owned.mapped_ge (by omega) hget).1 hused
      · exact absurd
          ((hv.owned.inodeBit_iff p (by omega)).mpr (hvalid.le_last.trans (by omega))) hused
    have hle := (hv.owned.inodeBit_iff p (by omega)).mp hused
    refine Outcome.bind_ok (getInode_eq hv.owned.mapped_ge (by omega) hused) ?_
    by_cases hdir : fileType v.mem p = FType.DIR.code
    · refine Outcome.bind ((addDentry_outcome hv.owned hclosed' hle hdir).mono ?_ fun e he _ => he)
      rintro _ u ⟨j, hj⟩
      exact Outcome.pure ⟨rfl, hname, hne, hle, t, v, j, ht, hv, hj⟩
    · -- `add_dentry` on a file
      have hpanic : INode.addDentry p (dirEntry env (last + 1) name) v =
          .error (.panic "add_dentry called for non-dir inode") := by
        unfold INode.addDentry
        rw [bind_eq_ok (load_fType hv.owned hle), onlyIf_pos hdir]
        rfl
      refine Outcome.of_eq_error (bind_eq_error hpanic) fun hvalid => ?_
      exact absurd ((hdirs hvalid.le_last).trans hvalid.dir) hdir

end ParchTestbench
