import ParchTestbench.ParchFS.NonInterference
import ParchTestbench.Machine.WriteLog

/-!
# ParchFS: files and directories as their histories

The abstract model of an inode is the history of the calls on it: a file is the log of its
writes, a directory the list of its entries.  This file defines both histories from the
calls of a run alone and proves that the volume holds what they say.

Main results:

- Theorems `HoldsFile.step` and `HoldsDir.step`: one call adds to the histories what it
  says.
- Theorems `HoldsFile.run` and `HoldsDir.run`: so does a run.
- Theorems `holdsFile_of_makeFile` and `holdsDir_of_makeDir`: the history of a new inode.
-/

namespace ParchTestbench

open ParchFS Program
open WriteLog (overlay extent)

variable {lo hi last i p : Nat} {base s t u : ParchFS} {op : Op} {ops : List Op} {env : Env}
  {ws : WriteLog} {es : List DEntry} {d : DEntry} {name : List UInt8}

/-! ## Histories of calls -/

namespace ParchFS.Op

/-- What a call writes to the file of inode `i`; a call of `get_blkno` writes no bytes, but
moves the end of the file. -/
def accesses (i : Nat) : Op → WriteLog
  | write inode off buf => if inode = i then [(off, buf)] else []
  | getBlkno inode off => if inode = i then [(off, [])] else []
  | _ => []

/-- What a call on a volume with the inodes `0 ... last` adds to directory `i`. -/
def entries (i last : Nat) : Op → List DEntry
  | makeDir env parent name => if parent = i then [dirEntry env (last + 1) name] else []
  | makeFile _ parent name => if parent = i then [fileEntry (last + 1) name] else []
  | addDentry inode d => if inode = i then [d] else []
  | _ => []

/-- The call changes directory `i` by entries with an inode number only. -/
def AppendsTo (i : Nat) : Op → Prop
  | write inode _ _ => inode ≠ i
  | getBlkno inode _ => inode ≠ i
  | getDentry inode _ => inode ≠ i
  | addDentry inode d => inode = i → d.inode ≠ 0 ∧ d.inode < 2 ^ 32
  | _ => True

end ParchFS.Op

/-- The writes of some calls to the file of inode `i`. -/
def accesses (i : Nat) (ops : List Op) : WriteLog := ops.flatMap (Op.accesses i)

/-- The entries that some calls on a volume with the inodes `0 ... last` add to
directory `i`. -/
def entriesOf (i : Nat) : Nat → List Op → List DEntry
  | _, [] => []
  | last, op :: ops => op.entries i last ++ entriesOf i (last + op.added) ops

@[simp]
theorem accesses_nil : accesses i [] = [] := rfl

@[simp]
theorem accesses_concat : accesses i (ops ++ [op]) = accesses i ops ++ op.accesses i := by
  rw [accesses, List.flatMap_append, List.flatMap_singleton]
  rfl

theorem ParchFS.Op.accesses_of_ne (hne : i ≠ op.subject) : op.accesses i = [] := by
  cases op <;> first | rfl | exact if_neg (Ne.symm hne)

theorem entriesOf_append (ops ops' : List Op) :
    entriesOf i last (ops ++ ops') =
      entriesOf i last ops ++ entriesOf i (last + creations ops) ops' := by
  induction ops generalizing last with
  | nil => rfl
  | cons op ops ih =>
      have hcount : creations (op :: ops) = op.added + creations ops := by
        rw [← List.singleton_append, creations_append, ← List.nil_append [op], creations_concat]
        exact congrArg (· + creations ops) (Nat.zero_add _)
      rw [List.cons_append, entriesOf, entriesOf, ih, List.append_assoc, hcount, Nat.add_assoc]

theorem entriesOf_concat :
    entriesOf i last (ops ++ [op]) =
      entriesOf i last ops ++ op.entries i (last + creations ops) := by
  rw [entriesOf_append, entriesOf, entriesOf, List.append_nil]

/-! ## What a call does not touch -/

/-- The other inodes keep their block numbers. -/
theorem ParchFS.Op.Effect.slots (heff : op.Effect lo hi last s t) (hlast : last + op.added < 8192)
    {j : Nat} (hj : j ≤ last) (hne : j ≠ op.subject) {σ : Slot} (hσ : σ.Valid) :
    slotVal t.mem j σ = slotVal s.mem j σ := by
  cases op with
  | makeDir env p name =>
      rcases heff with ⟨-, -, -, v, w, k, hv, hw, hk⟩
      rw [hk.touches.slots j (by omega) σ hσ (Or.inl hne),
        hw.touches.slots j (by omega) σ hσ (Or.inl (by omega)), hv.slots j hj σ hσ]
  | makeFile env p name =>
      rcases heff with ⟨-, v, k, hv, hk⟩
      rw [hk.touches.slots j (by omega) σ hσ (Or.inl hne), hv.slots j hj σ hσ]
  | write i off buf => exact heff.2.touches.slots j hj σ hσ (Or.inl hne)
  | getBlkno i off => exact heff.2.grown.grows.toTouches.slots j hj σ hσ (Or.inl hne)
  | getDentry i pos => exact heff.2.2.grown.grows.toTouches.slots j hj σ hσ (Or.inl hne)
  | addDentry i d =>
      rcases heff with ⟨-, -, k, hk⟩
      exact hk.touches.slots j hj σ hσ (Or.inl hne)

/-- The other inodes keep their type, size, contents and blocks. -/
structure SameInode (i : Nat) (s t : ParchFS) : Prop where
  type_eq : fileType t.mem i = fileType s.mem i
  size_eq : fileSize t.mem i = fileSize s.mem i
  links_eq : linkCount t.mem i = linkCount s.mem i
  content_eq : content t.mem i = content s.mem i
  blk_eq : ∀ k, k < 1049616 → fileBlk t.mem i k = fileBlk s.mem i k

theorem SameInode.of_bytes
    (hbytes : ∀ x, INode.addr i ≤ x → x < INode.addr i + 256 → t.mem x = s.mem x)
    (hcontent : content t.mem i = content s.mem i)
    (hslots : ∀ σ : Slot, σ.Valid → slotVal t.mem i σ = slotVal s.mem i σ) : SameInode i s t := by
  have hfield : ∀ a n, INode.addr i ≤ a → a + n ≤ INode.addr i + 256 →
      t.mem.load a n = s.mem.load a n := fun a n ha hn =>
    Mem.load_congr fun x hx hx' => hbytes x (by omega) (by omega)
  refine ⟨?_, ?_, ?_, hcontent, fun k hk => hslots _ (dataSlot_valid hk)⟩
  · exact hfield _ 2 (by rw [INode.fType_eq, INode.addr_eq]; omega)
      (by rw [INode.fType_eq, INode.addr_eq]; omega)
  · exact hfield _ 8 (by rw [INode.fSize_eq, INode.addr_eq]; omega)
      (by rw [INode.fSize_eq, INode.addr_eq]; omega)
  · exact hfield _ 4 (by rw [INode.hardLinkCount_eq, INode.addr_eq]; omega)
      (by rw [INode.hardLinkCount_eq, INode.addr_eq]; omega)

theorem SameInode.trans (h : SameInode i s t) (h' : SameInode i t u) : SameInode i s u where
  type_eq := h'.type_eq.trans h.type_eq
  size_eq := h'.size_eq.trans h.size_eq
  links_eq := h'.links_eq.trans h.links_eq
  content_eq := h'.content_eq.trans h.content_eq
  blk_eq k hk := (h'.blk_eq k hk).trans (h.blk_eq k hk)

theorem ParchFS.Op.Effect.sameInode (heff : op.Effect lo hi last s t)
    (hown : Ownership lo hi last s) (hlast : last + op.added < 8192) (hi' : i ≤ last)
    (hne : i ≠ op.subject) : SameInode i s t := by
  obtain ⟨hbytes, hcontent⟩ := heff.keeps hown hlast hi' hne
  exact SameInode.of_bytes hbytes hcontent fun σ hσ => heff.slots hlast hi' hne hσ

/-- Up to its last step `make_dir` leaves the other inodes alone. -/
theorem sameInode_of_dotted {v w : ParchFS} (hv : Spawned lo hi last .DIR 256 3 s v)
    (hw : Dotted lo hi (last + 1) (last + 1) p v w) (hown : Ownership lo hi last s)
    (hlast : last < 8191) (hi' : i ≤ last) : SameInode i s w := by
  obtain ⟨hbytes, hcontent⟩ := hv.keeps hown hlast hi'
  obtain ⟨hbytes', hcontent'⟩ := hw.touches.keeps (Nat.le_succ_of_le hi') (by omega) (by omega)
  exact SameInode.of_bytes (fun x hx hx' => (hbytes' x hx hx').trans (hbytes x hx hx'))
    (hcontent'.trans hcontent) fun σ hσ => by
      rw [hw.touches.slots i (by omega) σ hσ (Or.inl (by omega)), hv.slots i hi' σ hσ]

/-- `make_dir` returns for a directory as parent only, be it the new one. -/
theorem fileType_of_makeDir {no : Nat} (h : Ownership lo hi last s) (hroom : Room hi 1 s.mem)
    (hlast : last < 8191) (hroot : 0 < last) (hp : p ≤ last)
    (hrun : makeDir env p name s = .ok (no, t)) : fileType s.mem p = FType.DIR.code := by
  have hlt := h.last_lt
  refine Outcome.of_ok (Q := fun _ _ => fileType s.mem p = FType.DIR.code) (E := fun _ => True)
    (makeDir_spawn h hlast hroom (fun _ _ => trivial) (fun _ _ => trivial) ?_) hrun
  intro v w _ _ hv hw
  rw [if_neg (show ¬ last + 1 = rootInode by simp only [rootInode]; omega)]
  refine Outcome.bind_ok (getInode_eq hw.owned.mapped_ge (by omega)
    ((hw.owned.inodeBit_iff p (by omega)).mpr (by omega))) ?_
  by_cases hdir : fileType w.mem p = FType.DIR.code
  · rw [hw.touches.fileType (by omega), hv.fileType hlast hp] at hdir
    exact Outcome.intro (fun _ _ _ => hdir) fun _ _ => trivial
  · -- `add_dentry` on a file
    have hpanic : INode.addDentry p (dirEntry env (last + 1) name) w =
        .error (.panic "add_dentry called for non-dir inode") := by
      unfold INode.addDentry
      rw [bind_eq_ok (load_fType hw.owned (by omega)), onlyIf_pos hdir]
      rfl
    exact Outcome.of_eq_error (bind_eq_error hpanic) trivial

/-! ## Files -/

/-- The file of inode `i` is that of a log of writes. -/
structure HoldsFile (i : Nat) (ws : WriteLog) (s : ParchFS) : Prop where
  type_eq : fileType s.mem i = FType.REGULAR.code
  size_eq : fileSize s.mem i = extent ws
  content_eq : content s.mem i = overlay ws
  mapped : ws ≠ [] → ∀ k, k ≤ extent ws / 4096 → fileBlk s.mem i k ≠ 0
  beyond : 4259840 ≤ extent ws → fileBlk s.mem i (extent ws / 4096 + 1) ≠ 0
  extent_lt : extent ws < 2151743488

namespace HoldsFile

theorem same (h : HoldsFile i ws s) (hsame : SameInode i s t) : HoldsFile i ws t where
  type_eq := hsame.type_eq.trans h.type_eq
  size_eq := hsame.size_eq.trans h.size_eq
  content_eq := hsame.content_eq.trans h.content_eq
  mapped hne k hk := by
    have hlt := h.extent_lt
    rw [hsame.blk_eq k (by omega)]
    exact h.mapped hne k hk
  beyond hge := by
    have hlt := h.extent_lt
    rw [hsame.blk_eq _ (by omega)]
    exact h.beyond hge
  extent_lt := h.extent_lt

/-- An access that ends at `n` moves the end of the file and maps the blocks up to it. -/
theorem access {off : Nat} {buf : List UInt8} (h : HoldsFile i ws s) (hi' : i ≤ last)
    (hown : Ownership lo hi last s) (ht : Touches lo hi last i s t)
    (hcontent : content t.mem i = (content s.mem i).copy off buf)
    (hsize : fileSize t.mem i = max (fileSize s.mem i) (off + buf.length))
    (hmapped : fileSize s.mem i ≤ off + buf.length →
      ∀ k, k ≤ (off + buf.length) / 4096 → fileBlk t.mem i k ≠ 0)
    (hbeyond : fileSize s.mem i ≤ off + buf.length → 4259840 ≤ off + buf.length →
      fileBlk t.mem i ((off + buf.length) / 4096 + 1) ≠ 0)
    (hend : off + buf.length ≤ fileSize s.mem i ∨ off + buf.length < 2151743488) :
    HoldsFile i (ws ++ [(off, buf)]) t := by
  have hlast := hown.last_lt
  have hlt := h.extent_lt
  have hkeep : ∀ k, k < 1049616 → fileBlk s.mem i k ≠ 0 → fileBlk t.mem i k ≠ 0 := by
    intro k hk hne
    rw [fileBlk, ht.keep hi' (dataSlot_valid hk) hne]
    exact hne
  rw [h.size_eq] at hsize hmapped hbeyond hend
  refine ⟨(ht.fileType (by omega)).trans h.type_eq, ?_, ?_, fun _ k => ?_, ?_, ?_⟩
  · rw [hsize, WriteLog.extent_concat]
  · rw [hcontent, h.content_eq, WriteLog.overlay_concat]
  · rw [WriteLog.extent_concat]
    dsimp only
    intro hk
    rcases Nat.le_total (extent ws) (off + buf.length) with hle | hge
    · rw [max_eq_right hle] at hk
      exact hmapped hle k hk
    · rw [max_eq_left hge] at hk
      by_cases hnil : ws = []
      · rw [hnil, WriteLog.extent_nil] at hk hge
        exact hmapped (by rw [hnil]; exact Nat.zero_le _) k (by omega)
      · exact hkeep k (by omega) (h.mapped hnil k hk)
  · rw [WriteLog.extent_concat]
    dsimp only
    intro hbig
    rcases Nat.le_total (extent ws) (off + buf.length) with hle | hge
    · rw [max_eq_right hle] at hbig ⊢
      exact hbeyond hle hbig
    · rw [max_eq_left hge] at hbig ⊢
      exact hkeep _ (by omega) (h.beyond hbig)
  · rw [WriteLog.extent_concat]
    dsimp only
    omega

/-- A call on a file that returns is a `write` or a `get_blkno`. -/
theorem access_of_subject (h : HoldsFile i ws s) (hs : Healthy lo hi last base s) (hroot : 0 < last)
    (hlast : last + op.added < 8192) (hi' : i ≤ last) (heff : op.Effect lo hi last s t)
    (hrun : op.exec s = .ok ((), t)) (hsubject : i = op.subject) :
    (∃ off buf, op = .write i off buf) ∨ ∃ off, op = .getBlkno i off := by
  have hfile : ¬ fileType s.mem i = FType.DIR.code := by
    rw [h.type_eq]
    decide
  cases op with
  | makeDir env p name =>
      obtain ⟨no, hmake⟩ := Op.exists_of_drop hrun
      rw [show i = p from hsubject] at hfile hi'
      exact absurd (fileType_of_makeDir hs.owned (Or.inl hs.closed)
        (Nat.lt_of_succ_lt_succ hlast) hroot hi' hmake) hfile
  | makeFile env p name =>
      rw [show i = p from hsubject] at hfile
      exact absurd heff.1.dir hfile
  | write inode off buf =>
      obtain rfl : i = inode := hsubject
      exact Or.inl ⟨off, buf, rfl⟩
  | getBlkno inode off =>
      obtain rfl : i = inode := hsubject
      exact Or.inr ⟨off, rfl⟩
  | getDentry inode pos =>
      rw [show i = inode from hsubject] at hfile
      exact absurd heff.2.1 hfile
  | addDentry inode d =>
      rw [show i = inode from hsubject] at hfile
      exact absurd heff.2.1 hfile

/-- One call adds its accesses to the log. -/
theorem step (h : HoldsFile i ws s) (hs : Healthy lo hi last base s) (hroot : 0 < last)
    (hlast : last + op.added < 8192) (hi' : i ≤ last) (heff : op.Effect lo hi last s t)
    (hrun : op.exec s = .ok ((), t)) : HoldsFile i (ws ++ op.accesses i) t := by
  have hown := hs.owned
  by_cases hne : i ≠ op.subject
  · rw [Op.accesses_of_ne hne, List.append_nil]
    exact h.same (heff.sameInode hown hlast hi' hne)
  rw [not_not] at hne
  rcases h.access_of_subject hs hroot hlast hi' heff hrun hne with ⟨off, buf, rfl⟩ | ⟨off, rfl⟩
  · have hw := heff.2
    rw [Op.accesses, if_pos rfl]
    exact h.access hi' hown hw.touches hw.content_eq hw.size_eq hw.mapped hw.beyond hw.end_lt
  · have hw := heff.2
    rw [Op.accesses, if_pos rfl]
    refine h.access hi' hown hw.grown.grows.toTouches ?_ hw.grown.size (fun _ => hw.mapped)
      (fun _ => hw.beyond) (Or.inr hw.off_lt)
    rw [hw.grown.grows.own, Mem.copy_nil]

/-- A run adds its accesses to the log. -/
theorem run (h : HoldsFile i ws s) (hs : Healthy lo hi last base s) (hroot : 0 < last)
    (hi' : i ≤ last) (hops : Admissible last [] ops)
    (hrun : runAll Op.exec ops s = .ok ((), u)) : HoldsFile i (ws ++ accesses i ops) u := by
  refine (run_induct (I := fun done t => HoldsFile i (ws ++ accesses i done) t) hs hroot ?_ ?_
    hops hrun).2
  · rwa [accesses_nil, List.append_nil]
  · intro done op v w hv hroom _ hexec heff hI
    rw [accesses_concat, ← List.append_assoc]
    exact hI.step hv (by omega) hroom (by omega) heff hexec

end HoldsFile

/-! ## Directories -/

/-- Directory `i` holds a list of entries in its first slots, and nothing else. -/
structure HoldsDir (i : Nat) (es : List DEntry) (s : ParchFS) : Prop where
  type_eq : fileType s.mem i = FType.DIR.code
  size_eq : fileSize s.mem i = 128 * es.length
  content_eq : content s.mem i = Mem.packed (es.map DEntry.bytes)
  named : ∀ d ∈ es, d.inode ≠ 0 ∧ d.inode < 2 ^ 32
  mapped : es ≠ [] → ∀ k, k ≤ 128 * es.length / 4096 → fileBlk s.mem i k ≠ 0
  size_lt : 128 * es.length < 2151743488

theorem length_of_mem_bytes {r : List UInt8} (hr : r ∈ es.map DEntry.bytes) : r.length = 128 := by
  obtain ⟨d, -, rfl⟩ := List.mem_map.mp hr
  exact d.length_bytes

namespace HoldsDir

theorem same (h : HoldsDir i es s) (hsame : SameInode i s t) : HoldsDir i es t where
  type_eq := hsame.type_eq.trans h.type_eq
  size_eq := hsame.size_eq.trans h.size_eq
  content_eq := hsame.content_eq.trans h.content_eq
  named := h.named
  mapped hne k hk := by
    have hlt := h.size_lt
    rw [hsame.blk_eq k (by omega)]
    exact h.mapped hne k hk
  size_lt := h.size_lt

/-- A slot in use reads as its entry. -/
theorem content_entry (h : HoldsDir i es s) {j k : Nat} (hj : es[j]? = some d) (hk : k < 128) :
    some (content s.mem i (128 * j + k)) = d.bytes[k]? := by
  rw [h.content_eq]
  refine Mem.packed_record (fun r hr => length_of_mem_bytes hr) ?_ hk
  rw [List.getElem?_map, hj]
  rfl

/-- The slots behind the entries are zero. -/
theorem content_of_ge (h : HoldsDir i es s) {x : Nat} (hx : 128 * es.length ≤ x) :
    content s.mem i x = 0 := by
  rw [h.content_eq]
  exact Mem.packed_of_ge (fun r hr => length_of_mem_bytes hr) (by rwa [List.length_map])

theorem entryInode_eq (h : HoldsDir i es s) {j : Nat} (hj : es[j]? = some d) :
    entryInode (content s.mem i) j = d.inode := by
  have hd := h.named d (List.mem_of_getElem? hj)
  rw [← load_copy_bytes (c := Mem.blank) (a := 128 * j) hd.2]
  refine Mem.load_congr fun x hx hx' => ?_
  have hidx : x - 128 * j < d.bytes.length := by
    rw [d.length_bytes]
    omega
  have hbyte := h.content_entry hj (show x - 128 * j < 128 by omega)
  rw [List.getElem?_eq_getElem hidx, show 128 * j + (x - 128 * j) = x by omega] at hbyte
  rw [Mem.copy_of_mem hx hidx]
  exact Option.some.inj hbyte

theorem entryInode_ne_zero (h : HoldsDir i es s) {j : Nat} (hj : j < es.length) :
    entryInode (content s.mem i) j ≠ 0 := by
  rw [h.entryInode_eq (List.getElem?_eq_getElem hj)]
  exact (h.named _ (List.getElem_mem hj)).1

theorem entryInode_of_ge (h : HoldsDir i es s) {j : Nat} (hj : es.length ≤ j) :
    entryInode (content s.mem i) j = 0 :=
  Mem.load_eq_zero fun x hx _ => h.content_of_ge (by omega)

/-- The first free slot is the one behind the entries. -/
theorem first_free (h : HoldsDir i es s) {j : Nat}
    (hbefore : ∀ l, l < j → entryInode (content s.mem i) l ≠ 0)
    (hempty : entryInode (content s.mem i) j = 0) : j = es.length := by
  rcases Nat.lt_trichotomy j es.length with hlt | heq | hgt
  · exact absurd hempty (h.entryInode_ne_zero hlt)
  · exact heq
  · exact absurd (h.entryInode_of_ge le_rfl) (hbefore _ hgt)

/-- A call of `add_dentry` appends its entry. -/
theorem added {j : Nat} (h : HoldsDir i es s) (hi' : i ≤ last) (hlast : last < 8192)
    (ht : Added lo hi last i 0 j d s t) (hd : d.inode ≠ 0 ∧ d.inode < 2 ^ 32) :
    HoldsDir i (es ++ [d]) t := by
  have hj := h.first_free (fun l hl => ht.before l (Nat.zero_le l) hl) ht.empty
  subst hj
  have hlen : (es ++ [d]).length = es.length + 1 := by
    rw [List.length_append, List.length_singleton]
  refine ⟨(ht.touches.fileType (by omega)).trans h.type_eq, ?_, ?_, ?_, fun _ => ?_, ?_⟩
  · rw [ht.size_eq, h.size_eq, hlen]
    omega
  · have hpack := Mem.copy_packed (r := d.bytes) fun r (hr : r ∈ es.map DEntry.bytes) =>
      length_of_mem_bytes hr
    rw [List.length_map] at hpack
    rw [ht.content_eq, h.content_eq, hpack, List.map_append, List.map_singleton]
  · intro d' hd'
    rcases List.mem_append.mp hd' with hold | hnew
    · exact h.named d' hold
    · rw [List.mem_singleton.mp hnew]
      exact hd
  · rw [hlen]
    exact ht.mapped
  · rw [hlen]
    exact ht.end_lt

/-- One call adds its entries to the directory. -/
theorem step (h : HoldsDir i es s) (hown : Ownership lo hi last s)
    (hlast : last + op.added < 8192) (hi' : i ≤ last) (heff : op.Effect lo hi last s t)
    (happend : op.AppendsTo i) : HoldsDir i (es ++ op.entries i last) t := by
  have hlt := hown.last_lt
  by_cases hne : i ≠ op.subject
  · have hnone : op.entries i last = [] := by
      cases op <;> first | rfl | exact if_neg (Ne.symm hne)
    rw [hnone, List.append_nil]
    exact h.same (heff.sameInode hown hlast hi' hne)
  rw [not_not] at hne
  cases op with
  | makeDir env p name =>
      obtain rfl : i = p := hne
      rcases heff with ⟨-, -, -, v, w, k, hv, hw, hk⟩
      have hroom : last < 8191 := Nat.lt_of_succ_lt_succ hlast
      have hsame := sameInode_of_dotted hv hw hown hroom hi'
      rw [Op.entries, if_pos rfl]
      exact (h.same hsame).added (by omega) (by omega) hk ⟨Nat.succ_ne_zero last, by
        show last + 1 < 2 ^ 32
        omega⟩
  | makeFile env p name =>
      obtain rfl : i = p := hne
      rcases heff with ⟨-, v, k, hv, hk⟩
      have hroom : last < 8191 := Nat.lt_of_succ_lt_succ hlast
      have hsame : SameInode i s v := by
        obtain ⟨hbytes, hcontent⟩ := hv.keeps hown hroom hi'
        exact SameInode.of_bytes hbytes hcontent fun σ hσ => hv.slots i hi' σ hσ
      rw [Op.entries, if_pos rfl]
      exact (h.same hsame).added (by omega) (by omega) hk ⟨Nat.succ_ne_zero last, by
        show last + 1 < 2 ^ 32
        omega⟩
  | write inode off buf => exact absurd hne.symm happend
  | getBlkno inode off => exact absurd hne.symm happend
  | getDentry inode pos => exact absurd hne.symm happend
  | addDentry inode d =>
      obtain rfl : i = inode := hne
      rcases heff with ⟨-, -, k, hk⟩
      rw [Op.entries, if_pos rfl]
      exact h.added hi' hlt hk (happend rfl)

/-- A run adds its entries to the directory. -/
theorem run (h : HoldsDir i es s) (hs : Healthy lo hi last base s) (hroot : 0 < last)
    (hi' : i ≤ last) (hops : Admissible last [] ops) (happend : ∀ op ∈ ops, op.AppendsTo i)
    (hrun : runAll Op.exec ops s = .ok ((), u)) :
    HoldsDir i (es ++ entriesOf i last ops) u := by
  refine (run_induct (I := fun done t => (∀ op ∈ done, op.AppendsTo i) →
    HoldsDir i (es ++ entriesOf i last done) t) hs hroot ?_ ?_ hops hrun).2 happend
  · intro _
    rwa [entriesOf, List.append_nil]
  · intro done op v w hv hroom _ _ heff hI hall
    rw [entriesOf_concat, ← List.append_assoc]
    have hbefore := hI fun op' hop' => hall op' (List.mem_append_left _ hop')
    exact hbefore.step hv.owned hroom (by omega) heff
      (hall op (List.mem_append_right _ (List.mem_singleton_self op)))

end HoldsDir

/-! ## New inodes -/

/-- The two first entries of a directory. -/
def dots (i p : Nat) : List DEntry := [dotEntry i, dotDotEntry p]

/-- A fresh directory holds its two first entries. -/
theorem Dotted.holdsDir (h : Dotted lo hi last i p t u) (hi' : i ≤ last)
    (htype : fileType t.mem i = FType.DIR.code) (hne : i ≠ 0) (hp : p ≠ 0) (hp' : p < 8192) :
    HoldsDir i (dots i p) u := by
  have hlt := h.owned.last_lt
  refine ⟨(h.touches.fileType (by omega)).trans htype, h.size_eq, ?_, ?_, fun _ k hk => ?_,
    show 256 < 2151743488 by omega⟩
  · have hone := Mem.copy_append (m := Mem.blank) (a := 0) (dotEntry i).bytes
      (dotDotEntry p).bytes
    rw [Nat.zero_add, (dotEntry i).length_bytes] at hone
    rw [h.content_eq]
    refine hone.trans ?_
    rw [Mem.packed, dots, List.map_cons, List.map_singleton, List.flatten_cons,
      List.flatten_singleton]
  · intro d hd
    rcases List.mem_cons.mp hd with rfl | hd
    · exact ⟨hne, show i < 2 ^ 32 by omega⟩
    · rw [List.mem_singleton.mp hd]
      exact ⟨hp, show p < 2 ^ 32 by omega⟩
  · have hzero : k = 0 := by
      have hlen : (dots i p).length = 2 := rfl
      rw [hlen] at hk
      omega
    rw [hzero]
    exact (h.filled_iff _ (field_valid (by omega))).mpr rfl

/-- The root of a new volume. -/
theorem Founded.holdsDir (h : Founded lo hi base s t u) : HoldsDir 1 (dots 1 1) u :=
  h.dotted.holdsDir le_rfl h.spawned.type_eq (by omega) (by omega) (by omega)

namespace ParchFS.Op.Effect

/-- A new directory holds its two first entries, and the one that the call adds to it if it
is its own parent. -/
theorem holdsDir_new (heff : (Op.makeDir env p name).Effect lo hi last s t) (hlast : last < 8191)
    (hp : p < 8192) :
    HoldsDir (last + 1) (dots (last + 1) p ++ (Op.makeDir env p name).entries (last + 1) last)
      t := by
  obtain ⟨hname, hne, hle, v, w, j, hv, hw, hj⟩ := heff
  have hdir := hw.holdsDir le_rfl hv.type_eq (by omega) hne hp
  rw [Op.entries]
  split
  · rename_i hself
    rw [hself] at hj
    exact hdir.added le_rfl (by omega) hj ⟨Nat.succ_ne_zero last, by
      show last + 1 < 2 ^ 32
      omega⟩
  · rename_i hother
    obtain ⟨hbytes, hcontent⟩ := hj.touches.keeps (j := last + 1) le_rfl (by omega) (Ne.symm hother)
    rw [List.append_nil]
    exact hdir.same (SameInode.of_bytes hbytes hcontent fun σ hσ =>
      hj.touches.slots _ le_rfl σ hσ (Or.inl (Ne.symm hother)))

/-- A new file is empty. -/
theorem holdsFile_new (heff : (Op.makeFile env p name).Effect lo hi last s t)
    (hlast : last < 8191) : HoldsFile (last + 1) [] t := by
  obtain ⟨hvalid, v, j, hv, hj⟩ := heff
  have hne : last + 1 ≠ p := fun heq => by
    have hle := hvalid.le_last
    omega
  obtain ⟨hbytes, hcontent⟩ := hj.touches.keeps (j := last + 1) le_rfl (by omega) hne
  have hsame : SameInode (last + 1) v t := SameInode.of_bytes hbytes hcontent fun σ hσ =>
    hj.touches.slots _ le_rfl σ hσ (Or.inl hne)
  refine HoldsFile.same ?_ hsame
  exact ⟨hv.type_eq, hv.size_eq, hv.content_new, fun hnil => absurd rfl hnil,
    fun hge => absurd hge (by rw [WriteLog.extent_nil]; omega),
    by rw [WriteLog.extent_nil]; omega⟩

end ParchFS.Op.Effect

/-- What `make_dir` returns is a new directory. -/
theorem holdsDir_of_makeDir {no : Nat} (hs : Healthy lo hi last base s) (hroot : 0 < last)
    (hlast : last < 8191) (hp : p < 8192) (hrun : makeDir env p name s = .ok (no, t)) :
    no = last + 1 ∧ Healthy lo hi (last + 1) base t ∧
      HoldsDir (last + 1) (dots (last + 1) p ++ (Op.makeDir env p name).entries (last + 1) last)
        t := by
  obtain ⟨hno, heff⟩ := (makeDir_outcome hs.owned hs.closed hlast hroot hp).of_ok hrun
  have heff' : (Op.makeDir env p name).Effect lo hi last s t := heff
  exact ⟨hno, heff'.healthy hs (Nat.succ_lt_succ hlast), heff'.holdsDir_new hlast hp⟩

/-- What `make_file` returns is a new file. -/
theorem holdsFile_of_makeFile {no : Nat} (hs : Healthy lo hi last base s) (hlast : last < 8191)
    (hp : p < 8192) (hrun : makeFile env p name s = .ok (no, t)) :
    no = last + 1 ∧ Healthy lo hi (last + 1) base t ∧ HoldsFile (last + 1) [] t ∧
      ∀ σ : Slot, σ.Valid → slotVal t.mem (last + 1) σ = 0 := by
  obtain ⟨hno, heff⟩ := (makeFile_outcome hs.owned hs.closed hlast hp).of_ok hrun
  have heff' : (Op.makeFile env p name).Effect lo hi last s t := heff
  refine ⟨hno, heff'.healthy hs (Nat.succ_lt_succ hlast), heff'.holdsFile_new hlast, ?_⟩
  obtain ⟨hvalid, v, j, hv, hj⟩ := heff
  have hle := hvalid.le_last
  intro σ hσ
  rw [hj.touches.slots _ le_rfl σ hσ (Or.inl (by omega)), hv.empty σ hσ]

end ParchTestbench
